import Mathlib.Data.List.Basic
import Mathlib.Data.List.Find
import Mathlib.Data.Nat.Notation
import Mathlib.Logic.Function.Basic

/-!
# Linked lists in a heap

Cells with a value and a link, a bump allocator, and `Segment`: the cells from one
pointer to another, with their addresses and values in order.
-/

namespace LinkedList

variable {α : Type*}

/-- `none` is the NULL pointer. -/
structure Cell (α : Type*) where
  val : α
  next : Option ℕ

structure Heap (α : Type*) where
  cells : ℕ → Option (Cell α)
  /-- The address handed out next; none is handed out twice. -/
  fresh : ℕ
  /-- The addresses that were freed, in order. -/
  freed : List ℕ
  unallocated : ∀ a, fresh ≤ a → cells a = none

namespace Heap

def empty : Heap α := ⟨fun _ => none, 0, [], fun _ _ => rfl⟩

/-- A new cell with a NULL link. -/
def alloc (h : Heap α) (v : α) : Heap α where
  cells := Function.update h.cells h.fresh (some ⟨v, none⟩)
  fresh := h.fresh + 1
  freed := h.freed
  unallocated a ha := by
    rw [Function.update_of_ne (by omega)]
    exact h.unallocated a (by omega)

/-- A store into a cell; there is none outside the allocated ones. -/
def write (h : Heap α) (a : ℕ) (c : Cell α) : Heap α where
  cells := Function.update h.cells a ((h.cells a).map fun _ => c)
  fresh := h.fresh
  freed := h.freed
  unallocated b hb := by
    by_cases hab : b = a
    · subst hab
      rw [Function.update_self, h.unallocated b hb, Option.map_none]
    · rw [Function.update_of_ne hab]
      exact h.unallocated b hb

/-- `none` is a store through a pointer that points to no cell. -/
def setNext (h : Heap α) (a : ℕ) (p : Option ℕ) : Option (Heap α) :=
  (h.cells a).map fun c => h.write a { c with next := p }

/-- `none` is a free of a pointer that points to no cell. -/
def free (h : Heap α) (a : ℕ) : Option (Heap α) :=
  (h.cells a).map fun _ =>
    { cells := Function.update h.cells a none
      fresh := h.fresh
      freed := h.freed ++ [a]
      unallocated := fun b hb => by
        by_cases hab : b = a
        · rw [hab, Function.update_self]
        · rw [Function.update_of_ne hab]
          exact h.unallocated b hb }

@[simp] theorem alloc_cells (h : Heap α) (v : α) :
    (h.alloc v).cells = Function.update h.cells h.fresh (some ⟨v, none⟩) := rfl

theorem free_of_cells {h : Heap α} {a : ℕ} {c : Cell α} (hc : h.cells a = some c) :
    ∃ h', h.free a = some h' ∧ h'.cells = Function.update h.cells a none ∧
      h'.fresh = h.fresh ∧ h'.freed = h.freed ++ [a] := by
  simp only [free, hc, Option.map_some, Option.some.injEq, exists_eq_left', and_self]

theorem setNext_of_cells {h : Heap α} {a : ℕ} {c : Cell α} (hc : h.cells a = some c)
    (p : Option ℕ) :
    ∃ h', h.setNext a p = some h' ∧
      h'.cells = Function.update h.cells a (some { c with next := p }) ∧
      h'.fresh = h.fresh ∧ h'.freed = h.freed := by
  refine ⟨h.write a { c with next := p }, by rw [setNext, hc, Option.map_some], ?_, rfl, rfl⟩
  simp only [write, hc, Option.map_some]

theorem lt_fresh_of_cells {h : Heap α} {a : ℕ} {c : Cell α} (hc : h.cells a = some c) :
    a < h.fresh := by
  by_contra hge
  rw [h.unallocated a (Nat.not_lt.mp hge)] at hc
  cases hc

end Heap

/-- From `p` the links lead through the cells `xs` to `q`. -/
def Segment (h : Heap α) : Option ℕ → List (ℕ × α) → Option ℕ → Prop
  | p, [], q => p = q
  | p, (a, v) :: xs, q => p = some a ∧ ∃ next, h.cells a = some ⟨v, next⟩ ∧ Segment h next xs q

variable {h h' : Heap α} {p q : Option ℕ} {xs ys : List (ℕ × α)}

theorem segment_append :
    Segment h p (xs ++ ys) q ↔ ∃ r, Segment h p xs r ∧ Segment h r ys q := by
  induction xs generalizing p with
  | nil => simp [Segment]
  | cons x xs ih =>
    obtain ⟨a, v⟩ := x
    simp only [List.cons_append, Segment, ih]
    constructor
    · rintro ⟨rfl, next, hc, r, hxs, hys⟩
      exact ⟨r, ⟨rfl, next, hc, hxs⟩, hys⟩
    · rintro ⟨r, ⟨rfl, next, hc, hxs⟩, hys⟩
      exact ⟨rfl, next, hc, r, hxs, hys⟩

theorem segment_singleton {a : ℕ} {v : α} :
    Segment h p [(a, v)] q ↔ p = some a ∧ h.cells a = some ⟨v, q⟩ := by
  simp [Segment]

namespace Segment

theorem cells (hs : Segment h p xs q) {x : ℕ × α} (hx : x ∈ xs) :
    ∃ next, h.cells x.1 = some ⟨x.2, next⟩ := by
  induction xs generalizing p with
  | nil => cases hx
  | cons y xs ih =>
    obtain ⟨_, next, hc, hs⟩ := hs
    rcases List.mem_cons.mp hx with rfl | hx
    · exact ⟨next, hc⟩
    · exact ih hs hx

theorem rest {a : ℕ} {v : α} (hs : Segment h p (xs ++ (a, v) :: ys) q) :
    ∃ next, h.cells a = some ⟨v, next⟩ ∧ Segment h next ys q := by
  obtain ⟨_, _, hlast⟩ := segment_append.mp hs
  exact hlast.2

theorem lt_fresh (hs : Segment h p xs q) {a : ℕ} (ha : a ∈ xs.map Prod.fst) : a < h.fresh := by
  obtain ⟨x, hx, rfl⟩ := List.mem_map.mp ha
  obtain ⟨next, hc⟩ := hs.cells hx
  exact Heap.lt_fresh_of_cells hc

/-- A segment is left alone by stores elsewhere. -/
theorem congr (hs : Segment h p xs q)
    (hc : ∀ a ∈ xs.map Prod.fst, h'.cells a = h.cells a) : Segment h' p xs q := by
  induction xs generalizing p with
  | nil => exact hs
  | cons x xs ih =>
    obtain ⟨a, v⟩ := x
    obtain ⟨rfl, next, ha, hs⟩ := hs
    refine ⟨rfl, next, ?_, ih hs fun b hb => hc b (List.mem_cons_of_mem _ hb)⟩
    rw [hc a (by simp), ha]

/-- The links lead through one list of cells only. -/
theorem unique (hs : Segment h p xs none) (hs' : Segment h p ys none) : xs = ys := by
  induction xs generalizing p ys with
  | nil =>
    cases ys with
    | nil => rfl
    | cons y ys => rw [hs.trans rfl] at hs'; cases hs'.1
  | cons x xs ih =>
    obtain ⟨rfl, next, hc, hs⟩ := hs
    cases ys with
    | nil => cases hs'
    | cons y ys =>
      obtain ⟨hp, next', hc', hs'⟩ := hs'
      obtain ⟨a, v⟩ := x
      obtain ⟨b, w⟩ := y
      obtain rfl := Option.some.inj hp
      rw [hc, Option.some.injEq, Cell.mk.injEq] at hc'
      obtain ⟨rfl, rfl⟩ := hc'
      rw [ih hs hs']

/-- A list that ends meets no cell twice. -/
theorem nodup (hs : Segment h p xs none) : (xs.map Prod.fst).Nodup := by
  induction xs generalizing p with
  | nil => exact List.nodup_nil
  | cons x xs ih =>
    obtain ⟨a, v⟩ := x
    have hwhole := hs
    obtain ⟨rfl, next, hc, hs⟩ := hs
    refine List.nodup_cons.mpr ⟨fun hmem => ?_, ih hs⟩
    obtain ⟨⟨b, w⟩, hx, rfl⟩ := List.mem_map.mp hmem
    obtain ⟨before, after, rfl⟩ := List.append_of_mem hx
    -- The part after the second meeting would be the whole list again.
    obtain ⟨r, _, hrest⟩ := segment_append.mp hs
    obtain rfl := hrest.1
    have hlen := congrArg List.length (hrest.unique hwhole)
    simp only [List.length_cons, List.length_append] at hlen
    omega

/-- A store into the link of the last cell moves the end of the segment. -/
theorem redirect {a : ℕ} {v : α} (hs : Segment h p (xs ++ [(a, v)]) q)
    (hnotin : a ∉ xs.map Prod.fst) (r : Option ℕ) :
    ∃ h', h.setNext a r = some h' ∧ Segment h' p (xs ++ [(a, v)]) r ∧
      (∀ b, b ≠ a → h'.cells b = h.cells b) ∧ h'.fresh = h.fresh ∧ h'.freed = h.freed := by
  obtain ⟨s, hxs, hlast⟩ := segment_append.mp hs
  obtain ⟨rfl, hc⟩ := segment_singleton.mp hlast
  obtain ⟨h', hset, hcells, hfresh, hfreed⟩ := Heap.setNext_of_cells hc r
  have hother : ∀ b, b ≠ a → h'.cells b = h.cells b := by
    intro b hb
    rw [hcells, Function.update_of_ne hb]
  refine ⟨h', hset, ?_, hother, hfresh, hfreed⟩
  refine segment_append.mpr ⟨some a, hxs.congr ?_, segment_singleton.mpr ⟨rfl, ?_⟩⟩
  · intro b hb
    exact hother b fun hab => hnotin (hab ▸ hb)
  · rw [hcells, Function.update_self]

/-- Taking the cell after `a` out of a list and freeing it. -/
theorem remove {a b : ℕ} {v w : α} (hs : Segment h p (xs ++ (a, v) :: (b, w) :: ys) none) :
    ∃ next h₁ h₂, h.cells a = some ⟨v, some b⟩ ∧ h.cells b = some ⟨w, next⟩ ∧
      h.setNext a next = some h₁ ∧ h₁.free b = some h₂ ∧
      Segment h₂ p (xs ++ (a, v) :: ys) none ∧
      (∀ c, c ≠ a → c ≠ b → h₂.cells c = h.cells c) ∧ h₂.cells b = none ∧
      h₂.fresh = h.fresh ∧ h₂.freed = h.freed ++ [b] := by
  have hnodup := hs.nodup
  rw [List.map_append, List.map_cons, List.map_cons] at hnodup
  rw [List.append_cons] at hs
  obtain ⟨r, hfirst, hrest⟩ := segment_append.mp hs
  obtain ⟨rfl, next, hb, hys⟩ := hrest
  have ha : h.cells a = some ⟨v, some b⟩ := by
    obtain ⟨s, _, hlast⟩ := segment_append.mp hfirst
    exact (segment_singleton.mp hlast).2
  obtain ⟨hxs, hab, hdisj⟩ := List.nodup_append.mp hnodup
  obtain ⟨ha_ys, hb_ys⟩ := List.nodup_cons.mp hab
  obtain ⟨hb_ys, _⟩ := List.nodup_cons.mp hb_ys
  have ha_xs : a ∉ xs.map Prod.fst := fun hmem => hdisj a hmem a (by simp) rfl
  have hb_xs : b ∉ xs.map Prod.fst := fun hmem => hdisj b hmem b (by simp) rfl
  have hne : b ≠ a := fun he => ha_ys (he ▸ List.mem_cons_self ..)
  obtain ⟨h₁, hset, hseg, hother, hfresh, hfreed⟩ := hfirst.redirect ha_xs next
  have hb₁ : h₁.cells b = some ⟨w, next⟩ := by rw [hother b hne, hb]
  obtain ⟨h₂, hfree, hcells, hfresh₂, hfreed₂⟩ := Heap.free_of_cells hb₁
  refine ⟨next, h₁, h₂, ha, hb, hset, hfree, ?_, ?_, ?_, hfresh₂.trans hfresh, ?_⟩
  · rw [List.append_cons]
    refine segment_append.mpr ⟨next, hseg.congr fun c hc => ?_, hys.congr fun c hc => ?_⟩
    · have hcb : c ≠ b := by
        rintro rfl
        rw [List.map_append, List.mem_append] at hc
        rcases hc with hc | hc
        · exact hb_xs hc
        · exact hne (by simpa using hc)
      rw [hcells, Function.update_of_ne hcb]
    · have hcb : c ≠ b := fun he => hb_ys (he ▸ hc)
      have hca : c ≠ a := fun he => ha_ys (List.mem_cons_of_mem _ (he ▸ hc))
      rw [hcells, Function.update_of_ne hcb, hother c hca]
  · intro c hca hcb
    rw [hcells, Function.update_of_ne hcb, hother c hca]
  · rw [hcells, Function.update_self]
  · rw [hfreed₂, hfreed]

/-- A new cell at the end of a list. -/
theorem snoc {a : ℕ} {v : α} (hs : Segment h p (xs ++ [(a, v)]) none) (w : α) :
    ∃ h', (h.alloc w).setNext a (some h.fresh) = some h' ∧
      Segment h' p (xs ++ [(a, v)] ++ [(h.fresh, w)]) none ∧
      h'.fresh = h.fresh + 1 ∧ h'.freed = h.freed ∧
      ∀ b, b ≠ a → b ≠ h.fresh → h'.cells b = h.cells b := by
  have hnodup := hs.nodup
  rw [List.map_append] at hnodup
  have hnotin : a ∉ xs.map Prod.fst := fun hmem =>
    (List.nodup_append.mp hnodup).2.2 a hmem a (by simp) rfl
  have halt : a < h.fresh := hs.lt_fresh (by simp)
  have halloc : Segment (h.alloc w) p (xs ++ [(a, v)]) none := hs.congr fun b hb => by
    have := hs.lt_fresh hb
    rw [Heap.alloc_cells, Function.update_of_ne (by omega)]
  obtain ⟨h', hset, hseg, hother, hfresh, hfreed⟩ := halloc.redirect hnotin (some h.fresh)
  refine ⟨h', hset, segment_append.mpr ⟨_, hseg, segment_singleton.mpr ⟨rfl, ?_⟩⟩, hfresh, hfreed,
    ?_⟩
  · rw [hother _ (by omega), Heap.alloc_cells, Function.update_self]
  · intro b hb hbf
    rw [hother b hb, Heap.alloc_cells, Function.update_of_ne hbf]

end Segment

/-- The first cell of every value. -/
def firsts [DecidableEq α] (xs : List (ℕ × α)) : List (ℕ × α) :=
  xs.eraseDupsBy fun x y => x.2 = y.2

section Firsts

variable [DecidableEq α]

@[simp] theorem firsts_nil : firsts ([] : List (ℕ × α)) = [] := rfl

theorem firsts_cons (x : ℕ × α) (xs : List (ℕ × α)) :
    firsts (x :: xs) = x :: firsts (xs.filter (·.2 ≠ x.2)) := by
  simp only [firsts, List.eraseDupsBy_cons, decide_eq_false_iff_not]

/-- Induction along `firsts_cons`. -/
theorem firsts_induction {motive : List (ℕ × α) → Prop} (nil : motive [])
    (cons : ∀ x xs, motive (xs.filter (·.2 ≠ x.2)) → motive (x :: xs)) (xs : List (ℕ × α)) :
    motive xs := by
  induction hn : xs.length using Nat.strongRecOn generalizing xs with
  | _ n ih =>
    cases xs with
    | nil => exact nil
    | cons x xs =>
      refine cons x xs (ih _ ?_ _ rfl)
      rw [← hn, List.length_cons]
      exact Nat.lt_succ_of_le (List.length_filter_le _ xs)

theorem firsts_sublist : (firsts xs).Sublist xs := by
  induction xs using firsts_induction with
  | nil => exact List.Sublist.slnil
  | cons x xs ih =>
    rw [firsts_cons]
    exact (ih.trans List.filter_sublist).cons_cons x

theorem mem_values_firsts {v : α} : v ∈ (firsts xs).map Prod.snd ↔ v ∈ xs.map Prod.snd := by
  induction xs using firsts_induction with
  | nil => rfl
  | cons x xs ih =>
    rw [firsts_cons, List.map_cons, List.map_cons, List.mem_cons, List.mem_cons, ih]
    by_cases hv : v = x.2
    · simp only [hv, true_or]
    · simp only [hv, false_or, List.mem_map, List.mem_filter, decide_eq_true_eq]
      constructor
      · rintro ⟨y, ⟨hy, -⟩, rfl⟩
        exact ⟨y, hy, rfl⟩
      · rintro ⟨y, hy, rfl⟩
        exact ⟨y, ⟨hy, hv⟩, rfl⟩

/-- They are the cells that a search for their value meets first. -/
theorem mem_firsts_iff {x : ℕ × α} : x ∈ firsts xs ↔ xs.find? (·.2 = x.2) = some x := by
  induction xs using firsts_induction with
  | nil => simp
  | cons y xs ih =>
    rw [firsts_cons, List.mem_cons, ih, List.find?_filter]
    by_cases hy : y.2 = x.2
    · rw [List.find?_cons_of_pos (by simpa using hy), Option.some.injEq, @eq_comm _ x y]
      refine or_iff_left fun h => ?_
      have hne : x.2 ≠ y.2 := by simpa using List.find?_some h
      exact hne hy.symm
    · rw [List.find?_cons_of_neg (by simpa using hy)]
      have hxy : x ≠ y := fun h => hy (h ▸ rfl)
      have hsame : ∀ z ∈ xs, decide (decide (z.2 ≠ y.2) = true ∧ decide (z.2 = x.2) = true) =
          decide (z.2 = x.2) := by
        intro z _
        by_cases hz : z.2 = x.2
        · simpa [hz] using fun h => hy h.symm
        · simp [hz]
      rw [List.find?_congr hsame, or_iff_right hxy]

theorem nodup_values_firsts : ((firsts xs).map Prod.snd).Nodup := by
  induction xs using firsts_induction with
  | nil => exact List.nodup_nil
  | cons x xs ih =>
    rw [firsts_cons, List.map_cons]
    refine List.nodup_cons.mpr ⟨fun hmem => ?_, ih⟩
    obtain ⟨y, hy, hyx⟩ := List.mem_map.mp (mem_values_firsts.mp hmem)
    exact of_decide_eq_true (List.mem_filter.mp hy).2 hyx

end Firsts

end LinkedList
