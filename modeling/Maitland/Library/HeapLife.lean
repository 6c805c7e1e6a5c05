import Mathlib.Data.Finset.Range
import Mathlib.Data.Finset.Card
import Mathlib.Data.Finset.Dedup
import Maitland.Library.LinkedList

/-!
# The life of the cells

In a heap that only its own operations have changed, every address handed out is live or was
freed once.
-/

namespace LinkedList.Heap

variable {α : Type*} {h h' : Heap α} {a : ℕ}

def live (h : Heap α) : Finset ℕ := (Finset.range h.fresh).filter fun a => (h.cells a).isSome

@[simp] theorem mem_live : a ∈ h.live ↔ h.cells a ≠ none := by
  rw [live, Finset.mem_filter, Finset.mem_range, Option.isSome_iff_ne_none]
  refine and_iff_right_of_imp fun hne => ?_
  by_contra hge
  exact hne (h.unallocated a (Nat.not_lt.mp hge))

/-- Every address handed out is live or was freed, and none was freed twice. -/
structure Tracked (h : Heap α) : Prop where
  nodup : h.freed.Nodup
  freed_lt : ∀ a ∈ h.freed, a < h.fresh
  cells_iff : ∀ a, h.cells a ≠ none ↔ a < h.fresh ∧ a ∉ h.freed

theorem tracked_empty : (empty : Heap α).Tracked :=
  ⟨List.nodup_nil, fun _ ha => absurd ha List.not_mem_nil,
    fun a => iff_of_false (fun hne => hne rfl) fun hlt => Nat.not_lt_zero a hlt.1⟩

namespace Tracked

theorem alloc (ht : h.Tracked) (v : α) : (h.alloc v).Tracked := by
  refine ⟨ht.nodup, fun b hb => Nat.lt_succ_of_lt (ht.freed_lt b hb), fun b => ?_⟩
  change _ ↔ b < h.fresh + 1 ∧ b ∉ h.freed
  rw [alloc_cells]
  by_cases hb : b = h.fresh
  · subst hb
    rw [Function.update_self]
    exact iff_of_true (Option.some_ne_none _)
      ⟨Nat.lt_succ_self _, fun hmem => Nat.lt_irrefl _ (ht.freed_lt _ hmem)⟩
  · rw [Function.update_of_ne hb, ht.cells_iff b]
    exact and_congr_left fun _ => by omega

theorem setNext (ht : h.Tracked) {p : Option ℕ} (hset : h.setNext a p = some h') :
    h'.Tracked ∧ h'.fresh = h.fresh ∧ h'.freed = h.freed := by
  obtain ⟨c, hc, -⟩ := Option.map_eq_some_iff.mp hset
  obtain ⟨h₁, hset₁, hcells, hfresh, hfreed⟩ := setNext_of_cells hc p
  obtain rfl := Option.some.inj (hset.symm.trans hset₁)
  refine ⟨⟨hfreed ▸ ht.nodup, by rw [hfreed, hfresh]; exact ht.freed_lt, fun b => ?_⟩, hfresh,
    hfreed⟩
  rw [hfresh, hfreed, ← ht.cells_iff b, hcells]
  by_cases hb : b = a
  · subst hb
    rw [Function.update_self, hc]
    exact iff_of_true (Option.some_ne_none _) (Option.some_ne_none _)
  · rw [Function.update_of_ne hb]

theorem free (ht : h.Tracked) (hfree : h.free a = some h') :
    h'.Tracked ∧ h'.fresh = h.fresh ∧ h'.freed = h.freed ++ [a] := by
  obtain ⟨c, hc, -⟩ := Option.map_eq_some_iff.mp hfree
  obtain ⟨h₁, hfree₁, hcells, hfresh, hfreed⟩ := free_of_cells hc
  obtain rfl := Option.some.inj (hfree.symm.trans hfree₁)
  obtain ⟨halt, hanot⟩ := (ht.cells_iff a).mp (hc ▸ Option.some_ne_none c)
  refine ⟨⟨?_, fun b hb => ?_, fun b => ?_⟩, hfresh, hfreed⟩
  · rw [hfreed]
    exact ht.nodup.append (List.nodup_singleton a) (by simpa using hanot)
  · rw [hfreed, List.mem_append, List.mem_singleton] at hb
    rw [hfresh]
    rcases hb with hb | rfl
    · exact ht.freed_lt b hb
    · exact halt
  · rw [hfresh, hfreed, hcells, List.mem_append, List.mem_singleton, not_or, ← and_assoc,
      ← ht.cells_iff b]
    by_cases hb : b = a
    · subst hb
      rw [Function.update_self]
      exact iff_of_false (fun hne => hne rfl) fun hne => hne.2 rfl
    · rw [Function.update_of_ne hb]
      exact (and_iff_left hb).symm

theorem live_eq (ht : h.Tracked) (ht' : h'.Tracked) {n : ℕ} {gone kept : List ℕ}
    (hfresh : h'.fresh = h.fresh + n) (hfreed : h'.freed = h.freed ++ gone)
    (hperm : (gone ++ kept).Perm (List.range' h.fresh n)) :
    h'.live = h.live ∪ kept.toFinset := by
  have hnodup := hperm.nodup_iff.mpr List.nodup_range'
  obtain ⟨-, -, hdisj⟩ := List.nodup_append.mp hnodup
  ext b
  have hmem := hperm.mem_iff (a := b)
  rw [List.mem_append, List.mem_range'_1] at hmem
  rw [Finset.mem_union, List.mem_toFinset, mem_live, mem_live, ht'.cells_iff, ht.cells_iff, hfresh,
    hfreed, List.mem_append, not_or]
  constructor
  · rintro ⟨hlt, hold, hgone⟩
    by_cases hb : b < h.fresh
    · exact .inl ⟨hb, hold⟩
    · exact .inr ((hmem.mpr ⟨by omega, hlt⟩).resolve_left hgone)
  · rintro (⟨hlt, hold⟩ | hkept)
    · exact ⟨by omega, hold, fun hgone => by have := hmem.mp (.inl hgone); omega⟩
    · have hin := hmem.mp (.inr hkept)
      exact ⟨hin.2, fun hold => by have := ht.freed_lt b hold; omega,
        fun hgone => hdisj b hgone b hkept rfl⟩

/-- Of the addresses that were handed out since, those not freed are live as well. -/
theorem card_live (ht : h.Tracked) (ht' : h'.Tracked) {n : ℕ} {gone kept : List ℕ}
    (hfresh : h'.fresh = h.fresh + n) (hfreed : h'.freed = h.freed ++ gone)
    (hperm : (gone ++ kept).Perm (List.range' h.fresh n)) :
    h'.live.card = h.live.card + kept.length := by
  have hnodup := hperm.nodup_iff.mpr List.nodup_range'
  obtain ⟨-, hkept, -⟩ := List.nodup_append.mp hnodup
  rw [ht.live_eq ht' hfresh hfreed hperm, Finset.card_union_of_disjoint,
    List.toFinset_card_of_nodup hkept]
  refine Finset.disjoint_left.mpr fun b hb hmem => ?_
  have hin := hperm.mem_iff.mp (List.mem_append_right gone (List.mem_toFinset.mp hmem))
  rw [List.mem_range'_1] at hin
  rw [mem_live, ht.cells_iff] at hb
  omega

end Tracked

end LinkedList.Heap
