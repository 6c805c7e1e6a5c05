import Mathlib.Data.List.Basic
import Mathlib.Logic.Function.Basic

/-!
# Sliding windows over a text

A circular buffer of `n + f` cells holds the last `n` elements of a text before a position and
the next `f` from it on.  Its first `f` cells are kept a second time behind its end, so that what
starts in the buffer can be read on past the end.  Hash chains lead through the positions in the
window that have the same key, the latest first, and a table without chains has the latest of them.
-/

namespace SlidingWindow

-- ════════════════════════════════════════════════════════════════════════
-- The buffer
-- ════════════════════════════════════════════════════════════════════════

/-- Positions less than one turn apart never share a cell. -/
theorem mod_ne_mod {size i j : ℕ} (hlt : i < j) (hnear : j < i + size) : i % size ≠ j % size := by
  intro h
  have hdvd : size ∣ j - i := Nat.dvd_of_mod_eq_zero (Nat.sub_mod_eq_zero_of_mod_eq h.symm)
  have := Nat.le_of_dvd (by omega) hdvd
  omega

/-- A cell further on, before the end of the buffer or behind it. -/
theorem add_mod_cases {size k : ℕ} (i : ℕ) (hsize : 0 < size) (hk : k ≤ size) :
    i % size + k < size ∧ (i + k) % size = i % size + k ∨
      size ≤ i % size + k ∧ i % size + k = size + (i + k) % size := by
  have hlt := Nat.mod_lt i hsize
  have heq : (i % size + k) % size = (i + k) % size := Nat.mod_add_mod i size k
  by_cases h : i % size + k < size
  · exact .inl ⟨h, heq.symm.trans (Nat.mod_eq_of_lt h)⟩
  · have hge : size ≤ i % size + k := Nat.not_lt.mp h
    have hsub : (i % size + k) % size = i % size + k - size := by
      rw [Nat.mod_eq_sub_mod hge]
      exact Nat.mod_eq_of_lt (by omega)
    exact .inr ⟨hge, by omega⟩

section Buffer

variable {α : Type*} {n f : ℕ} {b : ℕ → α} {text : List α} {pos : ℕ}

/-- The cells that the window and the elements ahead of it are in, and their second copies. -/
structure Buffered (n f : ℕ) (b : ℕ → α) (text : List α) (pos : ℕ) : Prop where
  cell : ∀ j x, text[j]? = some x → pos ≤ j + n → j < pos + f → b (j % (n + f)) = x
  copy : ∀ j x, text[j]? = some x → pos ≤ j + n → j < pos + f → n + f ≤ j → j % (n + f) < f →
    b (n + f + j % (n + f)) = x

/-- From a position in the window the text can be read on. -/
theorem Buffered.read (h : Buffered n f b text pos) {j i : ℕ} {x : α} (hx : text[j + i]? = some x)
    (hlo : pos ≤ j + n) (hhi : j + i < pos + f) (hi : i ≤ f) : b (j % (n + f) + i) = x := by
  have hmod := Nat.mod_lt j (show 0 < n + f by omega)
  rcases add_mod_cases j (show 0 < n + f by omega) (show i ≤ n + f by omega) with
    ⟨-, heq⟩ | ⟨hge, heq⟩
  · rw [← heq]
    exact h.cell (j + i) x hx (by omega) hhi
  · -- The end of the buffer lies between the two.
    have hturn : n + f ≤ j + i := by
      have := Nat.mod_le j (n + f)
      omega
    rw [heq]
    exact h.copy (j + i) x hx (by omega) hhi hturn (by omega)

/-- At the end of the text there is nothing more to read in. -/
theorem Buffered.skip (h : Buffered n f b text pos) (hend : text.length ≤ pos + f) :
    Buffered n f b text (pos + 1) := by
  constructor
  · intro j x hx hlo hhi
    obtain ⟨hlt, -⟩ := List.getElem?_eq_some_iff.mp hx
    exact h.cell j x hx (by omega) (by omega)
  · intro j x hx hlo hhi
    obtain ⟨hlt, -⟩ := List.getElem?_eq_some_iff.mp hx
    exact h.copy j x hx (by omega) (by omega)

/-- The next element is written, twice where the buffer begins. -/
theorem Buffered.write (h : Buffered n f b text pos) {x : α} (hx : text[pos + f]? = some x)
    {b' : ℕ → α} (hcell : b' ((pos + f) % (n + f)) = x)
    (hcopy : (pos + f) % (n + f) < f → b' (n + f + (pos + f) % (n + f)) = x)
    (hother : ∀ i, i ≠ (pos + f) % (n + f) → i ≠ n + f + (pos + f) % (n + f) → b' i = b i) :
    Buffered n f b' text (pos + 1) := by
  have hne (j : ℕ) (hlo : pos + 1 ≤ j + n) (hlt : j < pos + f) :
      j % (n + f) ≠ (pos + f) % (n + f) := mod_ne_mod hlt (by omega)
  constructor
  · intro j y hy hlo hhi
    rcases Nat.lt_succ_iff_lt_or_eq.mp (show j < pos + f + 1 by omega) with hlt | rfl
    · have hmod := Nat.mod_lt j (show 0 < n + f by omega)
      rw [hother _ (hne j hlo hlt) (by omega)]
      exact h.cell j y hy (by omega) hlt
    · rw [hcell]
      exact Option.some.inj (hx.symm.trans hy)
  · intro j y hy hlo hhi hturn hlow
    rcases Nat.lt_succ_iff_lt_or_eq.mp (show j < pos + f + 1 by omega) with hlt | rfl
    · have hmod := Nat.mod_lt (pos + f) (show 0 < n + f by omega)
      have := hne j hlo hlt
      rw [hother _ (by omega) (by omega)]
      exact h.copy j y hy (by omega) hlt hturn hlow
    · rw [hcopy hlow]
      exact Option.some.inj (hx.symm.trans hy)

/-- The first `f` elements are read in at the beginning. -/
theorem buffered_zero (n : ℕ) (hload : ∀ j x, text[j]? = some x → j < f → b j = x) :
    Buffered n f b text 0 := by
  constructor
  · intro j x hx _ hhi
    rw [Nat.mod_eq_of_lt (by omega)]
    exact hload j x hx (by omega)
  · intro j x _ _ hhi hturn
    omega

end Buffer

-- ════════════════════════════════════════════════════════════════════════
-- Comparing two places
-- ════════════════════════════════════════════════════════════════════════

section Agree

variable {α β : Type*} [DecidableEq α] [DecidableEq β] {b : ℕ → α} {b' : ℕ → β}
  {p q p' q' n m i k : ℕ}

/-- Where two places first differ, from the `i`-th element on and `n` elements on at most. -/
def agree (b : ℕ → α) (p q : ℕ) : ℕ → ℕ → ℕ
  | 0, i => i
  | n + 1, i => if b (p + i) = b (q + i) then agree b p q n (i + 1) else i

theorem agree_le (n i : ℕ) : agree b p q n i ≤ i + n := by
  induction n generalizing i with
  | zero => exact Nat.le_refl _
  | succ n ih =>
    rw [agree]
    split_ifs
    · have := ih (i + 1)
      omega
    · omega

theorem eq_of_lt_agree (hi : i ≤ k) (hk : k < agree b p q n i) : b (p + k) = b (q + k) := by
  induction n generalizing i with
  | zero => exact absurd hi (Nat.not_le.mpr hk)
  | succ n ih =>
    rw [agree] at hk
    split_ifs at hk with heq
    · rcases Nat.eq_or_lt_of_le hi with rfl | hlt
      · exact heq
      · exact ih hlt hk
    · exact absurd hi (Nat.not_le.mpr hk)

theorem agree_le_of_ne (hi : i ≤ k) (hne : b (p + k) ≠ b (q + k)) : agree b p q n i ≤ k :=
  Nat.not_lt.mp fun hk => hne (eq_of_lt_agree hi hk)

/-- What is known to agree need not be compared. -/
theorem agree_skip (h : ∀ k, i ≤ k → k < i + m → b (p + k) = b (q + k)) :
    agree b p q (m + n) i = agree b p q n (i + m) := by
  induction m generalizing i with
  | zero => rw [Nat.zero_add, Nat.add_zero]
  | succ m ih =>
    rw [show m + 1 + n = m + n + 1 by omega, agree, if_pos (h i (Nat.le_refl _) (by omega)),
      ih fun k hk hlt => h k (by omega) (by omega), show i + 1 + m = i + (m + 1) by omega]

theorem agree_congr (h : ∀ k, i ≤ k → k < i + n →
    (b (p + k) = b (q + k) ↔ b' (p' + k) = b' (q' + k))) :
    agree b p q n i = agree b' p' q' n i := by
  induction n generalizing i with
  | zero => rfl
  | succ n ih =>
    rw [agree, agree, ih fun k hk hlt => h k (by omega) (by omega)]
    exact if_congr (h i (Nat.le_refl _) (by omega)) rfl rfl

end Agree

-- ════════════════════════════════════════════════════════════════════════
-- The chains
-- ════════════════════════════════════════════════════════════════════════

/-- The positions from `lo` on and before `pos` with the key, the latest first. -/
def positions {κ : Type*} [DecidableEq κ] (key : ℕ → κ) (k : κ) (lo pos : ℕ) : List ℕ :=
  ((List.range' lo (pos - lo)).filter fun j => key j = k).reverse

/-- The links lead from a cell through the cells of the positions. -/
def Linked (size : ℕ) (succ : ℕ → ℕ) : ℕ → List ℕ → Prop
  | _, [] => True
  | node, j :: js => node = j % size ∧ Linked size succ (succ node) js

/-- For every key the chain from its head leads through the positions that have it, and there is
a count of them. -/
structure Chained {κ : Type*} [DecidableEq κ] (size : ℕ) (key : ℕ → κ) (head : κ → ℕ)
    (succ : ℕ → ℕ) (count : κ → ℕ) (lo pos : ℕ) : Prop where
  linked : ∀ k, Linked size succ (head k) (positions key k lo pos)
  count : ∀ k, count k = (positions key k lo pos).length

/-- The table has the cell of the latest position with the key, or `nil`. -/
def Latest {κ : Type*} [DecidableEq κ] (size nil : ℕ) (key : ℕ → κ) (head : κ → ℕ)
    (lo pos : ℕ) : Prop :=
  ∀ k, head k = ((positions key k lo pos).head?.map (· % size)).getD nil

section Chains

variable {size node i v : ℕ} {succ : ℕ → ℕ} {js ks : List ℕ}

theorem Linked.update (h : Linked size succ node js) (hne : ∀ j ∈ js, j % size ≠ i) :
    Linked size (Function.update succ i v) node js := by
  induction js generalizing node with
  | nil => trivial
  | cons j js ih =>
    obtain ⟨rfl, hrest⟩ := h
    refine ⟨rfl, ?_⟩
    rw [Function.update_of_ne (hne j List.mem_cons_self)]
    exact ih hrest fun j' hj' => hne j' (List.mem_cons_of_mem _ hj')

theorem Linked.of_append (h : Linked size succ node (js ++ ks)) : Linked size succ node js := by
  induction js generalizing node with
  | nil => trivial
  | cons j js ih => exact ⟨h.1, ih h.2⟩

variable {κ : Type*} [DecidableEq κ] {key : ℕ → κ} {k : κ} {lo pos j : ℕ}

@[simp] theorem mem_positions : j ∈ positions key k lo pos ↔ lo ≤ j ∧ j < pos ∧ key j = k := by
  rw [positions, List.mem_reverse, List.mem_filter, List.mem_range'_1, decide_eq_true_eq]
  constructor
  · rintro ⟨⟨hlo, hhi⟩, hk⟩
    exact ⟨hlo, by omega, hk⟩
  · rintro ⟨hlo, hhi, hk⟩
    exact ⟨⟨hlo, by omega⟩, hk⟩

@[simp] theorem positions_self : positions key k lo lo = [] := by
  rw [positions, Nat.sub_self]
  rfl

theorem positions_succ (hle : lo ≤ pos) : positions key k lo (pos + 1) =
    if key pos = k then pos :: positions key k lo pos else positions key k lo pos := by
  rw [positions, show pos + 1 - lo = pos - lo + 1 by omega, List.range'_1_concat,
    show lo + (pos - lo) = pos by omega, List.filter_append, List.reverse_append]
  by_cases h : key pos = k
  · rw [if_pos h, List.filter_cons_of_pos (by simpa using h)]
    rfl
  · rw [if_neg h, List.filter_cons_of_neg (by simpa using h)]
    rfl

theorem positions_drop (hlt : lo < pos) : positions key k lo pos =
    positions key k (lo + 1) pos ++ if key lo = k then [lo] else [] := by
  rw [positions, show pos - lo = pos - (lo + 1) + 1 by omega, List.range'_succ]
  by_cases h : key lo = k
  · rw [if_pos h, List.filter_cons_of_pos (by simpa using h), List.reverse_cons]
    rfl
  · rw [if_neg h, List.filter_cons_of_neg (by simpa using h), List.append_nil]
    rfl

variable {head : κ → ℕ} {count : κ → ℕ}

theorem chained_start (size : ℕ) (key : ℕ → κ) (head : κ → ℕ) (succ : ℕ → ℕ) (lo : ℕ) :
    Chained size key head succ (fun _ => 0) lo lo where
  linked k := by
    rw [positions_self]
    trivial
  count k := by
    rw [positions_self]
    rfl

/-- The next position becomes the head of the chain of its key. -/
theorem Chained.insert (h : Chained size key head succ count lo pos) (hle : lo ≤ pos)
    (hnear : pos < lo + size) :
    Chained size key (Function.update head (key pos) (pos % size))
      (Function.update succ (pos % size) (head (key pos)))
      (Function.update count (key pos) (count (key pos) + 1)) lo (pos + 1) := by
  have hkeep (k : κ) : Linked size (Function.update succ (pos % size) (head (key pos))) (head k)
      (positions key k lo pos) := by
    refine (h.linked k).update fun j hj => ?_
    obtain ⟨hlo, hlt, -⟩ := mem_positions.mp hj
    exact mod_ne_mod hlt (by omega)
  constructor
  · intro k
    rw [positions_succ hle]
    by_cases hk : key pos = k
    · subst hk
      rw [if_pos rfl, Function.update_self]
      refine ⟨rfl, ?_⟩
      rw [Function.update_self]
      exact hkeep _
    · rw [if_neg hk, Function.update_of_ne (Ne.symm hk)]
      exact hkeep k
  · intro k
    rw [positions_succ hle]
    by_cases hk : key pos = k
    · subst hk
      rw [if_pos rfl, Function.update_self, List.length_cons, h.count]
    · rw [if_neg hk, Function.update_of_ne (Ne.symm hk), h.count]

/-- The oldest position leaves the chain of its key. -/
theorem Chained.drop (h : Chained size key head succ count lo pos) (hlt : lo < pos) :
    Chained size key head succ (Function.update count (key lo) (count (key lo) - 1)) (lo + 1)
      pos := by
  constructor
  · intro k
    have hk := h.linked k
    rw [positions_drop hlt] at hk
    exact hk.of_append
  · intro k
    have hcount := h.count k
    rw [positions_drop hlt, List.length_append] at hcount
    by_cases hk : key lo = k
    · subst hk
      rw [if_pos rfl, List.length_singleton] at hcount
      rw [Function.update_self, hcount, Nat.add_sub_cancel]
    · rw [if_neg hk] at hcount
      rw [Function.update_of_ne (Ne.symm hk), hcount]
      rfl

variable {nil : ℕ}

theorem latest_start (size nil : ℕ) (key : ℕ → κ) (lo : ℕ) :
    Latest size nil key (fun _ => nil) lo lo := by
  intro k
  rw [positions_self]
  rfl

/-- The next position is the latest with its key. -/
theorem Latest.insert (h : Latest size nil key head lo pos) (hle : lo ≤ pos) :
    Latest size nil key (Function.update head (key pos) (pos % size)) lo (pos + 1) := by
  intro k
  rw [positions_succ hle]
  by_cases hk : key pos = k
  · subst hk
    rw [if_pos rfl, Function.update_self]
    rfl
  · rw [if_neg hk, Function.update_of_ne (Ne.symm hk), h k]

/-- The oldest position is taken out of the table if it is still in it. -/
theorem Latest.drop (h : Latest size nil key head lo pos) (hlt : lo < pos)
    (hnear : pos ≤ lo + size) :
    Latest size nil key
      (if head (key lo) = lo % size then Function.update head (key lo) nil else head)
      (lo + 1) pos := by
  have hhead := h (key lo)
  rw [positions_drop hlt, if_pos rfl] at hhead
  have hother (k : κ) (hk : key lo ≠ k) :
      head k = ((positions key k (lo + 1) pos).head?.map (· % size)).getD nil := by
    rw [h k, positions_drop hlt, if_neg hk, List.append_nil]
  cases hps : positions key (key lo) (lo + 1) pos with
  | nil =>
    rw [hps] at hhead
    rw [if_pos (show head (key lo) = lo % size from hhead)]
    intro k
    by_cases hk : key lo = k
    · subst hk
      rw [Function.update_self, hps]
      rfl
    · rw [Function.update_of_ne (Ne.symm hk), hother k hk]
  | cons j js =>
    have hj : j ∈ positions key (key lo) (lo + 1) pos := hps ▸ List.mem_cons_self
    obtain ⟨hlo, hhi, -⟩ := mem_positions.mp hj
    rw [hps] at hhead
    have hne : head (key lo) ≠ lo % size := by
      rw [show head (key lo) = j % size from hhead]
      exact (mod_ne_mod hlo (by omega)).symm
    rw [if_neg hne]
    intro k
    by_cases hk : key lo = k
    · subst hk
      rw [hps]
      exact hhead
    · exact hother k hk

end Chains

end SlidingWindow
