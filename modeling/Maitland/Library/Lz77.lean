import Mathlib.Data.List.Basic

/-!
# Texts as literals and copies of what came before

A parse of a text writes it as literals and as copies that go back a distance. Whatever parse
covers the text expands to it, also where a copy reads what it has just written.
-/

namespace Lz77

variable {α : Type*}

inductive Token (α : Type*) where
  | literal (a : α)
  | copy (off len : ℕ)
  deriving DecidableEq, Repr

/-- One element at a time, so that a copy may overlap with what it reads. -/
def copyBack (off : ℕ) : ℕ → List α → Option (List α)
  | 0, out => some out
  | n + 1, out =>
    if 0 < off ∧ off ≤ out.length then
      (out[out.length - off]?).bind fun a => copyBack off n (out ++ [a])
    else none

def expand : List (Token α) → List α → Option (List α)
  | [], out => some out
  | .literal a :: ts, out => expand ts (out ++ [a])
  | .copy off len :: ts, out => (copyBack off len out).bind (expand ts)

theorem length_copyBack {off n : ℕ} {out out' : List α} (h : copyBack off n out = some out') :
    out'.length = out.length + n := by
  induction n generalizing out with
  | zero =>
    obtain rfl : out = out' := Option.some.inj h
    rfl
  | succ n ih =>
    rw [copyBack] at h
    by_cases hoff : 0 < off ∧ off ≤ out.length
    · rw [if_pos hoff] at h
      obtain ⟨a, -, hrest⟩ := Option.bind_eq_some_iff.mp h
      rw [ih hrest, List.length_append, List.length_singleton]
      omega
    · rw [if_neg hoff] at h
      cases h

theorem off_of_copyBack {off n : ℕ} {out out' : List α} (h : copyBack off n out = some out')
    (hn : 0 < n) : 0 < off ∧ off ≤ out.length := by
  obtain ⟨n, rfl⟩ := Nat.exists_eq_succ_of_ne_zero (Nat.ne_of_gt hn)
  by_contra hoff
  rw [copyBack, if_neg hoff] at h
  cases h

theorem length_le_of_expand {ts : List (Token α)} {out out' : List α}
    (h : expand ts out = some out') : out.length ≤ out'.length := by
  induction ts generalizing out with
  | nil =>
    obtain rfl : out = out' := Option.some.inj h
    exact Nat.le_refl _
  | cons t ts ih =>
    cases t with
    | literal a =>
      have := ih h
      rw [List.length_append] at this
      omega
    | copy off len =>
      obtain ⟨mid, hcopy, hrest⟩ := Option.bind_eq_some_iff.mp h
      have := ih hrest
      rw [length_copyBack hcopy] at this
      omega

/-- The `len` elements at `pos` are those that stand `off` before them. -/
structure Repeats (text : List α) (pos off len : ℕ) : Prop where
  off_pos : 0 < off
  off_le : off ≤ pos
  le_length : pos + len ≤ text.length
  eq : ∀ i < len, text[pos + i]? = text[pos + i - off]?

instance [DecidableEq α] (text : List α) (pos off len : ℕ) : Decidable (Repeats text pos off len) :=
  decidable_of_iff (0 < off ∧ off ≤ pos ∧ pos + len ≤ text.length ∧
      ∀ i < len, text[pos + i]? = text[pos + i - off]?)
    ⟨fun h => ⟨h.1, h.2.1, h.2.2.1, h.2.2.2⟩, fun h => ⟨h.off_pos, h.off_le, h.le_length, h.eq⟩⟩

/-- The tokens are a parse of the text from `pos` on. -/
def Covers (text : List α) : ℕ → List (Token α) → Prop
  | pos, [] => pos = text.length
  | pos, .literal a :: ts => text[pos]? = some a ∧ Covers text (pos + 1) ts
  | pos, .copy off len :: ts => Repeats text pos off len ∧ Covers text (pos + len) ts

variable {text : List α} {pos off len n : ℕ}

theorem Repeats.tail (h : Repeats text pos off (n + 1)) : Repeats text (pos + 1) off n where
  off_pos := h.off_pos
  off_le := Nat.le_succ_of_le h.off_le
  le_length := by have := h.le_length; omega
  eq i hi := by
    have := h.eq (i + 1) (Nat.succ_lt_succ hi)
    rwa [show pos + (i + 1) = pos + 1 + i by omega] at this

theorem take_append_of_getElem? {a : α} (h : text[pos]? = some a) :
    text.take pos ++ [a] = text.take (pos + 1) := by
  rw [List.take_add_one, h]
  rfl

/-- A copy that is genuine extends a prefix of the text to a longer one. -/
theorem copyBack_take (h : Repeats text pos off len) :
    copyBack off len (text.take pos) = some (text.take (pos + len)) := by
  induction len generalizing pos with
  | zero => rfl
  | succ n ih =>
    have hlt : pos < text.length := by have := h.le_length; omega
    have hlen : (text.take pos).length = pos := List.length_take_of_le (Nat.le_of_lt hlt)
    have hget : text[pos]? = some text[pos] := List.getElem?_eq_getElem hlt
    have hback : (text.take pos)[pos - off]? = some text[pos] := by
      rw [List.getElem?_take_of_lt (by have := h.off_pos; have := h.off_le; omega), ← hget]
      exact (h.eq 0 n.succ_pos).symm
    rw [copyBack, hlen, if_pos ⟨h.off_pos, h.off_le⟩, hback, Option.bind_some,
      take_append_of_getElem? hget, ih h.tail, Nat.add_assoc, Nat.add_comm 1]

theorem expand_of_covers {ts : List (Token α)} (h : Covers text pos ts) :
    expand ts (text.take pos) = some text := by
  induction ts generalizing pos with
  | nil => rw [expand, show pos = text.length from h, List.take_length]
  | cons t ts ih =>
    cases t with
    | literal a => rw [expand, take_append_of_getElem? h.1, ih h.2]
    | copy off len => rw [expand, copyBack_take h.1, Option.bind_some, ih h.2]

end Lz77
