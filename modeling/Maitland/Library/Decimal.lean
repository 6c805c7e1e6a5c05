import Mathlib.Algebra.Group.Nat.Defs
import Mathlib.Algebra.Ring.Int.Defs

/-!
# Decimal text

C's `%u` and `%lu` on the one side, Python's `int` of a string and the range
checks of `struct.pack` and `array.array` on the other.
-/

namespace Decimal

abbrev Text := List Char

/-- `%u`, `%lu` -/
def print (n : ℕ) : Text := Nat.toDigits 10 n

def isSpace (c : Char) : Bool :=
  c = ' ' || c = '\t' || c = '\n' || c = '\r' || c = '\x0b' || c = '\x0c'

def strip (s : Text) : Text := ((s.dropWhile isSpace).reverse.dropWhile isSpace).reverse

def digits (s : Text) : Option ℕ :=
  if s ≠ [] ∧ s.all Char.isDigit then some (Nat.ofDigitChars 10 s 0) else none

/-- `int(s)` in base ten; `none` is the `ValueError`. -/
def int (s : Text) : Option ℤ :=
  match strip s with
  | '-' :: ds => (digits ds).map fun n : ℕ => -(n : ℤ)
  | '+' :: ds => (digits ds).map fun n : ℕ => (n : ℤ)
  | ds => (digits ds).map fun n : ℕ => (n : ℤ)

/-- The formats `I` and `L` with their width; `none` is the range error. -/
def pack (w : ℕ) (n : ℤ) : Option (BitVec w) :=
  if 0 ≤ n ∧ n < 2 ^ w then some (BitVec.ofInt w n) else none

theorem print_ne_nil (n : ℕ) : print n ≠ [] := Nat.toDigits_ne_nil

theorem length_print_le_iff (n : ℕ) {k : ℕ} (hk : 0 < k) : (print n).length ≤ k ↔ n < 10 ^ k :=
  Nat.length_toDigits_le_iff (by decide) hk

theorem isDigit_of_mem_print {n : ℕ} {c : Char} (h : c ∈ print n) : c.isDigit = true :=
  Nat.isDigit_of_mem_toDigits (by decide) (by decide) h

theorem not_isSpace_of_isDigit {c : Char} (h : c.isDigit = true) : isSpace c = false := by
  simp only [isSpace, Bool.or_eq_false_iff, decide_eq_false_iff_not]
  refine ⟨⟨⟨⟨⟨?_, ?_⟩, ?_⟩, ?_⟩, ?_⟩, ?_⟩ <;> (rintro rfl; revert h; decide)

/-- Text without blanks is not changed by `strip`. -/
theorem strip_eq_self {s : Text} (h : ∀ c ∈ s, isSpace c = false) : strip s = s := by
  have hd : ∀ t : Text, (∀ c ∈ t, isSpace c = false) → t.dropWhile isSpace = t := by
    intro t ht
    cases t with
    | nil => rfl
    | cons c t => simp [ht c (by simp)]
  rw [strip, hd s h, hd _ (by simpa using h), List.reverse_reverse]

theorem digits_print (n : ℕ) : digits (print n) = some n := by
  have hall : (print n).all Char.isDigit = true :=
    List.all_eq_true.mpr fun c hc => isDigit_of_mem_print hc
  rw [digits, if_pos ⟨print_ne_nil n, hall⟩, print, Nat.ofDigitChars_ten_toDigits]

@[simp] theorem int_print (n : ℕ) : int (print n) = some (n : ℤ) := by
  have hs : strip (print n) = print n :=
    strip_eq_self fun c hc => not_isSpace_of_isDigit (isDigit_of_mem_print hc)
  have hsign : ∀ c ∈ print n, c ≠ '-' ∧ c ≠ '+' := by
    intro c hc
    have hd := isDigit_of_mem_print hc
    constructor <;> (rintro rfl; revert hd; decide)
  unfold int
  rw [hs]
  split
  · next ds h => exact absurd rfl (hsign '-' (by simp [h])).1
  · next ds h => exact absurd rfl (hsign '+' (by simp [h])).2
  · rw [digits_print, Option.map_some]

theorem print_injective : Function.Injective print := by
  intro m n h
  have := congrArg digits h
  rwa [digits_print, digits_print, Option.some.injEq] at this

@[simp] theorem pack_toNat {w : ℕ} (x : BitVec w) : pack w (x.toNat : ℤ) = some x := by
  have hlt : (x.toNat : ℤ) < 2 ^ w := by exact_mod_cast x.isLt
  rw [pack, if_pos ⟨Int.natCast_nonneg _, hlt⟩, BitVec.ofInt_natCast, BitVec.ofNat_toNat,
    BitVec.setWidth_eq]

end Decimal
