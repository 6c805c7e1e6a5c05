import Mathlib.Algebra.Group.Nat.Defs
import Mathlib.Data.Nat.Notation
import Mathlib.Data.List.Basic
import Mathlib.Logic.Function.Basic

/-!
# Bytes in memory

Where a memory holds a list of bytes, and the four-byte numbers in it, lowest byte first.
-/

namespace ByteMemory

abbrev Memory := ℕ → UInt8

/-- The bytes stand one after the other from the address on. -/
def Holds (m : Memory) (a : ℕ) (bs : List UInt8) : Prop :=
  ∀ i < bs.length, bs[i]? = some (m (a + i))

/-- A memory that is zero but for the bytes from the address on. -/
def load (a : ℕ) (bs : List UInt8) : Memory := fun b => if a ≤ b then (bs[b - a]?).getD 0 else 0

theorem holds_load (a : ℕ) (bs : List UInt8) : Holds (load a bs) a bs := by
  intro i hi
  rw [load, if_pos (Nat.le_add_right _ _), Nat.add_sub_cancel_left, List.getElem?_eq_getElem hi]
  rfl

variable {m m' : Memory} {a b : ℕ} {bs cs : List UInt8} {x : UInt8}

theorem holds_nil : Holds m a [] := fun _ h => absurd h (Nat.not_lt_zero _)

theorem holds_append : Holds m a (bs ++ cs) ↔ Holds m a bs ∧ Holds m (a + bs.length) cs := by
  constructor
  · intro h
    constructor
    · intro i hi
      rw [← h i (by rw [List.length_append]; omega), List.getElem?_append_left hi]
    · intro i hi
      rw [Nat.add_assoc, ← h (bs.length + i) (by rw [List.length_append]; omega),
        List.getElem?_append_right (Nat.le_add_right _ _), Nat.add_sub_cancel_left]
  · rintro ⟨hb, hc⟩ i hi
    rw [List.length_append] at hi
    by_cases hlt : i < bs.length
    · rw [List.getElem?_append_left hlt, hb i hlt]
    · rw [List.getElem?_append_right (by omega), hc (i - bs.length) (by omega),
        show a + bs.length + (i - bs.length) = a + i by omega]

theorem holds_singleton : Holds m a [x] ↔ m a = x := by
  constructor
  · intro h
    exact (Option.some.inj (h 0 Nat.one_pos)).symm
  · intro h i hi
    obtain rfl : i = 0 := by simpa using hi
    rw [← h]
    rfl

theorem holds_cons : Holds m a (x :: bs) ↔ m a = x ∧ Holds m (a + 1) bs := by
  rw [← List.singleton_append, holds_append, holds_singleton]
  rfl

theorem Holds.getElem (h : Holds m a bs) {i : ℕ} (hi : bs[i]? = some x) : m (a + i) = x := by
  obtain ⟨hlt, -⟩ := List.getElem?_eq_some_iff.mp hi
  exact Option.some.inj ((h i hlt).symm.trans hi)

theorem Holds.congr (h : Holds m a bs) (heq : ∀ i < bs.length, m (a + i) = m' (a + i)) :
    Holds m' a bs := fun i hi => heq i hi ▸ h i hi

theorem Holds.update (h : Holds m a bs) (hb : b < a ∨ a + bs.length ≤ b) :
    Holds (Function.update m b x) a bs :=
  h.congr fun i hi => (Function.update_of_ne (by omega) _ _).symm

theorem Holds.snoc (h : Holds m a bs) :
    Holds (Function.update m (a + bs.length) x) a (bs ++ [x]) :=
  holds_append.mpr ⟨h.update (.inr (Nat.le_refl _)),
    holds_singleton.mpr (Function.update_self _ _ _)⟩

/-- The number in the four bytes at the address. -/
def dword (m : Memory) (a : ℕ) : ℕ :=
  (m a).toNat + 2 ^ 8 * (m (a + 1)).toNat + 2 ^ 16 * (m (a + 2)).toNat + 2 ^ 24 * (m (a + 3)).toNat

/-- The four bytes of a number. -/
def dwordBytes (n : ℕ) : List UInt8 :=
  [.ofNat n, .ofNat (n / 2 ^ 8), .ofNat (n / 2 ^ 16), .ofNat (n / 2 ^ 24)]

@[simp] theorem length_dwordBytes (n : ℕ) : (dwordBytes n).length = 4 := rfl

theorem dword_of_holds {n : ℕ} (h : Holds m a (dwordBytes n)) (hn : n < 2 ^ 32) :
    dword m a = n := by
  have h0 : m (a + 0) = .ofNat n := h.getElem rfl
  have h1 : m (a + 1) = .ofNat (n / 2 ^ 8) := h.getElem rfl
  have h2 : m (a + 2) = .ofNat (n / 2 ^ 16) := h.getElem rfl
  have h3 : m (a + 3) = .ofNat (n / 2 ^ 24) := h.getElem rfl
  rw [Nat.add_zero] at h0
  simp only [dword, h0, h1, h2, h3, UInt8.toNat_ofNat']
  omega

end ByteMemory
