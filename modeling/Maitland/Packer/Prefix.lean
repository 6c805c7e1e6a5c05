import Mathlib.Algebra.Group.Nat.Defs
import Mathlib.Data.List.Basic
import Mathlib.Data.Nat.Bitwise
import Mathlib.Tactic.Ring
import Maitland.Library.BitStream

/-!
# The prefix codes

Numbers are put as groups of bits with a bit after each that tells whether another group
follows. `code_prefix_ss11` has one bit in a group and `code_prefix_ss12` two, of which the
first stands before the continuation bit.
-/

namespace Maitland.Packer

open BitStream

/-! ### As the compressor puts them -/

/-- `do { t <<= 1; } while (i >= t);` -/
def ss11Up (i : ℕ) : ℕ → ℕ → ℕ
  | 0, t => t
  | n + 1, t =>
    let t := 2 * t % 2 ^ 32
    if t ≤ i then ss11Up i n t else t

/-- `do { t >>= 1; .. } while (t > 2);` -/
def ss11Down (i : ℕ) : ℕ → ℕ → List Item
  | 0, _ => []
  | n + 1, t =>
    let t := t / 2
    [.bit (i &&& t != 0), .bit false] ++ if 2 < t then ss11Down i n t else []

def codePrefixSs11 (i : ℕ) : List Item :=
  (if 2 ≤ i then ss11Down (i + 2) 32 (ss11Up (i + 2) 32 4 / 2) else []) ++
    [.bit (i &&& 1 != 0), .bit true]

/-- `do { i -= t; t <<= 2; } while (i >= t);` -/
def ss12Up : ℕ → ℕ → ℕ → ℕ × ℕ
  | 0, i, t => (i, t)
  | n + 1, i, t =>
    let i := i - t
    let t := 4 * t % 2 ^ 32
    if t ≤ i then ss12Up n i t else (i, t)

/-- `do { t >>= 1; .. t >>= 1; .. } while (t > 2);` -/
def ss12Down (i : ℕ) : ℕ → ℕ → List Item
  | 0, _ => []
  | n + 1, t =>
    let t := t / 2
    let t' := t / 2
    [.bit (i &&& t != 0), .bit false, .bit (i &&& t' != 0)] ++
      if 2 < t' then ss12Down i n t' else []

def codePrefixSs12 (i : ℕ) : List Item :=
  if 2 ≤ i then
    let (i, t) := ss12Up 32 i 2
    ss12Down i 32 t ++ [.bit (i &&& 1 != 0), .bit true]
  else
    [.bit (i &&& 1 != 0), .bit true]

/-! ### As a reader takes them -/

def ss11Items (bs : List Bool) (e : Bool) : List Item :=
  bs.flatMap (fun b => [.bit b, .bit false]) ++ [.bit e, .bit true]

def ss11Value (m : ℕ) (bs : List Bool) (e : Bool) : ℕ :=
  2 * bs.foldl (fun m b => 2 * m + b.toNat) m + e.toNat

def ss12Items (gs : List (Bool × Bool)) (e : Bool) : List Item :=
  gs.flatMap (fun g => [.bit g.1, .bit false, .bit g.2]) ++ [.bit e, .bit true]

def ss12Value (m : ℕ) (gs : List (Bool × Bool)) (e : Bool) : ℕ :=
  2 * gs.foldl (fun m g => 2 * (2 * m + g.1.toNat - 1) + g.2.toNat) m + e.toNat

theorem le_ss11Value (m : ℕ) (bs : List Bool) (e : Bool) : 2 * m ≤ ss11Value m bs e := by
  induction bs generalizing m with
  | nil => exact Nat.le_add_right _ _
  | cons b bs ih =>
    have := ih (2 * m + b.toNat)
    simp only [ss11Value, List.foldl_cons] at this ⊢
    omega

theorem le_ss12Value {m : ℕ} (hm : 0 < m) (gs : List (Bool × Bool)) (e : Bool) :
    2 * m ≤ ss12Value m gs e := by
  induction gs generalizing m with
  | nil => exact Nat.le_add_right _ _
  | cons g gs ih =>
    have := ih (m := 2 * (2 * m + g.1.toNat - 1) + g.2.toNat) (by omega)
    simp only [ss12Value, List.foldl_cons] at this ⊢
    omega

/-! ### The two are the same -/

theorem and_two_pow_ne_zero (i k : ℕ) : (i &&& 2 ^ k != 0) = i.testBit k := by
  rw [Nat.and_two_pow]
  cases i.testBit k <;> simp

theorem toNat_testBit (i k : ℕ) : (i.testBit k).toNat = i / 2 ^ k % 2 := by
  rw [Nat.testBit_eq_decide_div_mod_eq]
  rcases Nat.mod_two_eq_zero_or_one (i / 2 ^ k) with h | h <;> simp [h]

/-- The bits of `i` below the `k + 1`st, the lowest left out. -/
def ss11Bits (i : ℕ) : ℕ → List Bool
  | 0 => []
  | k + 1 => i.testBit (k + 1) :: ss11Bits i k

theorem ss11Down_eq (i k n : ℕ) (hn : k < n) :
    ss11Down i n (2 ^ (k + 2)) =
      (ss11Bits i (k + 1)).flatMap fun b => [.bit b, .bit false] := by
  induction k generalizing n with
  | zero =>
    obtain ⟨n, rfl⟩ := Nat.exists_eq_succ_of_ne_zero (Nat.ne_of_gt hn)
    rw [ss11Down, if_neg (by decide), show 2 ^ (0 + 2) / 2 = 2 ^ 1 from rfl, and_two_pow_ne_zero]
    rfl
  | succ k ih =>
    obtain ⟨n, rfl⟩ := Nat.exists_eq_succ_of_ne_zero (show n ≠ 0 by omega)
    have hdiv : 2 ^ (k + 1 + 2) / 2 = 2 ^ (k + 2) := by rw [Nat.pow_succ]; omega
    have hlt : 2 < 2 ^ (k + 2) := by have := Nat.one_le_two_pow (n := k); rw [Nat.pow_add]; omega
    rw [ss11Down, hdiv, if_pos hlt, and_two_pow_ne_zero, ih n (by omega)]
    rfl

theorem ss11Value_bits (i k m : ℕ) :
    ss11Value m (ss11Bits i k) (i.testBit 0) = 2 ^ (k + 1) * m + i % 2 ^ (k + 1) := by
  induction k generalizing m with
  | zero =>
    simp only [ss11Value, ss11Bits, List.foldl_nil, toNat_testBit]
    omega
  | succ k ih =>
    have := ih (2 * m + (i.testBit (k + 1)).toNat)
    simp only [ss11Value, ss11Bits, List.foldl_cons] at this ⊢
    rw [this, toNat_testBit, Nat.mod_pow_succ (k := k + 1), Nat.pow_succ 2 (k + 1)]
    ring

theorem ss11Up_eq {i j n : ℕ} (hi : i < 2 ^ 31) (hj : 2 ^ j ≤ i) (hn : i < 2 ^ (j + n)) :
    ∃ k, j ≤ k ∧ 2 ^ k ≤ i ∧ i < 2 ^ (k + 1) ∧ ss11Up i n (2 ^ j) = 2 ^ (k + 1) := by
  induction n generalizing j with
  | zero => exact absurd hn (Nat.not_lt.mpr hj)
  | succ n ih =>
    have ht : 2 * 2 ^ j % 2 ^ 32 = 2 ^ (j + 1) := by rw [Nat.pow_succ]; omega
    rw [ss11Up, ht]
    by_cases hle : 2 ^ (j + 1) ≤ i
    · obtain ⟨k, hk, h⟩ := ih hle (by rwa [show j + 1 + n = j + (n + 1) by omega])
      rw [if_pos hle]
      exact ⟨k, by omega, h⟩
    · rw [if_neg hle]
      exact ⟨j, Nat.le_refl _, hj, Nat.not_le.mp hle, rfl⟩

theorem and_one_ne_zero (i : ℕ) : (i &&& 1 != 0) = i.testBit 0 := and_two_pow_ne_zero i 0

/-- A number below `2 ^ 30` is put as bits from which a reader that starts at one gets it back,
two too high. -/
theorem codePrefixSs11_eq {i : ℕ} (hi : i < 2 ^ 30) :
    ∃ bs e, codePrefixSs11 i = ss11Items bs e ∧ ss11Value 1 bs e = i + 2 := by
  rw [codePrefixSs11, and_one_ne_zero]
  by_cases h2 : 2 ≤ i
  · obtain ⟨k, hk, hle, hlt, hup⟩ :=
      ss11Up_eq (i := i + 2) (j := 2) (n := 32) (by omega) (by omega) (by omega)
    obtain ⟨k, rfl⟩ := Nat.exists_eq_add_of_le' hk
    have hhalf : 2 ^ (k + 2 + 1) / 2 = 2 ^ (k + 2) := by rw [Nat.pow_succ]; omega
    have hk32 : k < 32 := by
      by_contra hge
      have := Nat.pow_le_pow_right (n := 2) (by decide) (show 32 ≤ k + 2 by omega)
      omega
    refine ⟨ss11Bits (i + 2) (k + 1), (i + 2).testBit 0, ?_, ?_⟩
    · have hodd : i.testBit 0 = (i + 2).testBit 0 := by
        rw [Nat.testBit_zero, Nat.testBit_zero, Nat.add_mod_right]
      rw [if_pos h2, show (4 : ℕ) = 2 ^ 2 from rfl, hup, hhalf, ss11Down_eq _ _ _ hk32, hodd]
      rfl
    · rw [ss11Value_bits]
      have hmod : (i + 2) % 2 ^ (k + 2) = i + 2 - 2 ^ (k + 2) := by
        rw [Nat.pow_succ] at hlt
        rw [Nat.mod_eq_sub_mod hle, Nat.mod_eq_of_lt (by omega)]
      rw [hmod, Nat.mul_one, Nat.add_sub_cancel' hle]
  · refine ⟨[], i.testBit 0, by rw [if_neg h2]; rfl, ?_⟩
    simp only [ss11Value, List.foldl_nil, toNat_testBit]
    omega

/-- The sum of the first `k` powers of four: what `code_prefix_ss12` takes off, halved. -/
def fourSum : ℕ → ℕ
  | 0 => 0
  | k + 1 => fourSum k + 2 ^ (2 * k)

theorem three_mul_fourSum (k : ℕ) : 3 * fourSum k + 1 = 2 ^ (2 * k) := by
  induction k with
  | zero => rfl
  | succ k ih =>
    rw [fourSum, show 2 * (k + 1) = 2 * k + 2 from rfl, Nat.pow_add]
    omega

/-- The pairs of bits of `i` above the lowest, the highest first. -/
def ss12Bits (i : ℕ) : ℕ → List (Bool × Bool)
  | 0 => []
  | k + 1 => (i.testBit (2 * k + 2), i.testBit (2 * k + 1)) :: ss12Bits i k

@[simp] theorem length_ss12Bits (i k : ℕ) : (ss12Bits i k).length = k := by
  induction k with
  | zero => rfl
  | succ k ih => rw [ss12Bits, List.length_cons, ih]

theorem ss12Down_eq (i k n : ℕ) (hn : k < n) :
    ss12Down i n (2 ^ (2 * k + 3)) =
      (ss12Bits i (k + 1)).flatMap fun g => [.bit g.1, .bit false, .bit g.2] := by
  induction k generalizing n with
  | zero =>
    obtain ⟨n, rfl⟩ := Nat.exists_eq_succ_of_ne_zero (Nat.ne_of_gt hn)
    rw [ss12Down, if_neg (by decide), show 2 ^ (2 * 0 + 3) / 2 = 2 ^ 2 from rfl,
      show 2 ^ 2 / 2 = 2 ^ 1 from rfl, and_two_pow_ne_zero, and_two_pow_ne_zero]
    rfl
  | succ k ih =>
    obtain ⟨n, rfl⟩ := Nat.exists_eq_succ_of_ne_zero (show n ≠ 0 by omega)
    have hdiv : 2 ^ (2 * (k + 1) + 3) / 2 = 2 ^ (2 * (k + 1) + 2) := by rw [Nat.pow_succ]; omega
    have hdiv' : 2 ^ (2 * (k + 1) + 2) / 2 = 2 ^ (2 * (k + 1) + 1) := by rw [Nat.pow_succ]; omega
    have hlt : 2 < 2 ^ (2 * (k + 1) + 1) := by
      have := Nat.one_le_two_pow (n := 2 * k)
      rw [show 2 * (k + 1) + 1 = 2 * k + 3 by omega, Nat.pow_add]
      omega
    rw [ss12Down, hdiv, hdiv', if_pos hlt, and_two_pow_ne_zero, and_two_pow_ne_zero,
      show 2 * (k + 1) + 1 = 2 * k + 3 by omega, ih n (by omega)]
    rfl

theorem ss12Value_bits (i k : ℕ) {m : ℕ} (hm : 0 < m) :
    ss12Value m (ss12Bits i k) (i.testBit 0) + 4 * fourSum k =
      2 ^ (2 * k + 1) * m + i % 2 ^ (2 * k + 1) := by
  induction k generalizing m with
  | zero =>
    simp only [ss12Value, ss12Bits, List.foldl_nil, toNat_testBit, fourSum]
    omega
  | succ k ih =>
    -- two bits more put `m` at `4 * m + d - 2`, where `d` is the number the two bits make
    have hstep : ss12Value m (ss12Bits i (k + 1)) (i.testBit 0) =
        ss12Value (2 * (2 * m + (i.testBit (2 * k + 2)).toNat - 1) +
          (i.testBit (2 * k + 1)).toNat) (ss12Bits i k) (i.testBit 0) := rfl
    have hsub : 2 * (2 * m + (i.testBit (2 * k + 2)).toNat - 1) + (i.testBit (2 * k + 1)).toNat +
        2 = 4 * m + (2 * (i.testBit (2 * k + 2)).toNat + (i.testBit (2 * k + 1)).toNat) := by
      omega
    have hmod : i % 2 ^ (2 * k + 3) = i % 2 ^ (2 * k + 1) + 2 ^ (2 * k + 1) *
        (2 * (i.testBit (2 * k + 2)).toNat + (i.testBit (2 * k + 1)).toNat) := by
      rw [Nat.mod_pow_succ (k := 2 * k + 2), Nat.mod_pow_succ (k := 2 * k + 1), toNat_testBit,
        toNat_testBit, Nat.pow_succ 2 (2 * k + 1)]
      ring
    rw [hstep, fourSum, Nat.mul_add, ← Nat.add_assoc, ih (by omega),
      show 2 * (k + 1) + 1 = 2 * k + 3 by omega, hmod]
    calc 2 ^ (2 * k + 1) * (2 * (2 * m + (i.testBit (2 * k + 2)).toNat - 1) +
            (i.testBit (2 * k + 1)).toNat) + i % 2 ^ (2 * k + 1) + 4 * 2 ^ (2 * k)
        = 2 ^ (2 * k + 1) * (2 * (2 * m + (i.testBit (2 * k + 2)).toNat - 1) +
            (i.testBit (2 * k + 1)).toNat + 2) + i % 2 ^ (2 * k + 1) := by ring
      _ = 2 ^ (2 * k + 1) * (4 * m +
            (2 * (i.testBit (2 * k + 2)).toNat + (i.testBit (2 * k + 1)).toNat)) +
            i % 2 ^ (2 * k + 1) := by rw [hsub]
      _ = _ := by ring

theorem ss12Up_eq {i j n : ℕ} (hi : i < 2 ^ 29) (hj : 2 ^ (2 * j + 1) ≤ i)
    (hn : i < 2 ^ (2 * j + 1 + n)) :
    ∃ k i', j ≤ k ∧ ss12Up n i (2 ^ (2 * j + 1)) = (i', 2 ^ (2 * k + 3)) ∧
      i' < 2 ^ (2 * k + 3) ∧ i + 2 * fourSum j = i' + 2 * fourSum (k + 1) := by
  induction n generalizing i j with
  | zero => exact absurd hn (Nat.not_lt.mpr hj)
  | succ n ih =>
    have ht : 4 * 2 ^ (2 * j + 1) % 2 ^ 32 = 2 ^ (2 * (j + 1) + 1) := by
      rw [show 2 * (j + 1) + 1 = 2 * j + 1 + 2 by omega, Nat.pow_add 2 (2 * j + 1)]
      omega
    have hsum : 2 * fourSum (j + 1) = 2 * fourSum j + 2 ^ (2 * j + 1) := by
      rw [fourSum, Nat.pow_succ]
      omega
    rw [ss12Up, ht]
    by_cases hle : 2 ^ (2 * (j + 1) + 1) ≤ i - 2 ^ (2 * j + 1)
    · have hpow := Nat.pow_le_pow_right (n := 2) (by decide)
        (show 2 * j + 1 + (n + 1) ≤ 2 * (j + 1) + 1 + n by omega)
      obtain ⟨k, i', hk, hup, hlt, heq⟩ := ih (i := i - 2 ^ (2 * j + 1)) (by omega) hle (by omega)
      simp only [if_pos hle]
      exact ⟨k, i', by omega, hup, hlt, by omega⟩
    · simp only [if_neg hle]
      exact ⟨j, i - 2 ^ (2 * j + 1), Nat.le_refl _, rfl, Nat.not_le.mp hle, by omega⟩

/-- As for `code_prefix_ss11`, from one on. Each group takes at least what it stands for off the
number. -/
theorem codePrefixSs12_eq {i : ℕ} (hi : i < 2 ^ 29) :
    ∃ gs e, codePrefixSs12 i = ss12Items gs e ∧ ss12Value 1 gs e = i + 2 ∧
      2 * fourSum gs.length ≤ i := by
  rw [codePrefixSs12]
  by_cases h2 : 2 ≤ i
  · obtain ⟨k, i', -, hup, hlt, heq⟩ :=
      ss12Up_eq (i := i) (j := 0) (n := 32) hi (by omega) (by omega)
    simp only [Nat.mul_zero, Nat.zero_add, Nat.pow_one, fourSum] at hup heq
    have hk32 : k < 32 := by
      by_contra hge
      have := Nat.pow_le_pow_right (n := 2) (by decide) (show 32 ≤ 2 * k by omega)
      omega
    refine ⟨ss12Bits i' (k + 1), i'.testBit 0, ?_, ?_, ?_⟩
    · rw [if_pos h2, hup]
      simp only [ss12Down_eq _ _ _ hk32, and_one_ne_zero]
      rfl
    · have hval := ss12Value_bits i' (k + 1) Nat.one_pos
      have hsum := three_mul_fourSum (k + 1)
      rw [show 2 * (k + 1) + 1 = 2 * k + 3 by omega, Nat.mod_eq_of_lt hlt] at hval
      rw [show 2 * (k + 1) = 2 * k + 2 by omega] at hsum
      have hpow : 2 ^ (2 * k + 3) = 2 * 2 ^ (2 * k + 2) := by rw [Nat.pow_succ]; omega
      simp only [fourSum] at hval hsum heq ⊢
      omega
    · rw [length_ss12Bits, fourSum]
      omega
  · refine ⟨[], i.testBit 0, by rw [if_neg h2, and_one_ne_zero]; rfl, ?_, Nat.zero_le _⟩
    simp only [ss12Value, List.foldl_nil, toNat_testBit]
    omega

end Maitland.Packer
