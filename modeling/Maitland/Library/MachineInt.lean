import Mathlib.Algebra.Group.Nat.Defs
import Mathlib.Data.Nat.Notation

/-!
# Conversions of machine integers

A natural number in the range of an `int` or a `long` is the value of the machine
integer that holds it, also after a sign extension.
-/

namespace MachineInt

theorem toNat_ofNat_of_lt {w n : ℕ} (h : n < 2 ^ w) : (BitVec.ofNat w n).toNat = n := by
  rw [BitVec.toNat_ofNat, Nat.mod_eq_of_lt h]

theorem signExtend_ofNat {n : ℕ} (h : n < 2 ^ 31) :
    (BitVec.ofNat 32 n).signExtend 64 = BitVec.ofNat 64 n := by
  have hmsb : (BitVec.ofNat 32 n).msb = false := by
    rw [BitVec.msb_eq_decide, decide_eq_false_iff_not, BitVec.toNat_ofNat]
    omega
  rw [BitVec.signExtend_eq_setWidth_of_msb_false hmsb]
  apply BitVec.eq_of_toNat_eq
  rw [BitVec.toNat_setWidth, BitVec.toNat_ofNat, BitVec.toNat_ofNat]
  omega

theorem toInt_ofNat_int {n : ℕ} (h : n < 2 ^ 31) : (BitVec.ofNat 32 n).toInt = n := by
  rw [BitVec.toInt_eq_toNat_cond, BitVec.toNat_ofNat]
  omega

theorem toInt_ofNat_long {n : ℕ} (h : n < 2 ^ 63) : (BitVec.ofNat 64 n).toInt = n := by
  rw [BitVec.toInt_eq_toNat_cond, BitVec.toNat_ofNat]
  omega

theorem toNat_signExtend_of_lt {x : BitVec 32} (h : x.toNat < 2 ^ 31) :
    (x.signExtend 64).toNat = x.toNat := by
  have hx := signExtend_ofNat h
  rw [BitVec.ofNat_toNat, BitVec.setWidth_eq] at hx
  rw [hx, BitVec.toNat_ofNat]
  omega

theorem toInt_toNat_le (x : BitVec 32) : x.toInt.toNat ≤ x.toNat ∧ x.toInt.toNat < 2 ^ 31 := by
  have := x.isLt
  rw [BitVec.toInt_eq_toNat_cond]
  omega

theorem toInt_toNat_of_lt {x : BitVec 32} (h : x.toNat < 2 ^ 31) : x.toInt.toNat = x.toNat := by
  rw [BitVec.toInt_eq_toNat_cond]
  omega

theorem toInt_toNat_of_ge {x : BitVec 32} (h : 2 ^ 31 ≤ x.toNat) : x.toInt.toNat = 0 := by
  have := x.isLt
  rw [BitVec.toInt_eq_toNat_cond]
  omega

end MachineInt
