import Mathlib.Data.List.Basic
import Mathlib.Logic.Function.Basic
import Mathlib.Tactic.Ring

/-!
# Shared rings

The ring macros of Xen's io/ring.h over an arbitrary slot type.  A ring has
`2 ^ log` slots, requests and responses share them, and the four producer and
consumer counters run modulo `2 ^ 32`.

`Holds` is the queue view: the slots from a counter on hold a list of messages.
-/

namespace Ring

/-- `RING_IDX` -/
abbrev Idx := BitVec 32

structure Size where
  log : ℕ
  log_lt : log < 32

def Size.entries (z : Size) : ℕ := 2 ^ z.log

theorem Size.entries_pos (z : Size) : 0 < z.entries := Nat.two_pow_pos _

theorem Size.entries_dvd (z : Size) : z.entries ∣ 2 ^ 32 :=
  Nat.pow_dvd_pow 2 (Nat.le_of_lt z.log_lt)

theorem Size.entries_lt (z : Size) : z.entries < 2 ^ 32 :=
  Nat.pow_lt_pow_right (by omega) z.log_lt

structure Shared (α : Type*) where
  reqProd : Idx
  reqEvent : Idx
  rspProd : Idx
  rspEvent : Idx
  ring : ℕ → α

structure Front where
  reqProdPvt : Idx
  rspCons : Idx
  deriving DecidableEq

@[ext] structure Back where
  rspProdPvt : Idx
  reqCons : Idx
  deriving DecidableEq

variable {α : Type*} (z : Size)

/-- `SHARED_RING_INIT` leaves the slots as they were. -/
def sharedRingInit (ring : ℕ → α) : Shared α := ⟨0, 1, 0, 1, ring⟩

/-- `FRONT_RING_INIT` -/
def frontRingInit : Front := ⟨0, 0⟩

/-- `BACK_RING_INIT` -/
def backRingInit : Back := ⟨0, 0⟩

/-- `_idx & (RING_SIZE(_r) - 1)` -/
def slot (i : Idx) : ℕ := (i &&& BitVec.ofNat 32 (z.entries - 1)).toNat

/-- `RING_GET_REQUEST` and `RING_GET_RESPONSE` name the same slot. -/
def Shared.get (s : Shared α) (i : Idx) : α := s.ring (slot z i)

def Shared.put (s : Shared α) (i : Idx) (v : α) : Shared α :=
  { s with ring := Function.update s.ring (slot z i) v }

/-- `RING_REQUEST_CONS_OVERFLOW` -/
def RequestConsOverflow (b : Back) (c : Idx) : Prop :=
  z.entries ≤ (c - b.rspProdPvt).toNat

instance (b : Back) (c : Idx) : Decidable (RequestConsOverflow z b c) :=
  inferInstanceAs (Decidable (_ ≤ _))

/-- `RING_PUSH_REQUESTS` -/
def pushRequests (s : Shared α) (f : Front) : Shared α := { s with reqProd := f.reqProdPvt }

/-- `RING_PUSH_RESPONSES` -/
def pushResponses (s : Shared α) (b : Back) : Shared α := { s with rspProd := b.rspProdPvt }

/-- `RING_PUSH_RESPONSES_AND_CHECK_NOTIFY` -/
def pushResponsesAndCheckNotify (s : Shared α) (b : Back) : Shared α × Bool :=
  (pushResponses s b,
    decide ((b.rspProdPvt - s.rspEvent).toNat < (b.rspProdPvt - s.rspProd).toNat))

/-- `RING_HAS_UNCONSUMED_RESPONSES` -/
def hasUnconsumedResponses (s : Shared α) (f : Front) : Bool := s.rspProd - f.rspCons != 0

/-- The store of `RING_FINAL_CHECK_FOR_RESPONSES` between its two tests of
`RING_HAS_UNCONSUMED_RESPONSES`. -/
def awaitResponses (s : Shared α) (f : Front) : Shared α := { s with rspEvent := f.rspCons + 1 }

theorem slot_eq (i : Idx) : slot z i = i.toNat % z.entries := by
  have hm : (z.entries - 1) % 2 ^ 32 = z.entries - 1 :=
    Nat.mod_eq_of_lt (by have := z.entries_lt; omega)
  rw [slot, BitVec.toNat_and, BitVec.toNat_ofNat, hm, Size.entries,
    Nat.and_two_pow_sub_one_eq_mod]

@[simp] theorem slot_ofNat (n : ℕ) : slot z (BitVec.ofNat 32 n) = n % z.entries := by
  rw [slot_eq, BitVec.toNat_ofNat, Nat.mod_mod_of_dvd _ z.entries_dvd]

theorem ofNat_succ (n : ℕ) : BitVec.ofNat 32 n + 1 = BitVec.ofNat 32 (n + 1) := by
  simp [BitVec.ofNat_add]

/-- Counters less than `2 ^ 32` apart have their true distance. -/
theorem toNat_sub_ofNat {a b : ℕ} (hle : a ≤ b) (hlt : b - a < 2 ^ 32) :
    (BitVec.ofNat 32 b - BitVec.ofNat 32 a).toNat = b - a := by
  obtain ⟨d, rfl⟩ := Nat.exists_eq_add_of_le hle
  rw [Nat.add_sub_cancel_left] at hlt ⊢
  rw [BitVec.ofNat_add, BitVec.add_comm, BitVec.add_sub_cancel, BitVec.toNat_ofNat,
    Nat.mod_eq_of_lt hlt]

/-- Counters less than `2 ^ 32` apart are equal as indices only when they are equal. -/
theorem ofNat_inj_of_near {a b : ℕ} (hle : a ≤ b) (hlt : b - a < 2 ^ 32)
    (h : BitVec.ofNat 32 a = BitVec.ofNat 32 b) : a = b := by
  have hd := toNat_sub_ofNat hle hlt
  rw [h, BitVec.sub_self] at hd
  simp only [BitVec.toNat_ofNat, Nat.zero_mod] at hd
  omega

/-- Counters within one turn of the ring never share a slot. -/
theorem mod_entries_ne {a b : ℕ} (hlt : a < b) (hb : b < a + z.entries) :
    a % z.entries ≠ b % z.entries := by
  intro h
  have hd : z.entries ∣ b - a := Nat.dvd_of_mod_eq_zero (Nat.sub_mod_eq_zero_of_mod_eq h.symm)
  have := Nat.le_of_dvd (by omega) hd
  omega

/-- From counter `base` on the slots hold the messages `xs`. -/
def Holds (ring : ℕ → α) (base : ℕ) (xs : List α) : Prop :=
  ∀ k v, xs[k]? = some v → ring ((base + k) % z.entries) = v

variable {z}

theorem Holds.nil (ring : ℕ → α) (base : ℕ) : Holds z ring base [] := by
  intro k v h
  simp at h

theorem Holds.head {ring : ℕ → α} {base : ℕ} {x : α} {xs : List α}
    (h : Holds z ring base (x :: xs)) : ring (base % z.entries) = x := by
  simpa using h 0 x rfl

theorem Holds.tail {ring : ℕ → α} {base : ℕ} {x : α} {xs : List α}
    (h : Holds z ring base (x :: xs)) : Holds z ring (base + 1) xs := by
  intro k v hk
  have := h (k + 1) v (by simpa using hk)
  rwa [show base + 1 + k = base + (k + 1) by omega]

/-- Writing the next free slot of a ring that is not full appends to the queue. -/
theorem Holds.push {ring : ℕ → α} {base : ℕ} {xs : List α} (h : Holds z ring base xs)
    (hroom : xs.length < z.entries) (v : α) :
    Holds z (Function.update ring ((base + xs.length) % z.entries) v) base (xs ++ [v]) := by
  intro k w hk
  rcases Nat.lt_or_ge k xs.length with hlt | hge
  · rw [List.getElem?_append_left hlt] at hk
    rw [Function.update_of_ne (mod_entries_ne z (by omega) (by omega))]
    exact h k w hk
  · rw [List.getElem?_append_right hge] at hk
    obtain ⟨hz, hw⟩ := List.getElem?_eq_some_iff.mp hk
    have hk0 : k = xs.length := by
      simp only [List.length_singleton] at hz
      omega
    subst hk0
    simpa using hw

/-- Writing a slot that no message of the queue is in leaves the queue alone. -/
theorem Holds.update {ring : ℕ → α} {base : ℕ} {xs : List α} (h : Holds z ring base xs) {i : ℕ}
    (hi : ∀ k, k < xs.length → i ≠ (base + k) % z.entries) (v : α) :
    Holds z (Function.update ring i v) base xs := by
  intro k w hk
  obtain ⟨hlt, _⟩ := List.getElem?_eq_some_iff.mp hk
  rw [Function.update_of_ne (hi k hlt).symm]
  exact h k w hk

/-- Writing the slot just before the queue leaves the queue alone. -/
theorem Holds.answer {ring : ℕ → α} {base : ℕ} {xs : List α} (h : Holds z ring (base + 1) xs)
    (hroom : xs.length < z.entries) (v : α) :
    Holds z (Function.update ring (base % z.entries) v) (base + 1) xs :=
  h.update (fun k hk => mod_entries_ne z (by omega) (by omega)) v

/-- The slots of all counters below `n` hold messages with the property. -/
def Filled (z : Size) (ring : ℕ → α) (n : ℕ) (P : α → Prop) : Prop :=
  ∀ k < n, P (ring (k % z.entries))

theorem Filled.zero (ring : ℕ → α) (P : α → Prop) : Filled z ring 0 P :=
  fun _ h => absurd h (Nat.not_lt_zero _)

theorem Filled.imp {ring : ℕ → α} {n : ℕ} {P Q : α → Prop} (h : Filled z ring n P)
    (himp : ∀ v, P v → Q v) : Filled z ring n Q :=
  fun k hk => himp _ (h k hk)

theorem Filled.update {ring : ℕ → α} {n : ℕ} {P : α → Prop} (h : Filled z ring n P) {v : α}
    (hv : P v) (i : ℕ) : Filled z (Function.update ring i v) n P := by
  intro k hk
  by_cases hi : k % z.entries = i
  · rw [hi, Function.update_self]
    exact hv
  · rw [Function.update_of_ne hi]
    exact h k hk

/-- Writing the slot of the next counter. -/
theorem Filled.push {ring : ℕ → α} {n : ℕ} {P : α → Prop} (h : Filled z ring n P) {v : α}
    (hv : P v) : Filled z (Function.update ring (n % z.entries) v) (n + 1) P := by
  intro k hk
  rcases Nat.lt_succ_iff_lt_or_eq.mp hk with hlt | rfl
  · exact h.update hv _ k hlt
  · rw [Function.update_self]
    exact hv

end Ring
