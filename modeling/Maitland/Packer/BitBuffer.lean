import Mathlib.Algebra.Group.Nat.Defs
import Mathlib.Data.List.Basic
import Mathlib.Tactic.IntervalCases
import Maitland.Library.BitStream
import Maitland.Library.ByteMemory

/-!
# The bit buffer of the compressor

Bits gather in `bb_b`, `bb_k` of them, and are written to a byte of the output whose place was
kept when the first of them came. What the buffer has written is read back item by item.
-/

namespace Maitland.Packer

open BitStream ByteMemory

/-- `out` ends at `bb_op`. The byte at `bb_p` is written when the next one is needed. -/
structure BitBuffer where
  b : ℕ
  k : ℕ
  p : Option ℕ
  out : List UInt8
  deriving DecidableEq, Repr

namespace BitBuffer

/-- As `bbConfig` leaves it, with `bb_c_s` 8. -/
def init : BitBuffer := ⟨0, 0, none, []⟩

def bbWriteBits (c : BitBuffer) : BitBuffer :=
  match c.p with
  | some p => { c with out := c.out.set p (UInt8.ofNat c.b) }
  | none => c

def bbPutBit (c : BitBuffer) (bit : Bool) : BitBuffer :=
  if c.k < 8 then
    let c := if c.k = 0 then { c with p := some c.out.length, out := c.out ++ [0] } else c
    { c with b := (2 * c.b + bit.toNat) % 2 ^ 32, k := c.k + 1 }
  else
    let c := c.bbWriteBits
    { b := bit.toNat, k := 1, p := some c.out.length, out := c.out ++ [0] }

def bbPutByte (c : BitBuffer) (x : UInt8) : BitBuffer := { c with out := c.out ++ [x] }

/-- The loop of `bbFlushBits`, at most `n` times round. -/
def fillBits (filler : Bool) : ℕ → BitBuffer → BitBuffer
  | 0, c => c
  | n + 1, c => if c.k ≠ 8 then fillBits filler n (c.bbPutBit filler) else c

def bbFlushBits (c : BitBuffer) (filler : Bool) : BitBuffer :=
  let c := if 0 < c.k then { (c.fillBits filler 8).bbWriteBits with k := 0 } else c
  { c with p := none }

def put (c : BitBuffer) : Item → BitBuffer
  | .bit b => c.bbPutBit b
  | .byte x => c.bbPutByte x

def puts (c : BitBuffer) (is : List Item) : BitBuffer := is.foldl put c

@[simp] theorem puts_nil (c : BitBuffer) : c.puts [] = c := rfl

@[simp] theorem puts_cons (c : BitBuffer) (i : Item) (is : List Item) :
    c.puts (i :: is) = (c.put i).puts is := rfl

theorem puts_append (c : BitBuffer) (is js : List Item) :
    c.puts (is ++ js) = (c.puts is).puts js := List.foldl_append

/-- The bits of `bb_b` are `bb_k` in number, and have a place once there is one. -/
structure Valid (c : BitBuffer) : Prop where
  k_le : c.k ≤ 8
  b_lt : c.b < 2 ^ c.k
  place : 0 < c.k → ∃ p < c.out.length, c.p = some p

theorem valid_init : init.Valid :=
  ⟨Nat.zero_le _, Nat.one_pos, fun h => absurd h (Nat.lt_irrefl 0)⟩

/-- Writing one bit, by what the buffer holds before it. -/
theorem bbPutBit_zero {c : BitBuffer} (hk : c.k = 0) (hb : c.b < 2 ^ c.k) (bit : Bool) :
    c.bbPutBit bit = ⟨bit.toNat, 1, some c.out.length, c.out ++ [0]⟩ := by
  have hb : c.b = 0 := by rw [hk] at hb; omega
  have := bit.toNat_lt
  rw [bbPutBit, if_pos (by omega), if_pos hk]
  simp only [hb, hk]
  congr 1
  omega

theorem bbPutBit_lt {c : BitBuffer} (hpos : 0 < c.k) (hk : c.k < 8) (hb : c.b < 2 ^ c.k)
    (bit : Bool) : c.bbPutBit bit = { c with b := 2 * c.b + bit.toNat, k := c.k + 1 } := by
  have hb : c.b < 2 ^ 8 :=
    Nat.lt_of_lt_of_le hb (Nat.pow_le_pow_right (by decide) (Nat.le_of_lt hk))
  have := bit.toNat_lt
  rw [bbPutBit, if_pos hk, if_neg (by omega)]
  simp only
  congr 1
  omega

theorem bbPutBit_eight {c : BitBuffer} {p : ℕ} (hk : c.k = 8) (hp : c.p = some p) (bit : Bool) :
    c.bbPutBit bit =
      ⟨bit.toNat, 1, some c.out.length, c.out.set p (UInt8.ofNat c.b) ++ [0]⟩ := by
  rw [bbPutBit, if_neg (by omega)]
  simp only [bbWriteBits, hp, List.length_set]

theorem Valid.bbPutBit {c : BitBuffer} (h : c.Valid) (bit : Bool) : (c.bbPutBit bit).Valid := by
  have hbit := bit.toNat_lt
  rcases Nat.eq_zero_or_pos c.k with hk | hpos
  · rw [bbPutBit_zero hk h.b_lt]
    exact ⟨Nat.le_of_ble_eq_true rfl, hbit, fun _ => ⟨_, by simp, rfl⟩⟩
  · rcases Nat.lt_or_eq_of_le h.k_le with hk | hk
    · rw [bbPutBit_lt hpos hk h.b_lt]
      refine ⟨hk, ?_, fun _ => h.place hpos⟩
      have := h.b_lt
      simp only [Nat.pow_succ]
      omega
    · obtain ⟨p, -, hp⟩ := h.place hpos
      rw [bbPutBit_eight hk hp]
      exact ⟨Nat.le_of_ble_eq_true rfl, hbit, fun _ => ⟨_, by simp, rfl⟩⟩

theorem Valid.bbPutByte {c : BitBuffer} (h : c.Valid) (x : UInt8) : (c.bbPutByte x).Valid := by
  refine ⟨h.k_le, h.b_lt, fun hpos => ?_⟩
  obtain ⟨p, hlt, hp⟩ := h.place hpos
  exact ⟨p, by simpa [BitBuffer.bbPutByte] using Nat.lt_succ_of_lt hlt, hp⟩

theorem Valid.put {c : BitBuffer} (h : c.Valid) (i : Item) : (c.put i).Valid := by
  cases i with
  | bit b => exact h.bbPutBit b
  | byte x => exact h.bbPutByte x

theorem Valid.puts {c : BitBuffer} (h : c.Valid) (is : List Item) : (c.puts is).Valid := by
  induction is generalizing c with
  | nil => exact h
  | cons i is ih => exact ih (h.put i)

/-! ### The length of the output -/

/-- A bit counts one and a whole byte eight. -/
def cost : List Item → ℕ
  | [] => 0
  | .bit _ :: is => 1 + cost is
  | .byte _ :: is => 8 + cost is

theorem cost_append (is js : List Item) : cost (is ++ js) = cost is + cost js := by
  induction is with
  | nil => exact (Nat.zero_add _).symm
  | cons i is ih => cases i <;> simp only [List.cons_append, cost, ih, Nat.add_assoc]

/-- The places of the last control byte that no bit has yet. -/
def slack (c : BitBuffer) : ℕ := if c.k = 0 then 0 else 8 - c.k

theorem slack_put {c : BitBuffer} (h : c.Valid) (i : Item) :
    8 * (c.put i).out.length + c.slack = 8 * c.out.length + cost [i] + (c.put i).slack := by
  cases i with
  | byte x =>
    have hslack : (c.put (.byte x)).slack = c.slack := rfl
    have hlen : (c.put (.byte x)).out.length = c.out.length + 1 := List.length_append
    rw [hslack, hlen, cost, cost]
    omega
  | bit b =>
    rcases Nat.eq_zero_or_pos c.k with hk | hpos
    · rw [put, bbPutBit_zero hk h.b_lt]
      simp only [slack, hk, List.length_append, List.length_singleton, cost, if_true,
        Nat.one_ne_zero, if_false]
      omega
    · obtain ⟨p, -, hp⟩ := h.place hpos
      rcases Nat.lt_or_eq_of_le h.k_le with hk | hk
      · rw [put, bbPutBit_lt hpos hk h.b_lt]
        simp only [slack, cost, if_neg (Nat.ne_of_gt hpos), if_neg (Nat.succ_ne_zero _)]
        omega
      · have hslack : c.slack = 0 := by rw [slack, hk]; rfl
        rw [put, bbPutBit_eight hk hp, hslack]
        simp only [slack, List.length_append, List.length_set, List.length_singleton, cost,
          Nat.one_ne_zero, if_false]
        omega

theorem slack_puts {c : BitBuffer} (h : c.Valid) (is : List Item) :
    8 * (c.puts is).out.length + c.slack = 8 * c.out.length + cost is + (c.puts is).slack := by
  induction is generalizing c with
  | nil => simp only [puts_nil, cost]; omega
  | cons i is ih =>
    have hi := slack_put h i
    have his := ih (h.put i)
    have hcost := cost_append [i] is
    rw [List.singleton_append] at hcost
    rw [puts_cons]
    omega

/-! ### What the finished output says about the buffer -/

/-- `w` may be the output in the end: it has what is written, and the bits that are not written
yet are the first of the byte they have their place in. -/
structure Agrees (c : BitBuffer) (w : List UInt8) : Prop where
  written : ∀ i < c.out.length, c.p ≠ some i ∨ c.k = 0 → w[i]? = c.out[i]?
  gathered : ∀ p, c.p = some p → 0 < c.k → ∃ x, w[p]? = some x ∧ x.toNat / 2 ^ (8 - c.k) = c.b

/-- The output after one more item still has what the buffer had before it. -/
theorem Agrees.of_bbPutBit {c : BitBuffer} {w : List UInt8} {bit : Bool} (hv : c.Valid)
    (h : (c.bbPutBit bit).Agrees w) : c.Agrees w := by
  have hbit := bit.toNat_lt
  rcases Nat.eq_zero_or_pos c.k with hk | hpos
  · rw [bbPutBit_zero hk hv.b_lt] at h
    refine ⟨fun i hi _ => ?_, fun p _ hpos => absurd hk (Nat.ne_of_gt hpos)⟩
    rw [h.written i (by simp; omega) (.inl (by simp; omega)), List.getElem?_append_left hi]
  · obtain ⟨p, hlt, hp⟩ := hv.place hpos
    rcases Nat.lt_or_eq_of_le hv.k_le with hk | hk
    · rw [bbPutBit_lt hpos hk hv.b_lt] at h
      refine ⟨fun i hi hne => h.written i hi (.inl (hne.resolve_right (by omega))),
        fun q hq _ => ?_⟩
      obtain ⟨x, hx, hdiv⟩ := h.gathered q hq (Nat.succ_pos _)
      refine ⟨x, hx, ?_⟩
      change x.toNat / 2 ^ (8 - (c.k + 1)) = 2 * c.b + bit.toNat at hdiv
      rw [show 8 - c.k = 8 - (c.k + 1) + 1 by omega, Nat.pow_succ, ← Nat.div_div_eq_div_mul, hdiv]
      omega
    · rw [bbPutBit_eight hk hp] at h
      refine ⟨fun i hi hne => ?_, fun q hq _ => ?_⟩
      · have hpi : p ≠ i := by
          rintro rfl
          exact hne.elim (fun hne => hne hp) (by omega)
        rw [h.written i (by simp; omega) (.inl (by simp; omega)),
          List.getElem?_append_left (by simpa using hi), List.getElem?_set_ne hpi]
      · obtain rfl := Option.some.inj (hp.symm.trans hq)
        refine ⟨UInt8.ofNat c.b, ?_, ?_⟩
        · rw [h.written p (by simp; omega) (.inl (by simp; omega)),
            List.getElem?_append_left (by simpa using hlt), List.getElem?_set_self hlt]
        · have hb : c.b < 2 ^ c.k := hv.b_lt
          rw [hk] at hb ⊢
          rw [UInt8.toNat_ofNat']
          omega

theorem Agrees.of_bbPutByte {c : BitBuffer} {w : List UInt8} {x : UInt8}
    (h : (c.bbPutByte x).Agrees w) : c.Agrees w := by
  refine ⟨fun i hi hne => ?_, h.gathered⟩
  rw [h.written i (by simp [BitBuffer.bbPutByte]; omega) hne]
  exact List.getElem?_append_left hi

theorem Agrees.of_put {c : BitBuffer} {w : List UInt8} {i : Item} (hv : c.Valid)
    (h : (c.put i).Agrees w) : c.Agrees w := by
  cases i with
  | bit b => exact h.of_bbPutBit hv
  | byte x => exact h.of_bbPutByte

theorem Agrees.of_puts {c : BitBuffer} {w : List UInt8} {is : List Item} (hv : c.Valid)
    (h : (c.puts is).Agrees w) : c.Agrees w := by
  induction is generalizing c with
  | nil => exact h
  | cons i is ih => exact (ih (hv.put i) h).of_put hv

theorem fillBits_spec {c : BitBuffer} (filler : Bool) (n : ℕ) (hv : c.Valid) (hpos : 0 < c.k)
    (hn : 8 ≤ n + c.k) :
    (c.fillBits filler n).Valid ∧ (c.fillBits filler n).k = 8 ∧
      (c.fillBits filler n).out = c.out ∧
      ∀ w, (c.fillBits filler n).Agrees w → c.Agrees w := by
  induction n generalizing c with
  | zero =>
    have hk : c.k = 8 := by have := hv.k_le; omega
    exact ⟨hv, hk, rfl, fun _ h => h⟩
  | succ n ih =>
    by_cases hk : c.k = 8
    · rw [fillBits, if_neg (not_not.mpr hk)]
      exact ⟨hv, hk, rfl, fun _ h => h⟩
    · have heq := bbPutBit_lt hpos (by have := hv.k_le; omega) hv.b_lt filler
      have hk' : (c.bbPutBit filler).k = c.k + 1 := by rw [heq]
      obtain ⟨hv', hk₈, hout, hagree⟩ :=
        ih (hv.bbPutBit filler) (by omega) (by rw [hk']; omega)
      rw [fillBits, if_pos hk]
      exact ⟨hv', hk₈, by rw [hout, heq], fun w h => (hagree w h).of_bbPutBit hv⟩

theorem agrees_bbWriteBits {c : BitBuffer} (hv : c.Valid) (hk : c.k = 8) :
    c.Agrees c.bbWriteBits.out := by
  obtain ⟨p, hlt, hp⟩ := hv.place (by omega)
  have hout : c.bbWriteBits.out = c.out.set p (UInt8.ofNat c.b) := by simp only [bbWriteBits, hp]
  have hb : c.b < 2 ^ c.k := hv.b_lt
  rw [hout]
  refine ⟨fun i _ hne => List.getElem?_set_ne ?_, fun q hq _ => ?_⟩
  · rintro rfl
    exact hne.elim (fun hne => hne hp) (by omega)
  · obtain rfl := Option.some.inj (hp.symm.trans hq)
    rw [hk] at hb ⊢
    refine ⟨_, List.getElem?_set_self hlt, ?_⟩
    rw [UInt8.toNat_ofNat']
    omega

/-- Flushing writes the last control byte and takes no new place. -/
theorem agrees_bbFlushBits {c : BitBuffer} (hv : c.Valid) (filler : Bool) :
    c.Agrees (c.bbFlushBits filler).out ∧ (c.bbFlushBits filler).out.length = c.out.length := by
  by_cases hpos : 0 < c.k
  · obtain ⟨hv', hk, hout, hagree⟩ :=
      fillBits_spec filler 8 hv hpos (Nat.le_add_right _ _)
    have heq : (c.bbFlushBits filler).out = (c.fillBits filler 8).bbWriteBits.out := by
      simp only [bbFlushBits, if_pos hpos]
    obtain ⟨p, -, hp⟩ := hv'.place (by omega)
    rw [heq]
    exact ⟨hagree _ (agrees_bbWriteBits hv' hk), by simp [bbWriteBits, hp, hout]⟩
  · have heq : (c.bbFlushBits filler).out = c.out := by simp only [bbFlushBits, if_neg hpos]
    rw [heq]
    exact ⟨⟨fun _ _ _ => rfl, fun _ _ h => absurd h hpos⟩, rfl⟩

/-! ### Reading the output back -/

/-- The reader has taken from `w` what the buffer holds: its window has the bits of the control
byte that the buffer does not hold yet. -/
structure Synced (src : ℕ) (w : List UInt8) (c : BitBuffer) (cur : Cursor) : Prop where
  pos : cur.pos = src + c.out.length
  used_up : c.k = 0 → 2 * cur.window % 256 = 0
  window : ∀ p x, c.p = some p → w[p]? = some x → 0 < c.k →
    cur.window = (x.toNat * 2 ^ c.k + 2 ^ (c.k - 1)) % 256

theorem getBit_fresh {mem : Memory} {src : ℕ} {w : List UInt8} {c c' : BitBuffer} {cur : Cursor}
    {bit : Bool} (hw : Holds mem src w) (hpos : cur.pos = src + c.out.length)
    (hwin : 2 * cur.window % 256 = 0) (hk : c'.k = 1) (hp : c'.p = some c.out.length)
    (hb : c'.b = bit.toNat) (hlen : c'.out.length = c.out.length + 1) (h : c'.Agrees w) :
    (cur.getBit mem).1 = bit ∧ Synced src w c' (cur.getBit mem).2 := by
  obtain ⟨x, hx, hdiv⟩ := h.gathered _ hp (by omega)
  have hmem : mem cur.pos = x := hpos ▸ hw.getElem hx
  have hlt := x.toNat_lt
  rw [hk, hb] at hdiv
  rw [Cursor.getBit, if_neg (not_not.mpr hwin), hmem]
  refine ⟨?_, by simp only [hpos, hlen]; omega, fun hk0 => absurd hk0 (by omega), ?_⟩
  · cases bit <;> simp at hdiv ⊢ <;> omega
  · intro p y hp' hy _
    obtain rfl := Option.some.inj (hp.symm.trans hp')
    obtain rfl := Option.some.inj (hx.symm.trans hy)
    rw [hk]
    simp only [Nat.sub_self, Nat.pow_zero, Nat.pow_one]
    omega

/-- One shift of a window that still holds a bit. -/
theorem window_shift {x k b bit : ℕ} (hpos : 0 < k) (hk : k < 8)
    (hdiv : x / 2 ^ (8 - (k + 1)) = 2 * b + bit) (hbit : bit < 2) :
    2 * ((x * 2 ^ k + 2 ^ (k - 1)) % 256) % 256 ≠ 0 ∧
      2 * ((x * 2 ^ k + 2 ^ (k - 1)) % 256) % 256 = (x * 2 ^ (k + 1) + 2 ^ k) % 256 ∧
      (128 ≤ (x * 2 ^ k + 2 ^ (k - 1)) % 256 ↔ bit = 1) := by
  interval_cases k <;> norm_num at hdiv ⊢ <;> omega

theorem Synced.bbPutBit {mem : Memory} {src : ℕ} {w : List UInt8} {c : BitBuffer} {cur : Cursor}
    {bit : Bool} (hv : c.Valid) (hw : Holds mem src w) (hs : Synced src w c cur)
    (h : (c.bbPutBit bit).Agrees w) :
    (cur.getBit mem).1 = bit ∧ Synced src w (c.bbPutBit bit) (cur.getBit mem).2 := by
  rcases Nat.eq_zero_or_pos c.k with hk | hpos
  · rw [bbPutBit_zero hk hv.b_lt] at h ⊢
    exact getBit_fresh hw hs.pos (hs.used_up hk) rfl rfl rfl (by simp) h
  · obtain ⟨p, hlt, hp⟩ := hv.place hpos
    rcases Nat.lt_or_eq_of_le hv.k_le with hk | hk
    · rw [bbPutBit_lt hpos hk hv.b_lt] at h ⊢
      obtain ⟨x, hx, hdiv⟩ := h.gathered p hp (Nat.succ_pos _)
      obtain ⟨hne, heq, hbit⟩ := window_shift hpos hk hdiv bit.toNat_lt
      rw [← hs.window p x hp hx hpos] at hne heq hbit
      rw [Cursor.getBit, if_pos hne]
      refine ⟨?_, hs.pos, fun hk0 => absurd hk0 (Nat.succ_ne_zero _), fun q y hq hy _ => ?_⟩
      · cases bit <;> simp at hbit ⊢ <;> omega
      · obtain rfl := Option.some.inj (hp.symm.trans hq)
        obtain rfl := Option.some.inj (hx.symm.trans hy)
        exact heq
    · have h₁ := h
      rw [bbPutBit_eight hk hp] at h ⊢
      obtain ⟨x, hx, -⟩ := (h₁.of_bbPutBit hv).gathered p hp hpos
      have hwin := hs.window p x hp hx hpos
      rw [hk] at hwin
      exact getBit_fresh hw hs.pos (by omega) rfl rfl rfl (by simp) h

theorem Synced.bbPutByte {mem : Memory} {src : ℕ} {w : List UInt8} {c : BitBuffer} {cur : Cursor}
    {x : UInt8} (hv : c.Valid) (hw : Holds mem src w) (hs : Synced src w c cur)
    (h : (c.bbPutByte x).Agrees w) :
    mem cur.pos = x ∧ Synced src w (c.bbPutByte x) ⟨cur.window, cur.pos + 1⟩ := by
  have hlen : (c.bbPutByte x).out.length = c.out.length + 1 := by simp [BitBuffer.bbPutByte]
  refine ⟨hs.pos ▸ hw.getElem ?_, hlen ▸ congrArg (· + 1) hs.pos, hs.used_up, hs.window⟩
  have hne : c.p ≠ some c.out.length ∨ c.k = 0 := by
    rcases Nat.eq_zero_or_pos c.k with hk | hpos
    · exact .inr hk
    · obtain ⟨p, hlt, hp⟩ := hv.place hpos
      rw [hp]
      exact .inl fun he => Nat.ne_of_lt hlt (Option.some.inj he)
  rw [h.written _ (by omega) hne]
  simp [BitBuffer.bbPutByte]

/-- What the buffer is given comes out again, item by item. -/
theorem Synced.puts {mem : Memory} {src : ℕ} {w : List UInt8} {c : BitBuffer} {cur : Cursor}
    {is : List Item} (hv : c.Valid) (hw : Holds mem src w) (hs : Synced src w c cur)
    (h : (c.puts is).Agrees w) :
    ∃ cur', Delivers mem cur is cur' ∧ Synced src w (c.puts is) cur' := by
  induction is generalizing c cur with
  | nil => exact ⟨cur, rfl, hs⟩
  | cons i is ih =>
    have hi : (c.put i).Agrees w := h.of_puts (hv.put i)
    cases i with
    | bit b =>
      obtain ⟨hbit, hs'⟩ := hs.bbPutBit hv hw hi
      obtain ⟨cur', hdel, hs''⟩ := ih (hv.put (.bit b)) hs' h
      exact ⟨cur', ⟨hbit, hdel⟩, hs''⟩
    | byte x =>
      obtain ⟨hbyte, hs'⟩ := hs.bbPutByte hv hw hi
      obtain ⟨cur', hdel, hs''⟩ := ih (hv.put (.byte x)) hs' h
      exact ⟨cur', ⟨hbyte, hdel⟩, hs''⟩

end BitBuffer

/-- The output of the buffer for the items. -/
def bufferBytes (is : List Item) : List UInt8 := ((BitBuffer.init.puts is).bbFlushBits false).out

/-- Whoever holds the output reads the items from it and has then read all of it. -/
theorem delivers_bufferBytes {mem : Memory} {src : ℕ} {is : List Item}
    (hw : Holds mem src (bufferBytes is)) (win : ℕ) (hwin : 2 * win % 256 = 0) :
    ∃ win', Delivers mem ⟨win, src⟩ is ⟨win', src + (bufferBytes is).length⟩ := by
  have hv := BitBuffer.valid_init.puts is
  obtain ⟨hagree, hlen⟩ := BitBuffer.agrees_bbFlushBits hv false
  have hstart : BitBuffer.Synced src (bufferBytes is) BitBuffer.init ⟨win, src⟩ :=
    ⟨rfl, fun _ => hwin, fun p _ hp => by cases hp⟩
  obtain ⟨cur, hdel, hs⟩ := hstart.puts BitBuffer.valid_init hw hagree
  refine ⟨cur.window, ?_⟩
  rwa [bufferBytes, hlen, ← hs.pos]

/-- The output has room for the items, and less than a byte more. -/
theorem length_bufferBytes (is : List Item) :
    ∃ s < 8, 8 * (bufferBytes is).length = BitBuffer.cost is + s := by
  have hv := BitBuffer.valid_init.puts is
  obtain ⟨-, hlen⟩ := BitBuffer.agrees_bbFlushBits hv false
  have hslack := BitBuffer.slack_puts BitBuffer.valid_init is
  refine ⟨(BitBuffer.init.puts is).slack, ?_, ?_⟩
  · rw [BitBuffer.slack]
    split_ifs <;> omega
  · rw [bufferBytes, hlen]
    simpa [BitBuffer.init, BitBuffer.slack] using hslack

end Maitland.Packer
