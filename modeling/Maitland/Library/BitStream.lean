import Mathlib.Data.Nat.Notation

/-!
# Streams of bits and bytes

Eight bits share a control byte and whole bytes stand between the control bytes. The reader
shifts the control byte out of a window, and a one put behind it tells when the byte is used
up.
-/

namespace BitStream

inductive Item where
  | bit (b : Bool)
  | byte (x : UInt8)
  deriving DecidableEq, Repr

/-- The window with the bits still to come and the position of the next byte. -/
@[ext]
structure Cursor where
  window : ℕ
  pos : ℕ
  deriving DecidableEq, Repr

namespace Cursor

/-- The next bit: out of the window while it holds one, else the first of the next byte. -/
def getBit (mem : ℕ → UInt8) (c : Cursor) : Bool × Cursor :=
  if 2 * c.window % 256 ≠ 0 then
    (decide (128 ≤ c.window), ⟨2 * c.window % 256, c.pos⟩)
  else
    (decide (128 ≤ (mem c.pos).toNat), ⟨(2 * (mem c.pos).toNat + 1) % 256, c.pos + 1⟩)

end Cursor

/-- Reading from the first cursor gives the items, in order, and ends at the second. -/
def Delivers (mem : ℕ → UInt8) : Cursor → List Item → Cursor → Prop
  | c, [], c' => c = c'
  | c, .bit b :: is, c' => (c.getBit mem).1 = b ∧ Delivers mem (c.getBit mem).2 is c'
  | c, .byte x :: is, c' => mem c.pos = x ∧ Delivers mem ⟨c.window, c.pos + 1⟩ is c'

variable {mem mem' : ℕ → UInt8} {c c' : Cursor} {is : List Item}

theorem Cursor.pos_le_getBit (c : Cursor) : c.pos ≤ (c.getBit mem).2.pos := by
  unfold getBit
  split
  · exact Nat.le_refl _
  · exact Nat.le_succ _

theorem Delivers.pos_le (h : Delivers mem c is c') : c.pos ≤ c'.pos := by
  induction is generalizing c with
  | nil => cases h; exact Nat.le_refl _
  | cons i is ih =>
    cases i with
    | bit b => exact Nat.le_trans c.pos_le_getBit (ih h.2)
    | byte x => exact Nat.le_trans (Nat.le_succ _) (ih h.2)

theorem Cursor.getBit_congr (h : (c.getBit mem).2.pos ≠ c.pos → mem c.pos = mem' c.pos) :
    c.getBit mem = c.getBit mem' := by
  unfold getBit at h ⊢
  by_cases hw : 2 * c.window % 256 ≠ 0
  · rw [if_pos hw, if_pos hw]
  · rw [if_neg hw] at h
    rw [if_neg hw, if_neg hw, h (Nat.succ_ne_self _)]

/-- Only the bytes between the two cursors are read. -/
theorem Delivers.congr (h : Delivers mem c is c')
    (heq : ∀ a, c.pos ≤ a → a < c'.pos → mem a = mem' a) : Delivers mem' c is c' := by
  induction is generalizing c with
  | nil => exact h
  | cons i is ih =>
    cases i with
    | bit b =>
      have hle := h.2.pos_le
      have hge : c.pos ≤ (c.getBit mem).2.pos := c.pos_le_getBit
      have hbit : c.getBit mem = c.getBit mem' :=
        Cursor.getBit_congr fun hne => heq _ (Nat.le_refl _) (by omega)
      exact ⟨hbit ▸ h.1, hbit ▸ ih h.2 fun a ha => heq a (by omega)⟩
    | byte x =>
      have hlt : c.pos < c'.pos := h.2.pos_le
      exact ⟨(heq _ (Nat.le_refl _) hlt) ▸ h.1, ih h.2 fun a ha => heq a (Nat.le_of_succ_le ha)⟩

end BitStream
