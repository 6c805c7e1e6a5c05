import Maitland.Packer.Parse
import Maitland.Packer.Stub

/-!
# The decompressor reads the code

Each part of the code takes the decompressor from the one label to the other. Along the way the
items still to come are those that its window and its pointer deliver.
-/

namespace Maitland.Packer

open BitStream ByteMemory Halting Lz77

theorem u32_of_lt {n : ℕ} (h : n < 2 ^ 32) : u32 n = n := Nat.mod_eq_of_lt h

/-- The decompressor is to read the items from between the two addresses, up to the second. -/
structure Ready (r : Regs) (is : List Item) (lo hi : ℕ) : Prop where
  delivers : ∃ win, Delivers r.mem ⟨r.bl, r.esi⟩ is ⟨win, hi⟩
  bl_pos : 0 < r.bl
  bl_lt : r.bl < 2 ^ 8
  lo_le : lo ≤ r.esi
  hi_lt : hi < 2 ^ 32

/-- Reading moves the pointer and the window, and leaves the rest. -/
structure Moved (r r' : Regs) : Prop where
  eax : r'.eax = r.eax
  ecx : r'.ecx = r.ecx
  ebp : r'.ebp = r.ebp
  edi : r'.edi = r.edi
  mem : r'.mem = r.mem

namespace Ready

variable {r : Regs} {is : List Item} {lo hi : ℕ} {b : Bool} {x : UInt8}

/-- The other registers do not matter. -/
theorem of_eq (h : Ready r is lo hi) {r' : Regs} (hmem : r'.mem = r.mem) (hbl : r'.bl = r.bl)
    (hesi : r'.esi = r.esi) : Ready r' is lo hi := by
  obtain ⟨hdel, hpos, hlt, hlo, hhi⟩ := h
  exact ⟨by rw [hmem, hbl, hesi]; exact hdel, hbl ▸ hpos, hbl ▸ hlt, hesi ▸ hlo, hhi⟩

/-- Only what is still to be read matters in the memory. -/
theorem congr (h : Ready r is lo hi) {r' : Regs}
    (hmem : ∀ a, lo ≤ a → a < hi → r.mem a = r'.mem a) (hbl : r'.bl = r.bl)
    (hesi : r'.esi = r.esi) : Ready r' is lo hi := by
  obtain ⟨⟨win, hdel⟩, hpos, hlt, hlo, hhi⟩ := h
  refine ⟨⟨win, ?_⟩, hbl ▸ hpos, hbl ▸ hlt, hesi ▸ hlo, hhi⟩
  rw [hbl, hesi]
  exact hdel.congr fun a hle hlt => hmem a (Nat.le_trans hlo hle) hlt

theorem getbit (h : Ready r (.bit b :: is) lo hi) :
    ∃ r', r.getbit = (b, r') ∧ Ready r' is lo hi ∧ Moved r r' := by
  obtain ⟨⟨win, hbit, hdel⟩, hpos, hlt, hlo, hhi⟩ := h
  have hle := hdel.pos_le
  rw [Regs.getbit]
  rw [Cursor.getBit] at hbit hdel hle
  by_cases hw : 2 * r.bl % 256 ≠ 0
  · rw [if_pos hw] at hbit hdel ⊢
    exact ⟨{ r with bl := 2 * r.bl % 256 }, by rw [← hbit], ⟨⟨win, hdel⟩, Nat.pos_of_ne_zero hw,
      Nat.mod_lt _ (by decide), hlo, hhi⟩, ⟨rfl, rfl, rfl, rfl, rfl⟩⟩
  · rw [if_neg hw] at hbit hdel hle ⊢
    -- the window is used up down to the one behind the last bit, which becomes the carry
    have hcarry : decide (128 ≤ r.bl) = true := decide_eq_true (by omega)
    have hesi : u32 (r.esi + 1) = r.esi + 1 := u32_of_lt (Nat.lt_of_le_of_lt hle hhi)
    rw [Regs.refill, hcarry, hesi]
    refine ⟨{ r with bl := (2 * (r.mem r.esi).toNat + 1) % 256, esi := r.esi + 1 },
      by rw [← hbit]; rfl,
      ⟨⟨win, hdel⟩, ?_, Nat.mod_lt _ (by decide), Nat.le_succ_of_le hlo, hhi⟩,
      ⟨rfl, rfl, rfl, rfl, rfl⟩⟩
    change 0 < (2 * (r.mem r.esi).toNat + 1) % 256
    omega

theorem lodsb (h : Ready r (.byte x :: is) lo hi) :
    r.mem r.esi = x ∧ u32 (r.esi + 1) = r.esi + 1 ∧ Ready { r with esi := r.esi + 1 } is lo hi := by
  obtain ⟨⟨win, hbyte, hdel⟩, hpos, hlt, hlo, hhi⟩ := h
  have hle := hdel.pos_le
  exact ⟨hbyte, u32_of_lt (Nat.lt_of_le_of_lt hle hhi), ⟨win, hdel⟩, hpos, hlt,
    Nat.le_succ_of_le hlo, hhi⟩

end Ready

/-! ### The distance -/

theorem offLoop_stop {r r₁ r₂ : Regs} {b : Bool} (h₁ : r.getbit = (b, r₁))
    (h₂ : (r₁.adcEax b).getbit = (true, r₂)) :
    decomprStep (.offLoop, r) = some (.offBreak, r₂) := by
  simp only [decomprStep, h₁, h₂, if_true]

theorem offLoop_more {r r₁ r₂ r₃ : Regs} {b b' : Bool} (h₁ : r.getbit = (b, r₁))
    (h₂ : (r₁.adcEax b).getbit = (false, r₂))
    (h₃ : { r₂ with eax := u32 (r₂.eax + (2 ^ 32 - 1)) }.getbit = (b', r₃)) :
    decomprStep (.offLoop, r) = some (.offLoop, r₃.adcEax b') := by
  simp only [decomprStep, h₁, h₂, h₃, Bool.false_eq_true, if_false]

variable {r : Regs} {is : List Item} {lo hi : ℕ}

/-- The loop at `decompr_match..15.loop` reads the groups of `code_prefix_ss12`. -/
theorem reaches_offBreak {gs : List (Bool × Bool)} {e : Bool}
    (h : Ready r (ss12Items gs e ++ is) lo hi) (hpos : 0 < r.eax)
    (hlt : ss12Value r.eax gs e < 2 ^ 32) :
    ∃ r', Reaches decomprStep (.offLoop, r) (.offBreak, r') ∧ Ready r' is lo hi ∧
      Moved { r with eax := ss12Value r.eax gs e } r' := by
  induction gs generalizing r with
  | nil =>
    obtain ⟨r₁, hbit₁, h₁, hm₁⟩ := h.getbit
    have h₁' : Ready (r₁.adcEax e) (.bit true :: is) lo hi := h₁.of_eq rfl rfl rfl
    obtain ⟨r₂, hbit₂, h₂, hm₂⟩ := h₁'.getbit
    have heax : r₂.eax = ss12Value r.eax [] e := by
      rw [hm₂.eax, Regs.adcEax, hm₁.eax]
      exact u32_of_lt hlt
    exact ⟨r₂, .head (offLoop_stop hbit₁ hbit₂) (.refl _), h₂, ⟨heax, hm₂.ecx.trans hm₁.ecx,
      hm₂.ebp.trans hm₁.ebp, hm₂.edi.trans hm₁.edi, hm₂.mem.trans hm₁.mem⟩⟩
  | cons g gs ih =>
    have hle := le_ss12Value (m := 2 * (2 * r.eax + g.1.toNat - 1) + g.2.toNat) (by omega) gs e
    have hval : ss12Value r.eax (g :: gs) e =
        ss12Value (2 * (2 * r.eax + g.1.toNat - 1) + g.2.toNat) gs e := rfl
    obtain ⟨r₁, hbit₁, h₁, hm₁⟩ := h.getbit
    have h₁' : Ready (r₁.adcEax g.1) (.bit false :: .bit g.2 :: (ss12Items gs e ++ is)) lo hi :=
      h₁.of_eq rfl rfl rfl
    obtain ⟨r₂, hbit₂, h₂, hm₂⟩ := h₁'.getbit
    have h₂' : Ready { r₂ with eax := u32 (r₂.eax + (2 ^ 32 - 1)) }
        (.bit g.2 :: (ss12Items gs e ++ is)) lo hi := h₂.of_eq rfl rfl rfl
    obtain ⟨r₃, hbit₃, h₃, hm₃⟩ := h₂'.getbit
    have heax₂ : r₂.eax = 2 * r.eax + g.1.toNat := by
      rw [hm₂.eax, Regs.adcEax, hm₁.eax]
      exact u32_of_lt (by omega)
    have heax₃ : r₃.eax = 2 * r.eax + g.1.toNat - 1 := by
      rw [hm₃.eax]
      simp only [heax₂, u32]
      omega
    have heax : (r₃.adcEax g.2).eax = 2 * (2 * r.eax + g.1.toNat - 1) + g.2.toNat := by
      rw [Regs.adcEax, heax₃]
      exact u32_of_lt (by omega)
    have h₃' : Ready (r₃.adcEax g.2) (ss12Items gs e ++ is) lo hi := h₃.of_eq rfl rfl rfl
    obtain ⟨r', hreach, hready, hm⟩ := ih h₃' (by omega) (by rw [heax]; exact hval ▸ hlt)
    refine ⟨r', .head (offLoop_more hbit₁ hbit₂ hbit₃) hreach, hready, ⟨?_, ?_, ?_, ?_, ?_⟩⟩
    · rw [hm.eax, heax]
      rfl
    · exact hm.ecx.trans (hm₃.ecx.trans (hm₂.ecx.trans hm₁.ecx))
    · exact hm.ebp.trans (hm₃.ebp.trans (hm₂.ebp.trans hm₁.ebp))
    · exact hm.edi.trans (hm₃.edi.trans (hm₂.edi.trans hm₁.edi))
    · exact hm.mem.trans (hm₃.mem.trans (hm₂.mem.trans hm₁.mem))

theorem offBreak_same (h : r.eax < 3) :
    decomprStep (.offBreak, r) =
      some (.decomprSameOff, { r with eax := u32 (r.eax + (2 ^ 32 - 3)) }) := by
  simp only [decomprStep, if_pos h]

theorem sameOff_eq {r' : Regs} {b : Bool} (h : r.getbit = (b, r')) :
    decomprStep (.decomprSameOff, r) =
      some (if b then .decomprMlen1 else .decomprGotOff, r') := by
  simp only [decomprStep, h]

/-- The distance comes out of its code as its negation in `%ebp`, and the carry of the shift is
the bit that was put into the lowest place. -/
theorem offBreak_off {off : ℕ} {low : Bool} {x : UInt8} (heax : r.eax = (off - 1) / 2 ^ 7 + 3)
    (hx : r.mem r.esi = x) (hxval : x.toNat = 2 * ((off - 1) % 2 ^ 7) + (!low).toNat)
    (hpos : 0 < off) (hlt : off ≤ 2 ^ 30) :
    decomprStep (.offBreak, r) = some (if low then .decomprMlen1 else .decomprGotOff,
      { r with eax := 2 ^ 32 - off, ebp := 2 ^ 32 - off, esi := u32 (r.esi + 1) }) := by
  have hword : u32 ((r.eax - 3) * 2 ^ 8) + (r.mem r.esi).toNat =
      2 * (off - 1) + (!low).toNat := by
    rw [hx, hxval, heax, u32]
    omega
  have hlow := (!low).toNat_lt
  have hsar : (2 ^ 32 - 1 - (2 * (off - 1) + (!low).toNat)) / 2 +
      (2 ^ 32 - 1 - (2 * (off - 1) + (!low).toNat)) / 2 ^ 31 * 2 ^ 31 = 2 ^ 32 - off := by
    omega
  simp only [decomprStep, hword, hsar]
  rw [if_neg (by omega), if_neg (by omega)]
  cases low with
  | true => rw [if_neg (by simp; omega), if_pos rfl]
  | false => rw [if_pos (by simp; omega), if_neg Bool.false_ne_true]

theorem toNat_offByte (off : ℕ) (low : Bool) :
    (UInt8.ofNat (((off - 1) &&& 0x7f) <<< 1 ||| low.toNat ^^^ 1)).toNat =
      2 * ((off - 1) % 2 ^ 7) + (!low).toNat := by
  have hlow : low.toNat ^^^ 1 = (!low).toNat := by cases low <;> rfl
  have hlt := (!low).toNat_lt
  rw [hlow, ← Nat.shiftLeft_add_eq_or_of_lt (i := 1) hlt, Nat.shiftLeft_eq,
    show (0x7f : ℕ) = 2 ^ 7 - 1 from rfl, Nat.and_two_pow_sub_one_eq_mod, UInt8.toNat_ofNat']
  omega

theorem reaches_offset {last off : ℕ} {low : Bool} (h : Ready r (offItems last off low ++ is) lo hi)
    (hebp : r.ebp = 2 ^ 32 - last) (hpos : 0 < off) (hlt : off ≤ swdN) :
    ∃ r', Reaches decomprStep (.decomprMatch, r)
        (if low then .decomprMlen1 else .decomprGotOff, r') ∧ Ready r' is lo hi ∧
      r'.ebp = 2 ^ 32 - off ∧ r'.ecx = r.ecx ∧ r'.edi = r.edi ∧ r'.mem = r.mem := by
  have hswd : swdN = 2 ^ 23 := rfl
  have hmatch : decomprStep (.decomprMatch, r) = some (.offLoop, { r with eax := 1 }) := rfl
  rw [offItems] at h
  by_cases heq : off = last
  · rw [if_pos heq] at h
    have h₀ : Ready { r with eax := 1 } (ss12Items [] false ++ (.bit low :: is)) lo hi :=
      h.of_eq rfl rfl rfl
    have htwo : ss12Value 1 [] false = 2 := rfl
    obtain ⟨r₁, hreach, h₁, hm₁⟩ :=
      reaches_offBreak h₀ Nat.one_pos (by simp only [htwo]; omega)
    have heax : r₁.eax < 3 := by
      rw [hm₁.eax]
      exact Nat.lt_succ_self 2
    have h₁' : Ready { r₁ with eax := u32 (r₁.eax + (2 ^ 32 - 3)) } (.bit low :: is) lo hi :=
      h₁.of_eq rfl rfl rfl
    obtain ⟨r₂, hbit, h₂, hm₂⟩ := h₁'.getbit
    refine ⟨r₂, .head hmatch (hreach.trans (.head (offBreak_same heax)
      (.head (sameOff_eq hbit) (.refl _)))), h₂, ?_, hm₂.ecx.trans hm₁.ecx, hm₂.edi.trans hm₁.edi,
      hm₂.mem.trans hm₁.mem⟩
    rw [hm₂.ebp, heq]
    exact hm₁.ebp.trans hebp
  · obtain ⟨gs, e, hitems, hval, -⟩ :=
      codePrefixSs12_eq (i := 1 + (off - 1) / 2 ^ 7) (by omega)
    rw [if_neg heq, hitems, List.append_assoc] at h
    have h₀ : Ready { r with eax := 1 } (ss12Items gs e ++ ([.byte _] ++ is)) lo hi :=
      h.of_eq rfl rfl rfl
    obtain ⟨r₁, hreach, h₁, hm₁⟩ :=
      reaches_offBreak h₀ Nat.one_pos (by simp only [hval]; omega)
    obtain ⟨hmem, hesi, h₂⟩ := h₁.lodsb
    have heax : r₁.eax = (off - 1) / 2 ^ 7 + 3 := by
      rw [hm₁.eax]
      exact hval.trans (by omega)
    have hstep := offBreak_off heax hmem (toNat_offByte off low) hpos (by omega)
    rw [hesi] at hstep
    exact ⟨_, .head hmatch (hreach.trans (.head hstep (.refl _))), h₂.of_eq rfl rfl rfl, rfl,
      hm₁.ecx, hm₁.edi, hm₁.mem⟩

/-! ### The length -/

theorem lenLoop_stop {r r₁ r₂ : Regs} {b : Bool} (h₁ : r.getbit = (b, r₁))
    (h₂ : (r₁.adcEcx b).getbit = (true, r₂)) :
    decomprStep (.lenLoop, r) = some (.decomprGotLen, { r₂ with ecx := u32 (r₂.ecx + 2) }) := by
  simp only [decomprStep, h₁, h₂, if_true]

theorem lenLoop_more {r r₁ r₂ : Regs} {b : Bool} (h₁ : r.getbit = (b, r₁))
    (h₂ : (r₁.adcEcx b).getbit = (false, r₂)) :
    decomprStep (.lenLoop, r) = some (.lenLoop, r₂) := by
  simp only [decomprStep, h₁, h₂, Bool.false_eq_true, if_false]

/-- The loop at `decompr_match..49.loop` reads the groups of `code_prefix_ss11`. -/
theorem reaches_gotLen_of_loop {bs : List Bool} {e : Bool}
    (h : Ready r (ss11Items bs e ++ is) lo hi) (hlt : ss11Value r.ecx bs e + 2 < 2 ^ 32) :
    ∃ r', Reaches decomprStep (.lenLoop, r) (.decomprGotLen, r') ∧ Ready r' is lo hi ∧
      r'.ecx = ss11Value r.ecx bs e + 2 ∧ r'.ebp = r.ebp ∧ r'.edi = r.edi ∧ r'.mem = r.mem := by
  induction bs generalizing r with
  | nil =>
    obtain ⟨r₁, hbit₁, h₁, hm₁⟩ := h.getbit
    have h₁' : Ready (r₁.adcEcx e) (.bit true :: is) lo hi := h₁.of_eq rfl rfl rfl
    obtain ⟨r₂, hbit₂, h₂, hm₂⟩ := h₁'.getbit
    have hecx : r₂.ecx = ss11Value r.ecx [] e := by
      rw [hm₂.ecx, Regs.adcEcx, hm₁.ecx]
      exact u32_of_lt (Nat.lt_of_add_right_lt hlt)
    refine ⟨_, .head (lenLoop_stop hbit₁ hbit₂) (.refl _), h₂.of_eq rfl rfl rfl, ?_,
      hm₂.ebp.trans hm₁.ebp, hm₂.edi.trans hm₁.edi, hm₂.mem.trans hm₁.mem⟩
    rw [hecx]
    exact u32_of_lt hlt
  | cons b bs ih =>
    have hle := le_ss11Value (2 * r.ecx + b.toNat) bs e
    have hval : ss11Value r.ecx (b :: bs) e = ss11Value (2 * r.ecx + b.toNat) bs e := rfl
    obtain ⟨r₁, hbit₁, h₁, hm₁⟩ := h.getbit
    have h₁' : Ready (r₁.adcEcx b) (.bit false :: (ss11Items bs e ++ is)) lo hi :=
      h₁.of_eq rfl rfl rfl
    obtain ⟨r₂, hbit₂, h₂, hm₂⟩ := h₁'.getbit
    have hecx : r₂.ecx = 2 * r.ecx + b.toNat := by
      rw [hm₂.ecx, Regs.adcEcx, hm₁.ecx]
      exact u32_of_lt (by omega)
    obtain ⟨r', hreach, hready, hecx', hebp, hedi, hmem⟩ := ih h₂ (by rw [hecx]; exact hval ▸ hlt)
    exact ⟨r', .head (lenLoop_more hbit₁ hbit₂) hreach, hready, by rw [hecx', hecx, hval],
      hebp.trans (hm₂.ebp.trans hm₁.ebp), hedi.trans (hm₂.edi.trans hm₁.edi),
      hmem.trans (hm₂.mem.trans hm₁.mem)⟩

theorem mlen1_eq {r' : Regs} {b : Bool} (h : r.getbit = (b, r')) :
    decomprStep (.decomprMlen1, r) = some (.decomprGotLen, r'.adcEcx b) := by
  simp only [decomprStep, h]

theorem gotOff_eq {r' : Regs} {b : Bool} (h : { r with ecx := u32 (r.ecx + 1) }.getbit = (b, r')) :
    decomprStep (.decomprGotOff, r) = some (if b then .decomprMlen1 else .lenLoop, r') := by
  simp only [decomprStep, h]

theorem toNat_bne_zero {n : ℕ} (h : n ≤ 1) : (n != 0).toNat = n := by
  interval_cases n <;> rfl

theorem reaches_mlen1 {n : ℕ} (hn : n ≤ 1) (hlt : r.ecx < 2 ^ 30)
    (h : Ready r (.bit (n != 0) :: is) lo hi) :
    ∃ r', Reaches decomprStep (.decomprMlen1, r) (.decomprGotLen, r') ∧ Ready r' is lo hi ∧
      r'.ecx = 2 * r.ecx + n ∧ r'.ebp = r.ebp ∧ r'.edi = r.edi ∧ r'.mem = r.mem := by
  obtain ⟨r₁, hbit, h₁, hm⟩ := h.getbit
  refine ⟨_, .head (mlen1_eq hbit) (.refl _), h₁.of_eq rfl rfl rfl, ?_, hm.ebp, hm.edi, hm.mem⟩
  rw [Regs.adcEcx, hm.ecx, toNat_bne_zero hn]
  exact u32_of_lt (by omega)

theorem reaches_gotLen {n : ℕ} (hpos : 0 < n) (hlt : n < 2 ^ 30) (hecx : r.ecx = 0)
    (h : Ready r (lenItems n ++ is) lo hi) :
    ∃ r', Reaches decomprStep (if n ≤ 2 then .decomprMlen1 else .decomprGotOff, r)
        (.decomprGotLen, r') ∧ Ready r' is lo hi ∧
      r'.ecx = n - 1 ∧ r'.ebp = r.ebp ∧ r'.edi = r.edi ∧ r'.mem = r.mem := by
  rw [lenItems] at h
  by_cases h2 : n ≤ 2
  · rw [if_pos h2] at h ⊢
    obtain ⟨r', hreach, hready, hecx', hrest⟩ :=
      reaches_mlen1 (show n - 1 ≤ 1 by omega) (by omega) h
    exact ⟨r', hreach, hready, by omega, hrest⟩
  · rw [if_neg h2] at h ⊢
    have hecx₀ : u32 (r.ecx + 1) = 1 := by rw [hecx]; rfl
    by_cases h4 : n ≤ 4
    · rw [if_pos h4] at h
      have h₀ : Ready { r with ecx := u32 (r.ecx + 1) } (.bit true :: .bit (n - 3 != 0) :: is)
          lo hi := h.of_eq rfl rfl rfl
      obtain ⟨r₁, hbit, h₁, hm⟩ := h₀.getbit
      have hecx₁ : r₁.ecx = 1 := hm.ecx.trans hecx₀
      obtain ⟨r', hreach, hready, hecx', hebp, hedi, hmem⟩ :=
        reaches_mlen1 (show n - 3 ≤ 1 by omega) (by omega) h₁
      exact ⟨r', .head (gotOff_eq hbit) hreach, hready, by omega, hebp.trans hm.ebp,
        hedi.trans hm.edi, hmem.trans hm.mem⟩
    · obtain ⟨bs, e, hitems, hval⟩ := codePrefixSs11_eq (i := n - 5) (by omega)
      rw [if_neg h4, hitems] at h
      have h₀ : Ready { r with ecx := u32 (r.ecx + 1) } (.bit false :: (ss11Items bs e ++ is))
          lo hi := h.of_eq rfl rfl rfl
      obtain ⟨r₁, hbit, h₁, hm⟩ := h₀.getbit
      have hecx₁ : r₁.ecx = 1 := hm.ecx.trans hecx₀
      obtain ⟨r', hreach, hready, hecx', hebp, hedi, hmem⟩ :=
        reaches_gotLen_of_loop h₁ (by rw [hecx₁, hval]; omega)
      rw [hecx₁, hval] at hecx'
      exact ⟨r', .head (gotOff_eq hbit) hreach, hready, by omega, hebp.trans hm.ebp,
        hedi.trans hm.edi, hmem.trans hm.mem⟩

/-! ### The copy -/

/-- The bytes that are copied one by one are those of a copy that may overlap with itself. -/
theorem movsb_copyBack {dst off n : ℕ} {out out' : List UInt8} (hholds : Holds r.mem dst out)
    (hedi : r.edi = dst + out.length) (hesi : r.esi + off = r.edi)
    (hcopy : copyBack off n out = some out') (hlt : dst + out'.length < 2 ^ 32) :
    Holds (Regs.movsb^[n] r).mem dst out' ∧ (Regs.movsb^[n] r).edi = dst + out'.length ∧
      (Regs.movsb^[n] r).ebp = r.ebp ∧ (Regs.movsb^[n] r).bl = r.bl ∧
      ∀ a, a < dst + out.length ∨ dst + out'.length ≤ a →
        (Regs.movsb^[n] r).mem a = r.mem a := by
  induction n generalizing r out with
  | zero =>
    obtain rfl : out = out' := Option.some.inj hcopy
    exact ⟨hholds, hedi, rfl, rfl, fun _ _ => rfl⟩
  | succ n ih =>
    have hlen := length_copyBack hcopy
    rw [copyBack] at hcopy
    split_ifs at hcopy with hoff
    obtain ⟨x, hx, hrest⟩ := Option.bind_eq_some_iff.mp hcopy
    have hmem : r.mem r.esi = x := by
      rw [show r.esi = dst + (out.length - off) by omega]
      exact hholds.getElem hx
    have hsnoc : Holds r.movsb.mem dst (out ++ [x]) := by
      rw [Regs.movsb, hmem, hedi]
      exact hholds.snoc
    have hlen₁ : (out ++ [x]).length = out.length + 1 := by rw [List.length_append]; rfl
    have hedi₁ : r.movsb.edi = r.edi + 1 := u32_of_lt (by omega)
    have hesi₁ : r.movsb.esi = r.esi + 1 := u32_of_lt (by omega)
    obtain ⟨hholds', hedi', hebp', hbl', hframe⟩ := ih hsnoc (by omega) (by omega) hrest
    rw [Function.iterate_succ_apply]
    refine ⟨hholds', hedi', hebp', hbl', fun a ha => ?_⟩
    rw [hframe a (by omega)]
    exact Function.update_of_ne (by omega) _ _

/-! ### Token by token -/

/-- The decompressor at its loop: the output stands at `dst`, the last distance is in `%ebp`, and
the memory elsewhere is as it was. -/
structure Decoding (m : Memory) (dst : ℕ) (out : List UInt8) (last : ℕ) (r : Regs) : Prop where
  holds : Holds r.mem dst out
  edi : r.edi = dst + out.length
  ebp : r.ebp = 2 ^ 32 - last
  ecx : r.ecx = 0
  frame : ∀ a, a < dst ∨ dst + out.length ≤ a → r.mem a = m a

theorem loop_eq {r' : Regs} {b : Bool} (h : r.getbit = (b, r')) :
    decomprStep (.decomprLoop, r) =
      some (if b then .decomprLiteral else .decomprMatch, r') := by
  simp only [decomprStep, h]

variable {m : Memory} {dst last : ℕ} {out : List UInt8}

theorem reaches_literal {x : UInt8} (h : Ready r ([.bit true, .byte x] ++ is) lo hi)
    (hd : Decoding m dst out last r) (hsep : hi ≤ dst ∨ dst + (out ++ [x]).length ≤ lo)
    (hlt : dst + (out ++ [x]).length < 2 ^ 32) :
    ∃ r', Reaches decomprStep (.decomprLoop, r) (.decomprLoop, r') ∧ Ready r' is lo hi ∧
      Decoding m dst (out ++ [x]) last r' := by
  have hlen : (out ++ [x]).length = out.length + 1 := by rw [List.length_append]; rfl
  obtain ⟨r₁, hbit, h₁, hm⟩ := h.getbit
  obtain ⟨hmem, hesi, h₂⟩ := h₁.lodsb
  have hedi₁ : r₁.edi = dst + out.length := hm.edi.trans hd.edi
  have hedi : r₁.movsb.edi = dst + (out ++ [x]).length := by
    rw [hlen, Regs.movsb, hedi₁]
    exact u32_of_lt (by omega)
  have hmem' : r₁.movsb.mem = Function.update r.mem (dst + out.length) x := by
    rw [Regs.movsb, hmem, hedi₁, hm.mem]
  refine ⟨r₁.movsb, .head (loop_eq hbit) (.head rfl (.refl _)), h₂.congr (fun a _ _ => ?_) rfl hesi,
    ?_, hedi, hm.ebp.trans hd.ebp, hm.ecx.trans hd.ecx, fun a ha => ?_⟩
  · rw [hmem', Function.update_of_ne (by omega)]
    exact congrFun hm.mem a
  · rw [hmem']
    exact hd.holds.snoc
  · rw [hmem', Function.update_of_ne (by omega), hd.frame a (by omega)]

theorem reaches_copy {off len : ℕ} {out' : List UInt8}
    (h : Ready r (codeMatch last len off ++ is) lo hi) (hd : Decoding m dst out last r)
    (hcod : Codable (.copy off len)) (hcopy : copyBack off len out = some out')
    (hsep : hi ≤ dst ∨ dst + out'.length ≤ lo) (hlt : dst + out'.length < 2 ^ 32) :
    ∃ r', Reaches decomprStep (.decomprLoop, r) (.decomprLoop, r') ∧ Ready r' is lo hi ∧
      Decoding m dst out' off r' := by
  obtain ⟨h2, hfar, hwin, hlook⟩ := hcod
  obtain ⟨hoff, hoffle⟩ := off_of_copyBack hcopy (by omega)
  have hlen := length_copyBack hcopy
  rw [codeMatch_eq, List.cons_append, List.append_assoc] at h
  obtain ⟨r₁, hbit, h₁, hm⟩ := h.getbit
  obtain ⟨r₂, hreach₂, h₂, hebp₂, hecx₂, hedi₂, hmem₂⟩ :=
    reaches_offset h₁ (hm.ebp.trans hd.ebp) hoff hwin
  have hmax : m2MaxOffset = 0x500 := rfl
  have hswd : swdN = 2 ^ 23 := rfl
  have hswf : swdF = 2048 := rfl
  have hcases := farOff_cases off
  have hn : 0 < len - 1 - farOff off := by omega
  obtain ⟨r₃, hreach₃, h₃, hecx₃, hebp₃, hedi₃, hmem₃⟩ :=
    reaches_gotLen hn (by omega) (hecx₂.trans (hm.ecx.trans hd.ecx)) h₂
  have hedi : r₃.edi = dst + out.length := hedi₃.trans (hedi₂.trans (hm.edi.trans hd.edi))
  have hmem : r₃.mem = r.mem := hmem₃.trans (hmem₂.trans hm.mem)
  have hebp : r₃.ebp = 2 ^ 32 - off := hebp₃.trans hebp₂
  have hecx : u32 (r₃.ecx + 2 + if r₃.ebp < 2 ^ 32 - 0x500 then 1 else 0) = len := by
    have hcarry : (if r₃.ebp < 2 ^ 32 - 0x500 then 1 else 0) = farOff off := by
      rw [farOff, hmax, hebp]
      exact if_congr (by omega) rfl rfl
    rw [hecx₃, hcarry, u32_of_lt (by omega)]
    omega
  have hesi : u32 (r₃.edi + r₃.ebp) = r₃.edi - off := by
    rw [hebp, u32]
    omega
  have hstep : decomprStep (.decomprGotLen, r₃) = some (.decomprLoop,
      { { r₃ with ecx := len, esi := r₃.edi - off }.repMovsb with esi := r₃.esi }) := by
    simp only [decomprStep, hecx, hesi]
  obtain ⟨hholds', hedi', hebp', hbl', hframe'⟩ := movsb_copyBack
    (r := { r₃ with ecx := len, esi := r₃.edi - off }) (hmem ▸ hd.holds) hedi
    (show r₃.edi - off + off = r₃.edi by omega) hcopy hlt
  have hreach : Reaches decomprStep (.decomprMatch, r₁) (.decomprGotLen, r₃) := by
    refine hreach₂.trans ?_
    by_cases hlow : len - 1 - farOff off ≤ 2
    · rw [if_pos hlow] at hreach₃
      rwa [if_pos (decide_eq_true hlow)]
    · rw [if_neg hlow] at hreach₃
      rwa [if_neg (by rwa [decide_eq_true_eq])]
  refine ⟨_, .head (loop_eq hbit) (hreach.trans (.head hstep (.refl _))),
    h₃.congr (fun a _ _ => (hframe' a (by omega)).symm) hbl' rfl, hholds', hedi',
    hebp'.trans hebp, rfl, fun a ha => ?_⟩
  refine (hframe' a (by omega)).trans ?_
  change r₃.mem a = m a
  rw [hmem, hd.frame a (by omega)]

theorem reaches_tokens {ts : List (Token UInt8)} {text : List UInt8}
    (h : Ready r (codeTokens last ts ++ is) lo hi) (hd : Decoding m dst out last r)
    (hcod : ∀ t ∈ ts, Codable t) (hexp : expand ts out = some text)
    (hsep : hi ≤ dst ∨ dst + text.length ≤ lo) (hlt : dst + text.length < 2 ^ 32) :
    ∃ r' last', Reaches decomprStep (.decomprLoop, r) (.decomprLoop, r') ∧ Ready r' is lo hi ∧
      Decoding m dst text last' r' := by
  induction ts generalizing r out last with
  | nil =>
    obtain rfl : out = text := Option.some.inj hexp
    exact ⟨r, last, .refl _, h, hd⟩
  | cons t ts ih =>
    have hmore : ∀ t ∈ ts, Codable t := fun t ht => hcod t (List.mem_cons_of_mem _ ht)
    cases t with
    | literal x =>
      have hle := length_le_of_expand (show expand ts (out ++ [x]) = some text from hexp)
      rw [codeTokens, List.append_assoc] at h
      obtain ⟨r₁, hreach₁, h₁, hd₁⟩ := reaches_literal h hd (by omega) (by omega)
      obtain ⟨r', last', hreach, hrest⟩ := ih h₁ hd₁ hmore hexp
      exact ⟨r', last', hreach₁.trans hreach, hrest⟩
    | copy off len =>
      obtain ⟨mid, hcopy, hexp⟩ := Option.bind_eq_some_iff.mp hexp
      have hle := length_le_of_expand hexp
      rw [codeTokens, List.append_assoc] at h
      obtain ⟨r₁, hreach₁, h₁, hd₁⟩ :=
        reaches_copy h hd (hcod _ List.mem_cons_self) hcopy (by omega) (by omega)
      obtain ⟨r', last', hreach, hrest⟩ := ih h₁ hd₁ hmore hexp
      exact ⟨r', last', hreach₁.trans hreach, hrest⟩

/-- The distance that no match has ends the loop, with the pointer behind it. -/
theorem reaches_end (h : Ready r codeEof lo hi) :
    ∃ r', Reaches decomprStep (.decomprLoop, r) (.decomprEnd, r') ∧ r'.esi = hi ∧
      r'.edi = r.edi ∧ r'.mem = r.mem := by
  obtain ⟨gs, e, hitems, hval, -⟩ := codePrefixSs12_eq (i := 0x1000000) (by decide)
  rw [codeEof, hitems, List.append_assoc] at h
  obtain ⟨r₁, hbit, h₁, hm₁⟩ := h.getbit
  have h₁' : Ready { r₁ with eax := 1 } (ss12Items gs e ++ [.byte 0xff]) lo hi :=
    h₁.of_eq rfl rfl rfl
  obtain ⟨r₂, hreach, h₂, hm₂⟩ := reaches_offBreak h₁' Nat.one_pos (by simp only [hval]; omega)
  obtain ⟨hmem, hesi, h₃⟩ := h₂.lodsb
  have heax : r₂.eax = 0x1000002 := by
    rw [hm₂.eax]
    exact hval
  have hstep : decomprStep (.offBreak, r₂) =
      some (.decomprEnd, { r₂ with eax := 0, esi := u32 (r₂.esi + 1) }) := by
    simp only [decomprStep, heax, hmem]
    rfl
  obtain ⟨win, hdel⟩ := h₃.delivers
  have hend : u32 (r₂.esi + 1) = hi := hesi.trans (congrArg Cursor.pos hdel)
  exact ⟨_, .head (loop_eq hbit) (.head rfl (hreach.trans (.head hstep (.refl _)))), hend,
    hm₂.edi.trans hm₁.edi, hm₂.mem.trans hm₁.mem⟩

/-- Before the first bit the carry stands in for the one that marks a used up window. -/
theorem start_eq (r : Regs) :
    decomprStep (.decomprStart, r) = decomprStep (.decomprLoop, { r with bl := 128 }) := by
  have hbit : { r with bl := 128 }.getbit = r.refill true :=
    if_neg (show ¬2 * 128 % 256 ≠ 0 by decide)
  simp only [decomprStep, hbit]

/-- What the compressor wrote, the decompressor writes back: it stops with its pointer behind the
code, and has changed nothing in memory but the place of the text. -/
theorem nrv2eDecompress_of_compress {garbage : Swd} {text w : List UInt8} {level src dst : ℕ}
    {mem : Memory} (hw : nrv99Compress garbage text level = some w)
    (hholds : Holds mem src w) (hsep : src + w.length ≤ dst ∨ dst + text.length ≤ src)
    (hsrc : src + w.length < 2 ^ 32) (hdst : dst + text.length < 2 ^ 32) :
    ∃ k r, (∀ fuel, k ≤ fuel → nrv2eDecompress fuel mem src dst = some r) ∧
      r.esi = src + w.length ∧ r.edi = dst + text.length ∧ Holds r.mem dst text ∧
      ∀ a, a < dst ∨ dst + text.length ≤ a → r.mem a = mem a := by
  obtain ⟨ts, hcov, hcod, rfl⟩ := exists_parse_of_compress hw
  obtain ⟨win, hdel⟩ := delivers_bufferBytes hholds 128 (by decide)
  have hready : Ready ⟨0, 0, 2 ^ 32 - 1, 128, src, dst, mem⟩ (codeTokens 1 ts ++ codeEof) src
      (src + (bufferBytes (codeTokens 1 ts ++ codeEof)).length) :=
    ⟨⟨win, hdel⟩, Nat.succ_pos _, by simp only; omega, Nat.le_refl _, hsrc⟩
  have hstart : Decoding mem dst [] 1 ⟨0, 0, 2 ^ 32 - 1, 128, src, dst, mem⟩ :=
    ⟨holds_nil, rfl, rfl, rfl, fun _ _ => rfl⟩
  obtain ⟨r₁, last, hreach₁, hready₁, hd⟩ :=
    reaches_tokens hready hstart hcod (expand_of_covers hcov) hsep hdst
  obtain ⟨r₂, hreach₂, hesi, hedi, hmem⟩ := reaches_end hready₁
  have hreach : Reaches decomprStep (.decomprStart, ⟨0, 0, 2 ^ 32 - 1, 0, src, dst, mem⟩)
      (.decomprEnd, r₂) := .of_same_step ((start_eq _).trans rfl) rfl (hreach₁.trans hreach₂)
  obtain ⟨k, hk⟩ := hreach.halts rfl
  refine ⟨k, r₂, fun fuel hf => ?_, hesi, hedi.trans hd.edi, hmem ▸ hd.holds,
    fun a ha => hmem ▸ hd.frame a ha⟩
  rw [nrv2eDecompress, hk fuel hf]
  rfl

end Maitland.Packer
