import Maitland.Packer.Exepak
import Maitland.Packer.Parse

/-!
# The output buffer of exepak

`create_sfx_binary` compresses into a buffer of `blocksize / 8 + blocksize + 256` bytes, and
nothing in the compressor looks at its size. Nine bits for each byte of the block is what the
buffer is made for: a literal takes that many, and so do matches as long as no match of three
bytes reaches too far back.
-/

namespace Maitland.Packer

open BitStream Lz77 BitBuffer

theorem cost_ss11Items (bs : List Bool) (e : Bool) :
    cost (ss11Items bs e) = 2 * bs.length + 2 := by
  induction bs with
  | nil => rfl
  | cons b bs ih =>
    simp only [ss11Items, List.flatMap_cons, List.cons_append, List.nil_append, cost,
      List.length_cons] at ih ⊢
    omega

theorem cost_ss12Items (gs : List (Bool × Bool)) (e : Bool) :
    cost (ss12Items gs e) = 3 * gs.length + 2 := by
  induction gs with
  | nil => rfl
  | cons g gs ih =>
    simp only [ss12Items, List.flatMap_cons, List.cons_append, List.nil_append, cost,
      List.length_cons] at ih ⊢
    omega

theorem length_le_ss11Value {m : ℕ} (hm : 0 < m) (bs : List Bool) (e : Bool) :
    bs.length + 2 * m ≤ ss11Value m bs e := by
  induction bs generalizing m with
  | nil => simp only [ss11Value, List.foldl_nil, List.length_nil]; omega
  | cons b bs ih =>
    have := ih (m := 2 * m + b.toNat) (by omega)
    simp only [ss11Value, List.foldl_cons, List.length_cons] at this ⊢
    omega

theorem cost_codePrefixSs11_le {i : ℕ} (hi : i < 2 ^ 30) :
    cost (codePrefixSs11 i) ≤ 2 * i + 2 := by
  obtain ⟨bs, e, hitems, hval⟩ := codePrefixSs11_eq hi
  have := length_le_ss11Value Nat.one_pos bs e
  rw [hitems, cost_ss11Items]
  omega

theorem fourSum_mono {j k : ℕ} (h : j ≤ k) : fourSum j ≤ fourSum k := by
  induction h with
  | refl => exact Nat.le_refl _
  | step _ ih => exact Nat.le_trans ih (Nat.le_add_right _ _)

/-- `k` groups are not enough for a number from which `k` can be taken off and one more. -/
theorem cost_codePrefixSs12_le {i k : ℕ} (hi : i < 2 ^ 29) (hk : i < 2 * fourSum (k + 1)) :
    cost (codePrefixSs12 i) ≤ 3 * k + 2 := by
  obtain ⟨gs, e, hitems, -, hsum⟩ := codePrefixSs12_eq hi
  have hle : gs.length ≤ k := by
    by_contra hgt
    have := fourSum_mono (show k + 1 ≤ gs.length from Nat.not_le.mp hgt)
    omega
  rw [hitems, cost_ss12Items]
  omega

/-- The distance takes ten bits more than its groups, or three when it is the last one again. -/
theorem cost_offItems_le (last : ℕ) {off k : ℕ} (low : Bool) (hoff : off ≤ swdN)
    (hk : 1 + (off - 1) / 2 ^ 7 < 2 * fourSum (k + 1)) :
    cost (offItems last off low) ≤ 3 * k + 10 := by
  have hswd : swdN = 2 ^ 23 := rfl
  have hpre := cost_codePrefixSs12_le (show 1 + (off - 1) / 2 ^ 7 < 2 ^ 29 by omega) hk
  rw [offItems]
  split_ifs
  · simp only [cost]
    omega
  · rw [cost_append]
    simp only [cost]
    omega

theorem cost_lenItems_le {n : ℕ} (hn : n < 2 ^ 30) :
    cost (lenItems n) ≤ if n ≤ 2 then 1 else if n ≤ 4 then 2 else 2 * n - 7 := by
  rw [lenItems]
  split_ifs with h2 h4
  · exact Nat.le_refl _
  · exact Nat.le_refl _
  · have hpre := cost_codePrefixSs11_le (show n - 5 < 2 ^ 30 by omega)
    rw [cost_append]
    simp only [cost]
    omega

theorem cost_codeMatch_le (last : ℕ) {off len k : ℕ} (hoff : off ≤ swdN) (hlen : len ≤ swdF)
    (hk : 1 + (off - 1) / 2 ^ 7 < 2 * fourSum (k + 1)) :
    cost (codeMatch last len off) ≤ 3 * k + 11 + if len - 1 - farOff off ≤ 2 then 1
      else if len - 1 - farOff off ≤ 4 then 2 else 2 * (len - 1 - farOff off) - 7 := by
  have hswf : swdF = 2048 := rfl
  have h₁ := cost_offItems_le last (decide (len - 1 - farOff off ≤ 2)) hoff hk
  have h₂ := cost_lenItems_le (show len - 1 - farOff off < 2 ^ 30 by omega)
  rw [codeMatch_eq, cost, cost_append]
  omega

/-- No match takes more than nine bits for each of its bytes, except for three bytes that are
found too far back. -/
theorem cost_codeMatch_le_nine (last : ℕ) {off len : ℕ} (h : Codable (.copy off len))
    (h3 : len = 3 → off ≤ 349312) : cost (codeMatch last len off) ≤ 9 * len := by
  obtain ⟨h2, hfar, hwin, hlook⟩ := h
  have hmax : m2MaxOffset = 0x500 := rfl
  have hswd : swdN = 2 ^ 23 := rfl
  rcases farOff_cases off with ⟨hlt, hone⟩ | ⟨hle, hzero⟩
  · by_cases hlen3 : len = 3
    · have h₅ := cost_codeMatch_le last hwin hlook
        (show 1 + (off - 1) / 2 ^ 7 < 2 * fourSum (5 + 1) by
          have := h3 hlen3
          simp only [fourSum]
          omega)
      rw [hone, hlen3, if_pos (by decide)] at h₅
      rw [hlen3]
      omega
    · have h₈ := cost_codeMatch_le last hwin hlook
        (show 1 + (off - 1) / 2 ^ 7 < 2 * fourSum (8 + 1) by simp only [fourSum]; omega)
      rw [hone] at h₈
      split_ifs at h₈ <;> omega
  · have h₂ := cost_codeMatch_le last hwin hlook
      (show 1 + (off - 1) / 2 ^ 7 < 2 * fourSum (2 + 1) by simp only [fourSum]; omega)
    rw [hzero] at h₂
    split_ifs at h₂ <;> omega

theorem cost_codeTokens_le {text : List UInt8} {ts : List (Token UInt8)} {pos : ℕ} (last : ℕ)
    (hcov : Covers text pos ts) (hcod : ∀ t ∈ ts, Codable t) (hle : pos ≤ text.length)
    (hsize : text.length ≤ 349315) :
    cost (codeTokens last ts) ≤ 9 * (text.length - pos) := by
  induction ts generalizing pos last with
  | nil => exact Nat.zero_le _
  | cons t ts ih =>
    have hmore : ∀ t ∈ ts, Codable t := fun t ht => hcod t (List.mem_cons_of_mem _ ht)
    cases t with
    | literal x =>
      obtain ⟨hlt, -⟩ := List.getElem?_eq_some_iff.mp hcov.1
      have := ih last hcov.2 hmore hlt
      rw [codeTokens, cost_append]
      simp only [cost]
      omega
    | copy off len =>
      have hrep := hcov.1.le_length
      have hoff := hcov.1.off_le
      have hmatch := cost_codeMatch_le_nine last (hcod _ List.mem_cons_self)
        (fun h => by omega)
      have := ih off hcov.2 hmore hrep
      rw [codeTokens, cost_append]
      omega

theorem cost_codeEof : cost codeEof = 47 := by decide +kernel

/-- Nine bits for each byte, and the end. -/
theorem length_le_of_compress {garbage : Swd} {text w : List UInt8} {level : ℕ}
    (hw : nrv99Compress garbage text level = some w) (hsize : text.length ≤ 341 * 1024) :
    8 * w.length ≤ 9 * text.length + 55 := by
  obtain ⟨ts, hcov, hcod, rfl⟩ := exists_parse_of_compress hw
  have hcost := cost_codeTokens_le 1 hcov hcod (Nat.zero_le _) (by omega)
  obtain ⟨s, hs, hlen⟩ := length_bufferBytes (codeTokens 1 ts ++ codeEof)
  rw [cost_append, cost_codeEof] at hlen
  omega

/-- A block of at most 341 KiB fits into the buffer. -/
theorem compress_fits_outbuf {garbage : Swd} {text w : List UInt8} {level blocksize : ℕ}
    (hw : nrv99Compress garbage text level = some w)
    (hblock : text.length ≤ blocksize) (hsize : text.length ≤ 341 * 1024) :
    w.length ≤ blocksize / 8 + blocksize + 256 := by
  have := length_le_of_compress hw hsize
  omega

theorem compress_fits_outbuf_run :
    ∃ w, nrv99Compress zeroed (List.replicate 20 7) 10 = some w ∧
      w.length ≤ 262144 / 8 + 262144 + 256 := by
  have hw : (nrv99Compress zeroed (List.replicate 20 7) 10).isSome := by decide +kernel
  obtain ⟨w, hw⟩ := Option.isSome_iff_exists.mp hw
  exact ⟨w, hw, compress_fits_outbuf hw (by simp) (by simp)⟩

/-! ### No overrun -/

theorem packBlock_ne_overrun {garbage : Swd} {blocksize : ℕ} {b : List UInt8}
    (hsize : blocksize ≤ 341 * 1024) (hb : b.length ≤ blocksize) :
    packBlock blocksize garbage b ≠ .error .overrun := by
  rw [packBlock]
  cases hw : nrv99Compress garbage b 10 with
  | none => exact fun h => by cases h
  | some outbuf =>
    have hlen := length_le_of_compress hw (by omega)
    have hfits : ¬outbufSize blocksize < outbuf.length := by
      rw [outbufSize]
      omega
    simp only [if_neg hfits]
    exact fun h => by cases h

theorem packBlocks_ne_overrun {garbage : ℕ → Swd} {blocksize : ℕ} {bs : List (List UInt8)}
    (hsize : blocksize ≤ 341 * 1024) (hbs : ∀ b ∈ bs, b.length ≤ blocksize) :
    packBlocks blocksize garbage bs ≠ .error .overrun := by
  induction bs with
  | nil => exact fun h => by cases h
  | cons b bs ih =>
    have hblock := @packBlock_ne_overrun (garbage bs.length) _ _ hsize (hbs b List.mem_cons_self)
    have hrest := ih fun b hb => hbs b (List.mem_cons_of_mem _ hb)
    rw [packBlocks]
    cases hx : packBlock blocksize (garbage bs.length) b with
    | error e =>
      rw [hx] at hblock
      exact fun h => hblock (congrArg _ (Except.error.inj h))
    | ok x =>
      cases hxs : packBlocks blocksize garbage bs with
      | error e =>
        rw [hxs] at hrest
        exact fun h => hrest (congrArg _ (Except.error.inj h))
      | ok xs => exact fun h => by cases h

/-- With blocks of at most 341 KiB `exepak` never writes behind the buffer. -/
theorem createSfxBinary_ne_overrun (garbage : ℕ → Swd) {blocksize : ℕ} (phdr : Elf32Phdr)
    (mode : ℕ) (infile : List UInt8) (hsize : blocksize ≤ 341 * 1024) :
    (createSfxBinary garbage blocksize phdr mode infile).1 ≠ .error .overrun := by
  rcases createSfxBinary_cases garbage blocksize phdr mode infile with
    ⟨e, he, heq⟩ | ⟨e, hcomp, heq⟩ | ⟨compressed, -, -, heq⟩
  · rw [heq]
    rintro ⟨⟩
    exact absurd he (by decide)
  · rw [heq]
    rintro ⟨⟩
    exact packBlocks_ne_overrun hsize (fun b hb => length_le_of_mem_readBlocks hb) hcomp
  · rw [heq, appendStubfile]
    split_ifs <;> exact fun h => by cases h

end Maitland.Packer
