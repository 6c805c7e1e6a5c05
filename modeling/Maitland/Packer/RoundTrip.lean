import Maitland.Packer.Decompress
import Maitland.Packer.Exepak

/-!
# A packed program unpacks itself

The stub, started on the first file that a run of `exepak` packs, writes the original file, for
every file and every block size.
-/

namespace Maitland.Packer

open ByteMemory Lz77

variable {mem : Memory}

/-! ### Putting the image in order -/

/-- A move to a place behind what it reads. -/
theorem movsb_move {r : Regs} {bs : List UInt8} (h : Holds r.mem r.esi bs)
    (hle : r.esi + bs.length ≤ r.edi) (hlt : r.edi + bs.length < 2 ^ 32) :
    Holds (Regs.movsb^[bs.length] r).mem r.edi bs ∧
      ∀ a, a < r.edi ∨ r.edi + bs.length ≤ a → (Regs.movsb^[bs.length] r).mem a = r.mem a := by
  induction bs generalizing r with
  | nil => exact ⟨holds_nil, fun _ _ => rfl⟩
  | cons x bs ih =>
    rw [List.length_cons] at hle hlt ⊢
    obtain ⟨hx, hbs⟩ := holds_cons.mp h
    have hesi : r.movsb.esi = r.esi + 1 := u32_of_lt (by omega)
    have hedi : r.movsb.edi = r.edi + 1 := u32_of_lt (by omega)
    have hmem : r.movsb.mem = Function.update r.mem r.edi x := by rw [Regs.movsb, hx]
    have hrest : Holds r.movsb.mem r.movsb.esi bs := by
      rw [hmem, hesi]
      exact hbs.update (.inr (by omega))
    obtain ⟨hholds, hframe⟩ := ih hrest (by omega) (by omega)
    rw [hedi] at hholds hframe
    rw [Function.iterate_succ_apply]
    refine ⟨holds_cons.mpr ⟨?_, hholds⟩, fun a ha => ?_⟩
    · rw [hframe _ (.inl (Nat.lt_succ_self _)), hmem, Function.update_self]
    · rw [hframe a (by omega), hmem, Function.update_of_ne (by omega)]

theorem zeroIt_apply (a n b : ℕ) :
    zeroIt a n mem b = if a ≤ b ∧ b < a + n then 0 else mem b := by
  induction n generalizing a mem with
  | zero => rw [zeroIt, if_neg (by omega)]
  | succ n ih =>
    rw [zeroIt, ih]
    by_cases hb : b = a
    · rw [if_neg (by omega), if_pos (by omega), hb, Function.update_self]
    · rw [Function.update_of_ne hb]
      exact if_congr (by omega) rfl rfl

theorem zbufsz_eq {phdr : Elf32Phdr} {bssBegin mapcompressed : ℕ}
    (hlink : phdr.Linked bssBegin mapcompressed) :
    bssBegin + 8 + phdr.zbufsz = mapcompressed := by
  obtain ⟨hbss, hmap, hle, -⟩ := hlink
  have := phdr.pMemsz.toNat_lt
  have h8 : (8 : UInt32).toNat = 8 := rfl
  simp only [Elf32Phdr.zbufsz, UInt32.toNat_sub, h8]
  omega

/-- Where the loader puts what was written behind the stub. -/
theorem holds_of_loaded {phdr : Elf32Phdr} {bssBegin mapcompressed n : ℕ}
    {stubBytes sfx : List UInt8} (hlink : phdr.Linked bssBegin mapcompressed)
    (hstub : stubBytes.length = phdr.stubWsize)
    (hsfx : sfx.length = 8 + n) (hlt : mapcompressed + sfx.length + 4 < 2 ^ 32)
    (hmem : (phdr.extend (.ofNat n)).Loaded (stubBytes ++ sfx) mem) :
    Holds mem bssBegin (sfx ++ List.replicate (phdr.zbufsz + 8 + 4) 0) := by
  have hzbufsz := zbufsz_eq hlink
  obtain ⟨hbss, hmap, hle, hwsize⟩ := hlink
  have hn : (UInt32.ofNat n).toNat = n := UInt32.toNat_ofNat_of_lt (show n < 2 ^ 32 by omega)
  have h8 : (8 : UInt32).toNat = 8 := rfl
  have h4 : (4 : UInt32).toNat = 4 := rfl
  have hfilesz : (phdr.extend (.ofNat n)).pFilesz.toNat = phdr.pFilesz.toNat + sfx.length := by
    simp only [Elf32Phdr.extend, UInt32.toNat_add, hn]
    omega
  have hmemsz : (phdr.extend (.ofNat n)).pMemsz.toNat = phdr.pMemsz.toNat + sfx.length + 4 := by
    simp only [Elf32Phdr.extend, UInt32.toNat_add, hn]
    omega
  have hwritten : phdr.stubWsize = phdr.pOffset.toNat + phdr.pFilesz.toNat := by
    simp only [Elf32Phdr.stubWsize, UInt32.toNat_add]
    omega
  have hdata : (stubBytes.drop phdr.pOffset.toNat).length = phdr.pFilesz.toNat := by
    rw [List.length_drop]
    omega
  have hzeros : phdr.pMemsz.toNat + sfx.length + 4 - (phdr.pFilesz.toNat + sfx.length) =
      phdr.zbufsz + 8 + 4 := by omega
  -- the file from the offset on is the stub's data and what was written behind it
  rw [Elf32Phdr.Loaded, hfilesz, hmemsz, hzeros] at hmem
  simp only [Elf32Phdr.extend] at hmem
  rw [List.drop_append_of_le_length (by omega), List.take_of_length_le
    (by rw [List.length_append]; omega), List.append_assoc, holds_append, hdata, ← hbss] at hmem
  exact hmem.2

/-- After the move the packed file stands in one piece behind the variables, with the zeros
behind it. -/
theorem stubStart_holds {bssBegin z mode : ℕ} {head tail : List UInt8} (htail : tail.length = z)
    (hmem : Holds mem bssBegin (dwordBytes (head ++ tail).length ++ dwordBytes mode ++ tail ++
      head ++ List.replicate (z + 8 + 4) 0))
    (hlt : bssBegin + 8 + z + (head ++ tail).length + 12 ≤ 2 ^ 32) (hmode : mode < 2 ^ 32) :
    (stubStart bssBegin (bssBegin + 8 + z) mem).1 = mode ∧
      Holds (stubStart bssBegin (bssBegin + 8 + z) mem).2 (bssBegin + 8 + z)
        (head ++ tail ++ List.replicate 4 0) := by
  obtain ⟨n, hn⟩ : ∃ n, n = (head ++ tail).length := ⟨_, rfl⟩
  have hhead : head.length + z = n := by rw [hn, List.length_append, htail]
  rw [← hn] at hmem hlt
  -- the parts of the image, from the last to the first
  obtain ⟨hparts, hzeros⟩ := holds_append.mp hmem
  obtain ⟨hparts, hheadMem⟩ := holds_append.mp hparts
  obtain ⟨hparts, htailMem⟩ := holds_append.mp hparts
  obtain ⟨hlenMem, hmodeMem⟩ := holds_append.mp hparts
  simp only [List.length_append, length_dwordBytes, htail] at hzeros hheadMem htailMem
  rw [length_dwordBytes] at hmodeMem
  rw [show bssBegin + (4 + 4 + z) = bssBegin + 8 + z by omega] at hheadMem
  have hcomplen : dword mem bssBegin = n := dword_of_holds hlenMem (by omega)
  have hedi : u32 (bssBegin + 8 + n) = bssBegin + 8 + n := u32_of_lt (by omega)
  obtain ⟨hmoved, hframe⟩ := movsb_move
    (r := ⟨0, z, 0, 0, bssBegin + 8, bssBegin + 8 + n, mem⟩) htailMem
    (by simp only [htail]; omega) (by simp only [htail]; omega)
  simp only [htail] at hmoved hframe
  obtain ⟨mem₁, hmem₁⟩ : ∃ mem₁, mem₁ =
      (Regs.movsb^[z] ⟨0, z, 0, 0, bssBegin + 8, bssBegin + 8 + n, mem⟩).mem := ⟨_, rfl⟩
  rw [← hmem₁] at hmoved hframe
  have hstart : stubStart bssBegin (bssBegin + 8 + z) mem =
      (dword mem₁ (bssBegin + 4), zeroIt bssBegin (z + 8) mem₁) := by
    have hbss : bssBegin + 8 + z - bssBegin = z + 8 := by omega
    simp only [stubStart, hcomplen, hedi, Regs.repMovsb, hmem₁, hbss, Nat.add_sub_cancel]
  have hzero : ∀ a, bssBegin + 8 + z ≤ a → mem₁ a = zeroIt bssBegin (z + 8) mem₁ a := by
    intro a ha
    rw [zeroIt_apply, if_neg (by omega)]
  rw [hstart]
  constructor
  · refine dword_of_holds (hmodeMem.congr fun i hi => (hframe _ (.inl ?_)).symm) hmode
    rw [length_dwordBytes] at hi
    omega
  · have htailAt : bssBegin + 8 + z + head.length = bssBegin + 8 + n := by omega
    have hzerosAt : bssBegin + (4 + 4 + z + head.length) = bssBegin + 8 + n := by omega
    have hendAt : bssBegin + 8 + z + (head ++ tail).length = bssBegin + 8 + n + z := by omega
    refine holds_append.mpr ⟨holds_append.mpr ⟨hheadMem.congr fun i hi => ?_, ?_⟩, ?_⟩
    · exact (hframe (bssBegin + 8 + z + i) (.inl (by omega))).symm.trans (hzero _ (by omega))
    · rw [htailAt]
      exact hmoved.congr fun i _ => hzero (bssBegin + 8 + n + i) (by omega)
    · -- of the zeros those behind the moved tail are left
      rw [hzerosAt, show z + 8 + 4 = z + (4 + 8) by omega, List.replicate_add, List.replicate_add,
        holds_append, holds_append, List.length_replicate] at hzeros
      rw [hendAt]
      exact hzeros.2.1.congr fun i _ =>
        (hframe (bssBegin + 8 + n + z + i) (.inr (by omega))).symm.trans (hzero _ (by omega))

/-! ### Block by block -/

theorem bytes_of_holds {a : ℕ} {bs : List UInt8} (h : Holds mem a bs) :
    bytes mem a bs.length = bs := by
  refine List.ext_getElem? fun i => ?_
  by_cases hi : i < bs.length
  · rw [h i hi, bytes, List.getElem?_map, List.getElem?_range hi]
    rfl
  · rw [List.getElem?_eq_none (by simpa [bytes] using hi), List.getElem?_eq_none (by omega)]

theorem cost_codeEof_pos : 0 < BitBuffer.cost codeEof := by
  rw [codeEof, List.append_assoc, BitBuffer.cost_append]
  exact Nat.add_pos_left Nat.one_pos _

theorem length_pos_of_compress {garbage : Swd} {text w : List UInt8} {level : ℕ}
    (hw : nrv99Compress garbage text level = some w) : 0 < w.length := by
  obtain ⟨ts, -, -, heq⟩ := exists_parse_of_compress hw
  obtain ⟨s, -, hlen⟩ := length_bufferBytes (codeTokens 1 ts ++ codeEof)
  have := cost_codeEof_pos
  rw [BitBuffer.cost_append, ← heq] at hlen
  omega

variable {garbage : ℕ → Swd} {blocksize fuel writebuf eax : ℕ} {out : List UInt8}

/-- One block: the stub writes what it was packed from and goes on behind it. -/
theorem decompressLoop_block {g : Swd} {b x : List UInt8} (hx : packBlock blocksize g b = .ok x)
    (hb : b ≠ []) (hmem : Holds mem eax x)
    (hle : eax + x.length ≤ writebuf) (hlt : writebuf + b.length < 2 ^ 32) :
    ∃ k mem', (∀ fuel, k ≤ fuel → ∀ n out, decompressLoop fuel writebuf (n + 1) mem eax out =
        decompressLoop fuel writebuf n mem' (eax + x.length) (out ++ b)) ∧
      ∀ a, a < writebuf ∨ writebuf + b.length ≤ a → mem' a = mem a := by
  obtain ⟨outbuf, data, hout, hdata, rfl⟩ := packBlock_eq_ok hx
  have hbpos : 0 < b.length := List.length_pos_iff.mpr hb
  have hopos := length_pos_of_compress hout
  have hpos : 0 < data.length := by
    rw [hdata]
    split_ifs <;> assumption
  simp only [List.length_append, length_dwordBytes] at hle ⊢
  obtain ⟨hsizes, hblock⟩ := holds_append.mp hmem
  obtain ⟨hsize, hraw⟩ := holds_append.mp hsizes
  have hsize' : dword mem eax = data.length := dword_of_holds hsize (by omega)
  have hraw' : dword mem (eax + 4) = b.length := dword_of_holds hraw (by omega)
  have hnext : eax + 8 + data.length = eax + (4 + 4 + data.length) := by omega
  simp only [List.length_append, length_dwordBytes] at hblock
  by_cases hstored : b.length ≤ outbuf.length
  · rw [if_pos hstored] at hdata
    subst hdata
    refine ⟨0, mem, fun fuel _ n out => ?_, fun _ _ => rfl⟩
    simp only [decompressLoop, hsize', hraw', if_neg (Nat.ne_of_gt hpos), if_true,
      bytes_of_holds hblock, hnext]
  · rw [if_neg hstored] at hdata
    subst hdata
    obtain ⟨k, r, hrun, hesi, hedi, hholds, hframe⟩ := nrv2eDecompress_of_compress
      hout hblock
      (.inl (by omega : eax + 8 + data.length ≤ writebuf)) (by omega) hlt
    refine ⟨k, r.mem, fun fuel hf n out => ?_, hframe⟩
    have hne : b.length ≠ data.length := by omega
    have hok : ¬(r.esi ≠ eax + (4 + 4 + data.length) ∨ b.length ≠ r.edi - writebuf) := by omega
    rw [decompressLoop]
    simp only [hsize', hraw', if_neg (Nat.ne_of_gt hpos), if_neg hne, hrun fuel hf,
      Option.bind_some, if_neg hok, bytes_of_holds hholds, hnext]

theorem decompressLoop_end (hmem : Holds mem eax (List.replicate 4 0)) (n : ℕ) :
    decompressLoop fuel writebuf (n + 1) mem eax out = some (.extracted out, mem) := by
  have hzero : dword mem eax = 0 := dword_of_holds (n := 0) hmem (by decide)
  rw [decompressLoop]
  simp only [hzero, if_true]

/-- All blocks: what the stub writes is the packed blocks, one behind the other. -/
theorem decompressLoop_blocks {bs : List (List UInt8)} {compressed : List UInt8} {size : ℕ}
    (h : packBlocks blocksize garbage bs = .ok compressed)
    (hne : ∀ b ∈ bs, b ≠ []) (hsize : ∀ b ∈ bs, b.length ≤ size)
    (hmem : Holds mem eax (compressed ++ List.replicate 4 0))
    (hle : eax + compressed.length + 4 ≤ writebuf) (hlt : writebuf + size < 2 ^ 32) :
    ∃ k mem', (∀ fuel, k ≤ fuel → ∀ n out, bs.length < n →
        decompressLoop fuel writebuf n mem eax out = some (.extracted (out ++ bs.flatten), mem')) ∧
      ∀ a, a < writebuf ∨ writebuf + size ≤ a → mem' a = mem a := by
  induction bs generalizing mem eax compressed with
  | nil =>
    obtain rfl : [] = compressed := Except.ok.inj h
    refine ⟨0, mem, fun fuel _ n out hn => ?_, fun _ _ => rfl⟩
    obtain ⟨n, rfl⟩ := Nat.exists_eq_succ_of_ne_zero (Nat.ne_of_gt hn)
    rw [List.flatten_nil, List.append_nil, decompressLoop_end hmem]
  | cons b bs ih =>
    obtain ⟨x, xs, hx, hxs, rfl⟩ := packBlocks_cons h
    have hbsize := hsize b List.mem_cons_self
    rw [List.length_append] at hle
    rw [List.append_assoc, holds_append] at hmem
    obtain ⟨k₁, mem₁, hrun₁, hframe₁⟩ := decompressLoop_block hx
      (hne b List.mem_cons_self) hmem.1 (by omega) (by omega : writebuf + b.length < 2 ^ 32)
    have hmem₁ : Holds mem₁ (eax + x.length) (xs ++ List.replicate 4 0) := by
      refine hmem.2.congr fun i hi => (hframe₁ _ (.inl ?_)).symm
      rw [List.length_append, List.length_replicate] at hi
      omega
    obtain ⟨k₂, mem', hrun₂, hframe₂⟩ := ih hxs
      (fun c hc => hne c (List.mem_cons_of_mem _ hc))
      (fun c hc => hsize c (List.mem_cons_of_mem _ hc)) hmem₁ (by omega)
    refine ⟨max k₁ k₂, mem', fun fuel hf n out hn => ?_, fun a ha => ?_⟩
    · obtain ⟨n, rfl⟩ := Nat.exists_eq_succ_of_ne_zero (Nat.ne_of_gt (Nat.zero_lt_of_lt hn))
      rw [hrun₁ fuel (by omega), hrun₂ fuel (by omega) n (out ++ b) (Nat.lt_of_succ_lt_succ hn),
        List.flatten_cons, List.append_assoc]
    · rw [hframe₂ a ha, hframe₁ a (by omega)]

theorem flatten_readBlocks {blocksize : ℕ} (n : ℕ) (file : List UInt8) (hpos : 0 < blocksize)
    (hn : file.length < n) :
    (readBlocks blocksize n file).flatten = file ∧
      (readBlocks blocksize n file).length ≤ file.length ∧
      ∀ b ∈ readBlocks blocksize n file, b ≠ [] ∧ b.length ≤ (file.take blocksize).length := by
  induction n generalizing file with
  | zero => omega
  | succ n ih =>
    rw [readBlocks]
    by_cases hnil : file.take blocksize = []
    · have hfile : file = [] := by
        rcases List.take_eq_nil_iff.mp hnil with h | h
        · omega
        · exact h
      rw [if_pos hnil]
      exact ⟨hfile.symm, Nat.zero_le _, fun b hb => absurd hb List.not_mem_nil⟩
    · have hlen : (file.take blocksize).length = min blocksize file.length := List.length_take
      have hfpos : 0 < (file.take blocksize).length := List.length_pos_iff.mpr hnil
      have hdrop : (file.drop blocksize).length = file.length - blocksize := List.length_drop
      obtain ⟨hflat, hcount, hall⟩ := ih (file.drop blocksize) (by omega)
      rw [if_neg hnil]
      refine ⟨by rw [List.flatten_cons, hflat, List.take_append_drop], ?_, ?_⟩
      · rw [List.length_cons]
        omega
      · intro b hb
        rcases List.mem_cons.mp hb with rfl | hb
        · exact ⟨hnil, Nat.le_refl _⟩
        · have hlen' : ((file.drop blocksize).take blocksize).length =
            min blocksize (file.drop blocksize).length := List.length_take
          exact ⟨(hall b hb).1, Nat.le_trans (hall b hb).2 (by omega)⟩

/-- The size that the stub allocates is that of the first block. -/
theorem dword_first_block {b : List UInt8} {bs : List (List UInt8)} {compressed : List UInt8}
    (h : packBlocks blocksize garbage (b :: bs) = .ok compressed)
    (hmem : Holds mem eax (compressed ++ List.replicate 4 0)) (hb : b.length < 2 ^ 32) :
    dword mem (eax + 4) = b.length := by
  obtain ⟨x, xs, hx, -, rfl⟩ := packBlocks_cons h
  obtain ⟨outbuf, data, -, -, rfl⟩ := packBlock_eq_ok hx
  obtain ⟨hcomp, -⟩ := holds_append.mp hmem
  obtain ⟨hblock, -⟩ := holds_append.mp hcomp
  obtain ⟨hsizes, -⟩ := holds_append.mp hblock
  exact dword_of_holds (holds_append.mp hsizes).2 hb

/-- A script of sixty bytes. -/
def sixtyBytes : List UInt8 := [0x23, 0x21] ++ List.replicate 58 7

/-- A stub of thirty bytes with eight bytes of variables. -/
def smallPhdr : Elf32Phdr := ⟨10, 4076, 20, 36⟩

end Maitland.Packer
