import Maitland.Library.ByteMemory
import Maitland.Packer.Compress

/-!
# exepak

`create_sfx_binary` packs a program block by block and writes the blocks behind the stub, with
their last bytes first. The sizes in the stub's program header it changes in place, in the one
copy of the stub that all files of a run are packed with.
-/

namespace Maitland.Packer

open ByteMemory

/-- Why there is no packed file. An overrun of `outbuf` is not noticed: the compressor has then
written behind it. -/
inductive PackError where
  | invalidFile | internal | overrun | readError | noReduction | notReplaced
  deriving DecidableEq, Repr

/-- `phdr[1]` of the stub, the segment with its data. -/
structure Elf32Phdr where
  pOffset : UInt32
  pVaddr : UInt32
  pFilesz : UInt32
  pMemsz : UInt32
  deriving DecidableEq, Repr

namespace Elf32Phdr

variable (phdr : Elf32Phdr)

/-- What `read_headers` makes of it: how much of the stub is written. -/
def stubWsize : ℕ := (phdr.pOffset + phdr.pFilesz).toNat

/-- The bytes of memory for the stub's variables, less the two numbers that are written. -/
def zbufsz : ℕ := (phdr.pMemsz - phdr.pFilesz - 8).toNat

/-- The data grows by what is written, with a zero behind it that ends the stub's loop. -/
def extend (compressedSize : UInt32) : Elf32Phdr :=
  { phdr with
    pFilesz := phdr.pFilesz + (8 + compressedSize)
    pMemsz := phdr.pMemsz + (8 + compressedSize + 4) }

end Elf32Phdr

def halfword (bs : List UInt8) (i : ℕ) : Option ℕ := do
  let low ← bs[i]?
  let high ← bs[i + 1]?
  return low.toNat + 2 ^ 8 * high.toNat

/-- The checks of `read_headers`: the magic number, `ET_EXEC`, and a header of 52 bytes. -/
def isElf (infile : List UInt8) : Bool :=
  decide (52 ≤ infile.length) && infile.take 4 == [0x7f, 0x45, 0x4c, 0x46] &&
    halfword infile 16 == some 2 && halfword infile 40 == some 52

/-- It begins with `#!`. -/
def isScript (infile : List UInt8) : Bool := infile.take 2 == [0x23, 0x21]

/-- What `fread` gives, one block after the other. -/
def readBlocks (blocksize : ℕ) : ℕ → List UInt8 → List (List UInt8)
  | 0, _ => []
  | n + 1, file =>
    if file.take blocksize = [] then []
    else file.take blocksize :: readBlocks blocksize n (file.drop blocksize)

/-- What is allocated for `outbuf`. -/
def outbufSize (blocksize : ℕ) : ℕ := (blocksize / 8 + blocksize + 256) % 2 ^ 32

/-- The two sizes and the block, as it is if compression does not make it smaller. -/
def packBlock (blocksize : ℕ) (garbage : Swd) (inbuf : List UInt8) :
    Except PackError (List UInt8) :=
  match nrv99Compress garbage inbuf 10 with
  | none => .error .internal
  | some outbuf =>
    if outbufSize blocksize < outbuf.length then .error .overrun
    else
      let frombuf := if inbuf.length ≤ outbuf.length then inbuf else outbuf
      .ok (dwordBytes frombuf.length ++ dwordBytes inbuf.length ++ frombuf)

/-- The memory of the window is allocated anew for every block; it is told apart by how many
blocks are still to come. -/
def packBlocks (blocksize : ℕ) (garbage : ℕ → Swd) :
    List (List UInt8) → Except PackError (List UInt8)
  | [] => .ok []
  | b :: bs => do
    let x ← packBlock blocksize (garbage bs.length) b
    let xs ← packBlocks blocksize garbage bs
    return x ++ xs

/-- What `append_stubfile` writes behind the stub, and the header that it leaves. With fewer bytes
than the stub has for its variables there is no tail, and it fails. -/
def appendStubfile (phdr : Elf32Phdr) (mode : ℕ) (compressed : List UInt8) :
    Except PackError (List UInt8) × Elf32Phdr :=
  let zbufsz := phdr.zbufsz
  (if compressed.length < zbufsz then .error .notReplaced
    else .ok (dwordBytes compressed.length ++ dwordBytes mode ++
      compressed.drop (compressed.length - zbufsz) ++ compressed.take (compressed.length - zbufsz)),
    phdr.extend (.ofNat compressed.length))

/-- The new contents behind the stub, if the file could be packed, and the header for the next
file. -/
def createSfxBinary (garbage : ℕ → Swd) (blocksize : ℕ) (phdr : Elf32Phdr) (mode : ℕ)
    (infile : List UInt8) : Except PackError (List UInt8) × Elf32Phdr :=
  if !(isElf infile || isScript infile) then (.error .invalidFile, phdr)
  else
    let blocks := readBlocks blocksize (infile.length + 1) infile
    match packBlocks blocksize garbage blocks with
    | .error e => (.error e, phdr)
    | .ok compressed =>
      if blocks = [] then (.error .readError, phdr)
      else if infile.length ≤ compressed.length + phdr.stubWsize then (.error .noReduction, phdr)
      else appendStubfile phdr mode compressed

/-- How the stub was linked: its variables begin behind its data, and the packed file behind
them. -/
structure Elf32Phdr.Linked (phdr : Elf32Phdr) (bssBegin mapcompressed : ℕ) : Prop where
  bssBegin_eq : bssBegin = phdr.pVaddr.toNat + phdr.pFilesz.toNat
  mapcompressed_eq : mapcompressed = phdr.pVaddr.toNat + phdr.pMemsz.toNat
  bss_le : bssBegin + 8 ≤ mapcompressed
  wsize_lt : phdr.pOffset.toNat + phdr.pFilesz.toNat < 2 ^ 32

/-- The segment of the file in memory, filled up with zeros. -/
def Elf32Phdr.Loaded (phdr : Elf32Phdr) (file : List UInt8) (mem : Memory) : Prop :=
  Holds mem phdr.pVaddr.toNat ((file.drop phdr.pOffset.toNat).take phdr.pFilesz.toNat ++
    List.replicate (phdr.pMemsz.toNat - phdr.pFilesz.toNat) 0)

theorem length_le_of_mem_readBlocks {blocksize n : ℕ} {file b : List UInt8}
    (hb : b ∈ readBlocks blocksize n file) : b.length ≤ blocksize := by
  induction n generalizing file with
  | zero => exact absurd hb List.not_mem_nil
  | succ n ih =>
    rw [readBlocks] at hb
    split_ifs at hb with hnil
    · exact absurd hb List.not_mem_nil
    · rcases List.mem_cons.mp hb with rfl | hb
      · exact List.length_take_le _ _
      · exact ih hb

theorem packBlocks_cons {blocksize : ℕ} {garbage : ℕ → Swd} {b : List UInt8}
    {bs : List (List UInt8)} {compressed : List UInt8}
    (h : packBlocks blocksize garbage (b :: bs) = .ok compressed) :
    ∃ x xs, packBlock blocksize (garbage bs.length) b = .ok x ∧
      packBlocks blocksize garbage bs = .ok xs ∧ compressed = x ++ xs := by
  rw [packBlocks] at h
  cases hx : packBlock blocksize (garbage bs.length) b with
  | error e =>
    rw [hx] at h
    cases h
  | ok x =>
    cases hxs : packBlocks blocksize garbage bs with
    | error e =>
      rw [hx, hxs] at h
      cases h
    | ok xs =>
      rw [hx, hxs] at h
      exact ⟨x, xs, rfl, rfl, (Except.ok.inj h).symm⟩

theorem packBlock_eq_ok {blocksize : ℕ} {garbage : Swd} {inbuf x : List UInt8}
    (h : packBlock blocksize garbage inbuf = .ok x) :
    ∃ outbuf data, nrv99Compress garbage inbuf 10 = some outbuf ∧
      data = (if inbuf.length ≤ outbuf.length then inbuf else outbuf) ∧
      x = dwordBytes data.length ++ dwordBytes inbuf.length ++ data := by
  rw [packBlock] at h
  split at h
  · cases h
  · next outbuf hout =>
    by_cases hover : outbufSize blocksize < outbuf.length
    · rw [if_pos hover] at h
      cases h
    · rw [if_neg hover] at h
      exact ⟨outbuf, _, hout, rfl, (Except.ok.inj h).symm⟩

theorem appendStubfile_eq_ok {phdr phdr' : Elf32Phdr} {mode : ℕ} {compressed sfx : List UInt8}
    (h : appendStubfile phdr mode compressed = (.ok sfx, phdr')) :
    ∃ head tail, compressed = head ++ tail ∧ tail.length = phdr.zbufsz ∧
      sfx = dwordBytes compressed.length ++ dwordBytes mode ++ tail ++ head ∧
      phdr' = phdr.extend (.ofNat compressed.length) := by
  obtain ⟨hsfx, hphdr⟩ := Prod.mk.inj h
  split_ifs at hsfx with hshort
  exact ⟨_, _, (List.take_append_drop (compressed.length - phdr.zbufsz) compressed).symm,
    by rw [List.length_drop]; omega, (Except.ok.inj hsfx).symm, hphdr.symm⟩

/-- How a file fails before the stub is touched, or gets to it. -/
theorem createSfxBinary_cases (garbage : ℕ → Swd) (blocksize : ℕ) (phdr : Elf32Phdr) (mode : ℕ)
    (infile : List UInt8) :
    (∃ e ∈ [PackError.invalidFile, .readError, .noReduction],
      createSfxBinary garbage blocksize phdr mode infile = (.error e, phdr)) ∨
    (∃ e, packBlocks blocksize garbage (readBlocks blocksize (infile.length + 1) infile) =
        .error e ∧ createSfxBinary garbage blocksize phdr mode infile = (.error e, phdr)) ∨
    ∃ compressed, readBlocks blocksize (infile.length + 1) infile ≠ [] ∧
      packBlocks blocksize garbage (readBlocks blocksize (infile.length + 1) infile) =
        .ok compressed ∧ createSfxBinary garbage blocksize phdr mode infile =
          appendStubfile phdr mode compressed := by
  rw [createSfxBinary]
  by_cases hinvalid : (!(isElf infile || isScript infile)) = true
  · exact .inl ⟨_, by decide, if_pos hinvalid⟩
  · rw [if_neg hinvalid]
    obtain ⟨blocks, hblocks⟩ :
      ∃ blocks, blocks = readBlocks blocksize (infile.length + 1) infile := ⟨_, rfl⟩
    simp only [← hblocks]
    cases hcomp : packBlocks blocksize garbage blocks with
    | error e => exact .inr (.inl ⟨e, rfl, rfl⟩)
    | ok compressed =>
      by_cases hnil : blocks = []
      · exact .inl ⟨_, by decide, if_pos hnil⟩
      · by_cases hsmall : infile.length ≤ compressed.length + phdr.stubWsize
        · exact .inl ⟨_, by decide, (if_neg hnil).trans (if_pos hsmall)⟩
        · exact .inr (.inr ⟨compressed, hnil, rfl, (if_neg hnil).trans (if_neg hsmall)⟩)

theorem createSfxBinary_eq_ok {garbage : ℕ → Swd} {blocksize mode : ℕ} {phdr phdr' : Elf32Phdr}
    {infile sfx : List UInt8}
    (h : createSfxBinary garbage blocksize phdr mode infile = (.ok sfx, phdr')) :
    ∃ compressed, readBlocks blocksize (infile.length + 1) infile ≠ [] ∧
      packBlocks blocksize garbage (readBlocks blocksize (infile.length + 1) infile) =
        .ok compressed ∧ appendStubfile phdr mode compressed = (.ok sfx, phdr') := by
  rcases createSfxBinary_cases garbage blocksize phdr mode infile with
    ⟨e, -, heq⟩ | ⟨e, -, heq⟩ | ⟨compressed, hread, hcomp, heq⟩
  · cases (Prod.mk.inj (heq.symm.trans h)).1
  · cases (Prod.mk.inj (heq.symm.trans h)).1
  · exact ⟨compressed, hread, hcomp, heq.symm.trans h⟩

/-- Once a file was packed the header is not that of the stub as it was linked any more, so that
the sizes the next file gets are others. -/
theorem not_linked_of_createSfxBinary {garbage : ℕ → Swd} {blocksize mode bssBegin
    mapcompressed : ℕ} {phdr phdr' : Elf32Phdr} {infile sfx : List UInt8}
    (hpack : createSfxBinary garbage blocksize phdr mode infile = (.ok sfx, phdr'))
    (hlen : sfx.length < 2 ^ 32) (hlink : phdr.Linked bssBegin mapcompressed) :
    ¬phdr'.Linked bssBegin mapcompressed := by
  obtain ⟨compressed, -, -, happend⟩ := createSfxBinary_eq_ok hpack
  obtain ⟨head, tail, hsplit, -, hsfx, rfl⟩ := appendStubfile_eq_ok happend
  have hsize : sfx.length = 8 + compressed.length := by
    rw [hsfx, hsplit]
    simp only [List.length_append, length_dwordBytes]
    omega
  intro hlink'
  have heq := hlink.bssBegin_eq.symm.trans hlink'.bssBegin_eq
  have hofNat : (UInt32.ofNat compressed.length).toNat = compressed.length :=
    UInt32.toNat_ofNat_of_lt (show compressed.length < 2 ^ 32 by omega)
  simp only [Elf32Phdr.extend, UInt32.toNat_add, hofNat] at heq
  have := phdr.pFilesz.toNat_lt
  have h8 : (8 : UInt32).toNat = 8 := rfl
  omega

end Maitland.Packer
