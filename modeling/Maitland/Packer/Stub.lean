import Mathlib.Logic.Function.Iterate
import Maitland.Library.ByteMemory
import Maitland.Library.Halting

/-!
# The stub

`stub.s`, which stands before the packed program and unpacks it. The decompressor in it is
modelled label by label, with the registers it uses; the parts around it as functions of the
memory.
-/

namespace Maitland.Packer

open ByteMemory Halting

def u32 (n : ℕ) : ℕ := n % 2 ^ 32

/-- `bl` is the low byte of `ebx`. -/
structure Regs where
  eax : ℕ
  ecx : ℕ
  ebp : ℕ
  bl : ℕ
  esi : ℕ
  edi : ℕ
  mem : Memory

/-- The labels of the decompressor that are jumped to or fallen into. -/
inductive Label where
  | decomprStart | decomprLiteral | decomprLoop | decomprMatch | offLoop | offBreak
  | decomprMlen1 | decomprSameOff | decomprGotOff | lenLoop | decomprGotLen | decomprEnd
  deriving DecidableEq, Repr

namespace Regs

/-- `movb (%esi),%bl; incl %esi; adcb %bl,%bl`: the carry is the next bit. -/
def refill (r : Regs) (carry : Bool) : Bool × Regs :=
  let x := (r.mem r.esi).toNat
  (decide (128 ≤ x), { r with bl := (2 * x + carry.toNat) % 256, esi := u32 (r.esi + 1) })

/-- `addb %bl,%bl; jnz ..gotbit;` and otherwise the refill, with the carry of the addition. -/
def getbit (r : Regs) : Bool × Regs :=
  if 2 * r.bl % 256 ≠ 0 then (decide (128 ≤ r.bl), { r with bl := 2 * r.bl % 256 })
  else r.refill (decide (128 ≤ r.bl))

def movsb (r : Regs) : Regs :=
  { r with
    mem := Function.update r.mem r.edi (r.mem r.esi)
    esi := u32 (r.esi + 1)
    edi := u32 (r.edi + 1) }

/-- `rep movsb` -/
def repMovsb (r : Regs) : Regs := { movsb^[r.ecx] r with ecx := 0 }

/-- `adcl %eax,%eax` -/
def adcEax (r : Regs) (carry : Bool) : Regs := { r with eax := u32 (2 * r.eax + carry.toNat) }

/-- `adcl %ecx,%ecx` -/
def adcEcx (r : Regs) (carry : Bool) : Regs := { r with ecx := u32 (2 * r.ecx + carry.toNat) }

end Regs

/-- From one label to the next. -/
def decomprStep : Label × Regs → Option (Label × Regs)
  | (.decomprStart, r) =>
    let (b, r) := r.refill true
    some (if b then .decomprLiteral else .decomprMatch, r)
  | (.decomprLiteral, r) => some (.decomprLoop, r.movsb)
  | (.decomprLoop, r) =>
    let (b, r) := r.getbit
    some (if b then .decomprLiteral else .decomprMatch, r)
  | (.decomprMatch, r) => some (.offLoop, { r with eax := 1 })
  | (.offLoop, r) =>
    let (b, r) := r.getbit
    let (stop, r) := (r.adcEax b).getbit
    if stop then some (.offBreak, r)
    else
      let (b, r) := { r with eax := u32 (r.eax + (2 ^ 32 - 1)) }.getbit
      some (.offLoop, r.adcEax b)
  | (.offBreak, r) =>
    if r.eax < 3 then some (.decomprSameOff, { r with eax := u32 (r.eax + (2 ^ 32 - 3)) })
    else
      -- `shll $8` leaves the low byte to `lodsb`
      let eax := u32 ((r.eax - 3) * 2 ^ 8) + (r.mem r.esi).toNat
      let eax := 2 ^ 32 - 1 - eax
      let r := { r with eax := eax, esi := u32 (r.esi + 1) }
      if eax = 0 then some (.decomprEnd, r)
      else
        -- `sarl` keeps the sign and puts the low bit into the carry
        let off := eax / 2 + eax / 2 ^ 31 * 2 ^ 31
        some (if eax % 2 = 0 then .decomprGotOff else .decomprMlen1,
          { r with eax := off, ebp := off })
  | (.decomprMlen1, r) =>
    let (b, r) := r.getbit
    some (.decomprGotLen, r.adcEcx b)
  | (.decomprSameOff, r) =>
    let (b, r) := r.getbit
    some (if b then .decomprMlen1 else .decomprGotOff, r)
  | (.decomprGotOff, r) =>
    let (b, r) := { r with ecx := u32 (r.ecx + 1) }.getbit
    some (if b then .decomprMlen1 else .lenLoop, r)
  | (.lenLoop, r) =>
    let (b, r) := r.getbit
    let (stop, r) := (r.adcEcx b).getbit
    some (if stop then (.decomprGotLen, { r with ecx := u32 (r.ecx + 2) }) else (.lenLoop, r))
  | (.decomprGotLen, r) =>
    -- `cmpl $-0x500,%ebp` carries for the distances above 0x500
    let ecx := u32 (r.ecx + 2 + if r.ebp < 2 ^ 32 - 0x500 then 1 else 0)
    let esi := r.esi
    some (.decomprLoop,
      { { r with ecx := ecx, esi := u32 (r.edi + r.ebp) }.repMovsb with esi := esi })
  | (.decomprEnd, _) => none

/-- `ucl_nrv2e_decompress_asm_small_8`, with fuel for the steps. -/
def nrv2eDecompress (fuel : ℕ) (mem : Memory) (src dst : ℕ) : Option Regs :=
  (runFuel decomprStep fuel
    (.decomprStart, ⟨0, 0, 2 ^ 32 - 1, 0, src, dst, mem⟩)).map Prod.snd

def bytes (mem : Memory) (a n : ℕ) : List UInt8 := (List.range n).map fun i => mem (a + i)

/-- `zero_it` -/
def zeroIt : ℕ → ℕ → Memory → Memory
  | _, 0, mem => mem
  | eax, n + 1, mem => zeroIt (eax + 1) n (Function.update mem eax 0)

/-- From `_start` to `save_mode`: the part of the packed file that was written first moves behind
the rest, and the place of the variables is cleared. Gives the mode of the file as well. -/
def stubStart (bssBegin mapcompressed : ℕ) (mem : Memory) : ℕ × Memory :=
  let complen := dword mem bssBegin
  let moved := Regs.repMovsb
    { eax := 0, ecx := mapcompressed - bssBegin - 8, ebp := 0, bl := 0, esi := bssBegin + 8,
      edi := u32 (bssBegin + 8 + complen), mem := mem }
  let mode := dword moved.mem (bssBegin + 4)
  (mode, zeroIt bssBegin (mapcompressed - bssBegin) moved.mem)

/-- How the stub ends: with the file written, or at `error`. -/
inductive StubExit where
  | extracted (out : List UInt8)
  | corrupted (out : List UInt8)
  deriving DecidableEq, Repr

/-- `decompress_loop`, where `%eax` is the address of the next block and every write succeeds. -/
def decompressLoop (fuel writebuf : ℕ) :
    ℕ → Memory → ℕ → List UInt8 → Option (StubExit × Memory)
  | 0, _, _, _ => none
  | n + 1, mem, eax, out =>
    let size := dword mem eax
    if size = 0 then some (.extracted out, mem)
    else
      let rawSize := dword mem (eax + 4)
      let readbuf := eax + 8
      if rawSize = size then
        decompressLoop fuel writebuf n mem (readbuf + size) (out ++ bytes mem readbuf rawSize)
      else
        (nrv2eDecompress fuel mem readbuf writebuf).bind fun r =>
          -- `decompr_end` compares the pointer with the end of the block
          if r.esi ≠ readbuf + size ∨ rawSize ≠ r.edi - writebuf then some (.corrupted out, r.mem)
          else
            decompressLoop fuel writebuf n r.mem (readbuf + size)
              (out ++ bytes r.mem writebuf rawSize)

/-- The stub, loaded with its bss at the given place, and `brk` where the heap begins. -/
def stub (fuel bssBegin mapcompressed brk : ℕ) (mem : Memory) : Option (StubExit × Memory) :=
  decompressLoop fuel (brk + 1) fuel (stubStart bssBegin mapcompressed mem).2 mapcompressed []

end Maitland.Packer
