import Maitland.Library.Lz77
import Maitland.Packer.BitBuffer
import Maitland.Packer.Prefix
import Maitland.Packer.Window

/-!
# The compressor

`ucl_nrv_99_compress` as it is built for NRV2E and called without a configuration of its own.
What the memory of the window has in it before is a parameter.
-/

namespace Maitland.Packer

open BitStream Lz77

def m2MaxOffset : ℕ := 0x500

/-- `m_off > M2_MAX_OFFSET` -/
def farOff (mOff : ℕ) : ℕ := if m2MaxOffset < mOff then 1 else 0

theorem farOff_cases (mOff : ℕ) :
    m2MaxOffset < mOff ∧ farOff mOff = 1 ∨ mOff ≤ m2MaxOffset ∧ farOff mOff = 0 := by
  by_cases h : m2MaxOffset < mOff
  · exact .inl ⟨h, if_pos h⟩
  · exact .inr ⟨Nat.not_lt.mp h, if_neg h⟩

/-- What `code_match` puts. The loop at its head cuts matches that are longer than
`conf.max_match`, which is `UCL_UINT_MAX` here. -/
def codeMatch (lastMOff mLen mOff : ℕ) : List Item :=
  let mLen := mLen - 1 - farOff mOff
  let mLow := decide (mLen ≤ 2)
  [.bit false] ++
    (if mOff = lastMOff then [.bit false, .bit true, .bit mLow]
    else codePrefixSs12 (1 + (mOff - 1) / 2 ^ 7) ++
      [.byte (.ofNat (((mOff - 1) &&& 0x7f) <<< 1 ||| mLow.toNat ^^^ 1))]) ++
    (if mLow then [.bit (mLen - 1 != 0)]
    else if mLen ≤ 4 then [.bit true, .bit (mLen - 3 != 0)]
    else [.bit false] ++ codePrefixSs11 (mLen - 5))

def codeRun (text : List UInt8) (ii lit : ℕ) : List Item :=
  ((text.drop ii).take lit).flatMap fun x => [.bit true, .byte x]

/-- The loops of `len_of_coded_match`: `step` bits each time the number is not used up. -/
def codedBits (step base : ℕ) : ℕ → ℕ → ℤ
  | 0, _ => 0
  | n + 1, x => if 0 < x then step + codedBits step base n (x / base) else 0

def lenOfCodedMatch (lastMOff mLen mOff : ℕ) : ℤ :=
  if mLen < 2 ∨ mLen = 2 ∧ m2MaxOffset < mOff then -1
  else
    let mLen := mLen - 2 - farOff mOff
    let b := if mOff = lastMOff then 1 + 2 else 1 + 9 + codedBits 3 4 32 ((mOff - 1) / 2 ^ 7)
    let b := b + 2
    if mLen < 2 then b
    else if mLen < 4 then b + 1
    else b + 2 + codedBits 2 2 32 ((mLen - 4) / 2)

/-- The columns of `swd_config`, less the flags, which only an option that is not built looks at. -/
structure SwdConfig where
  tryLazy : ℕ
  goodLength : ℕ
  maxLazy : ℕ
  niceLength : ℕ
  maxChain : ℕ
  maxOffset : ℕ
  deriving DecidableEq, Repr

def swdConfig : List SwdConfig :=
  [⟨0, 0, 0, 8, 4, 48 * 1024⟩, ⟨0, 0, 0, 16, 8, 48 * 1024⟩, ⟨0, 0, 0, 32, 16, 48 * 1024⟩,
    ⟨1, 4, 4, 16, 16, 48 * 1024⟩, ⟨1, 8, 16, 32, 32, 48 * 1024⟩, ⟨1, 8, 16, 128, 128, 48 * 1024⟩,
    ⟨2, 8, 32, 128, 256, 128 * 1024⟩, ⟨2, 32, 128, swdF, 2048, 128 * 1024⟩,
    ⟨2, 32, 128, swdF, 2048, 256 * 1024⟩, ⟨2, swdF, swdF, swdF, 4096, swdN⟩]

structure Compress where
  bb : BitBuffer
  look : ℕ
  mLen : ℕ
  mOff : ℕ
  lastMOff : ℕ
  bp : ℕ
  swd : Swd

/-- `s->max_chain = n` -/
def Compress.withChain (c : Compress) (n : ℕ) : Compress :=
  { c with swd := { c.swd with maxChain := n } }

section

variable (garbage : Swd) (text : List UInt8)

def findMatch (c : Compress) (thisLen skip : ℕ) : Compress :=
  let s := if 0 < skip then c.swd.accept text (thisLen - skip) else c.swd
  let s := { s with mLen := swdThreshold }.findbest
  let c := { c with mLen := s.mLen, mOff := s.mOff }
  let s := s.getbyte text
  let c := if s.bChar.isNone then { c with look := 0, mLen := 0 } else { c with look := s.look + 1 }
  { c with bp := s.cip - c.look, swd := s }

/-- The loop that tries a later match: whether it found one, how far ahead it is, and the state
after the searches. It goes round at most as often as its last but two argument says. -/
def lazyMatch (sc : SwdConfig) (mLen : ℕ) (l1 : ℤ) : ℕ → ℕ → Compress → Bool × ℕ × Compress
  | 0, ahead, c => (false, ahead, c)
  | n + 1, ahead, c =>
    if mLen < c.look then
      let c := findMatch text
        (c.withChain (if sc.goodLength ≤ mLen then sc.maxChain >>> 2 else sc.maxChain)) 1 0
      let ahead := ahead + 1
      let l2 := lenOfCodedMatch c.lastMOff c.mLen c.mOff
      if c.mLen < 2 then lazyMatch sc mLen l1 n ahead c
      else if l2 < 0 then lazyMatch sc mLen l1 n ahead c
      else if l2 + ahead * 9 < l1 + (ahead + c.mLen - mLen) * 5 then (true, ahead, c)
      else lazyMatch sc mLen l1 n ahead c
    else (false, ahead, c)

/-- The main loop, with the start and the length of the run of literals that is not put yet. -/
def mainLoop (sc : SwdConfig) : ℕ → ℕ → ℕ → Compress → Option (ℕ × ℕ × Compress)
  | 0, _, _, _ => none
  | n + 1, ii, lit, c =>
    if c.look = 0 then some (ii, lit, c)
    else
      let ii := if lit = 0 then c.bp else ii
      if c.mLen < 2 ∨ c.mLen = 2 ∧ m2MaxOffset < c.mOff then
        mainLoop sc n ii (lit + 1) (findMatch text (c.withChain sc.maxChain) 1 0)
      else
        let eager := sc.tryLazy = 0 ∨ sc.maxLazy ≤ c.mLen ∨ c.mOff = c.lastMOff
        let l1 := if eager then 0 else lenOfCodedMatch c.lastMOff c.mLen c.mOff
        let maxAhead := if eager then 0 else min sc.tryLazy (c.mLen - 1)
        match lazyMatch text sc c.mLen l1 maxAhead 0 c with
        | (true, ahead, c') => mainLoop sc n ii (lit + ahead) c'
        | (false, ahead, c') =>
          let bb := (c'.bb.puts (codeRun text ii lit)).puts (codeMatch c'.lastMOff c.mLen c.mOff)
          mainLoop sc n ii 0 (findMatch text
            ({ c' with bb := bb, lastMOff := c.mOff }.withChain sc.maxChain) c.mLen (1 + ahead))

/-- The last bits: a distance that no match has. -/
def codeEof : List Item := [.bit false] ++ codePrefixSs12 0x1000000 ++ [.byte 0xff]

/-- The window, with its size and how it searches set for the level. -/
def swdSetup (sc : SwdConfig) : Option Swd :=
  let n := min swdN sc.maxOffset
  let n := if text.length < n then max text.length 256 else n
  if swdF < 8 ∨ n < 256 then none
  else (Swd.init text { garbage with f := swdF, n := n }).map fun s => { s with
    maxChain := if 0 < sc.maxChain then sc.maxChain else s.maxChain
    niceLength := if 0 < sc.niceLength then sc.niceLength else s.niceLength }

/-- The output, if the level is one of the ten. -/
def nrv99Compress (level : ℕ) : Option (List UInt8) :=
  if level < 1 ∨ 10 < level then none
  else do
    let sc ← swdConfig[level - 1]?
    let s ← swdSetup garbage text sc
    let c := findMatch text ⟨.init, 0, 0, 0, 1, 0, s⟩ 0 0
    let (ii, lit, c) ← mainLoop text sc (text.length + 1) 0 0 c
    let bb := (c.bb.puts (codeRun text ii lit)).puts codeEof
    some (bb.bbFlushBits false).out

end

end Maitland.Packer
