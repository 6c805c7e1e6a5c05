import Mathlib.Algebra.Group.Nat.Defs
import Maitland.Library.SlidingWindow

/-!
# The sliding window

`ucl_swd.ch`, which finds the matches: a circular buffer of the bytes before and after the place,
and hash chains through the places whose three bytes hash to the same value. The memory of the
window is not cleared when it is allocated. There is no dictionary.
-/

namespace Maitland.Packer

open SlidingWindow

/-- `SWD_F`, the longest match the window looks for. -/
def swdF : ℕ := 2048

/-- `SWD_N`, the size of the window. -/
def swdN : ℕ := 8 * 1024 * 1024

def swdThreshold : ℕ := 1

def swdMaxChain : ℕ := 2048

/-- `NIL2`, of which all four bytes are `0xff`. -/
def nil2 : ℕ := 2 ^ 32 - 1

/-- `HEAD3`, computed in 32 bits. -/
def head3 (b : ℕ → UInt8) (p : ℕ) : ℕ :=
  let x := ((b p).toNat <<< 5 ^^^ (b (p + 1)).toNat) <<< 5 ^^^ (b (p + 2)).toNat
  (0x9f5f * x % 2 ^ 32) >>> 5 &&& 0xffff

def head2 (b : ℕ → UInt8) (p : ℕ) : ℕ := (b p).toNat ^^^ (b (p + 1)).toNat <<< 8

/-- `ucl_swd_t`. The input pointer `c->ip` is a place in the text, and no byte is the `-1` of
`b_char`. -/
structure Swd where
  n : ℕ
  f : ℕ
  maxChain : ℕ
  niceLength : ℕ
  mLen : ℕ
  mOff : ℕ
  look : ℕ
  bChar : Option UInt8
  cip : ℕ
  mPos : ℕ
  ip : ℕ
  bp : ℕ
  rp : ℕ
  bSize : ℕ
  nodeCount : ℕ
  b : ℕ → UInt8
  head3 : ℕ → ℕ
  succ3 : ℕ → ℕ
  best3 : ℕ → ℕ
  llen3 : ℕ → ℕ
  head2 : ℕ → ℕ

/-- A window whose memory was cleared. -/
def zeroed : Swd :=
  ⟨0, 0, 0, 0, 0, 0, 0, none, 0, 0, 0, 0, 0, 0, 0, fun _ => 0, fun _ => 0, fun _ => 0, fun _ => 0,
    fun _ => 0, fun _ => 0⟩

/-- A pointer into the buffer moves on. -/
def wrap (size p : ℕ) : ℕ := if p + 1 = size then 0 else p + 1

namespace Swd

variable (text : List UInt8)

/-- `swd_init`, from what the memory has in it. -/
def init (s : Swd) : Option Swd :=
  let n := if s.n = 0 then swdN else s.n
  let f := if s.f = 0 then swdF else s.f
  if swdN < n ∨ swdF < f then none
  else if 2 ^ 32 - 1 ≤ n + f + f then none
  else
    let look := min f text.length
    let rp := 0
    some { s with
      n := n
      f := f
      maxChain := swdMaxChain
      niceLength := f
      bSize := n + f
      nodeCount := n
      llen3 := fun _ => 0
      head2 := fun _ => nil2
      bp := 0
      look := look
      b := fun i => if i < look then text.getD i 0 else s.b i
      cip := look
      ip := if look = n + f then 0 else look
      rp := if n ≤ rp then rp - n else rp + (n + f - n) }

/-- `swd_pos2off` -/
def pos2off (s : Swd) (pos : ℕ) : ℕ := if pos < s.bp then s.bp - pos else s.bSize - (pos - s.bp)

def getbyte (s : Swd) : Swd :=
  let s := match text[s.cip]? with
    | none => { s with look := s.look - 1 }
    | some c =>
      let b := Function.update s.b s.ip c
      { s with
        cip := s.cip + 1
        b := if s.ip < s.f then Function.update b (s.bSize + s.ip) c else b }
  { s with ip := wrap s.bSize s.ip, bp := wrap s.bSize s.bp, rp := wrap s.bSize s.rp }

def removeNode (s : Swd) (node : ℕ) : Swd :=
  if s.nodeCount = 0 then
    let key := Packer.head3 s.b node
    let key2 := Packer.head2 s.b node
    { s with
      llen3 := Function.update s.llen3 key (s.llen3 key - 1)
      head2 := if s.head2 key2 = node then Function.update s.head2 key2 nil2 else s.head2 }
  else { s with nodeCount := s.nodeCount - 1 }

/-- The loop of `swd_accept`. -/
def accept : ℕ → Swd → Swd
  | 0, s => s
  | n + 1, s =>
    let s := s.removeNode s.rp
    let key := Packer.head3 s.b s.bp
    let s := { s with
      succ3 := Function.update s.succ3 s.bp (s.head3 key)
      head3 := Function.update s.head3 key s.bp
      best3 := Function.update s.best3 s.bp (s.f + 1)
      llen3 := Function.update s.llen3 key (s.llen3 key + 1)
      head2 := Function.update s.head2 (Packer.head2 s.b s.bp) s.bp }
    accept n (s.getbyte text)

/-- The loop of `swd_search`. The third byte is taken to be equal if the hash and the first two
are. -/
def search (s : Swd) (node : ℕ) : ℕ → Swd
  | 0 => s
  | cnt + 1 =>
    if s.b (node + (s.mLen - 1)) = s.b (s.bp + (s.mLen - 1)) ∧
        s.b (node + s.mLen) = s.b (s.bp + s.mLen) ∧ s.b node = s.b s.bp ∧
        s.b (node + 1) = s.b (s.bp + 1) then
      let i := agree s.b s.bp node (s.look - 3) 3
      if s.mLen < i then
        let s := { s with mLen := i, mPos := node }
        if i = s.look ∨ s.niceLength ≤ i ∨ s.best3 node < i then s
        else search s (s.succ3 node) cnt
      else search s (s.succ3 node) cnt
    else search s (s.succ3 node) cnt

def search2 (s : Swd) : Bool × Swd :=
  let key := s.head2 (Packer.head2 s.b s.bp)
  if key = nil2 then (false, s)
  else if s.mLen < 2 then (true, { s with mLen := 2, mPos := key })
  else (true, s)

/-- The part of `swd_findbest` that looks for the match, in a chain that begins at `node` and no
farther than `cnt`. -/
def longest (s : Swd) (node cnt : ℕ) : Swd :=
  let len := s.mLen
  if s.look ≤ s.mLen then
    { s with
      bChar := if s.look = 0 then none else s.bChar
      mOff := 0
      best3 := Function.update s.best3 s.bp (s.f + 1) }
  else
    let (found, s) := s.search2
    let s := if found ∧ 3 ≤ s.look then s.search node cnt else s
    { s with
      mOff := if len < s.mLen then s.pos2off s.mPos else s.mOff
      best3 := Function.update s.best3 s.bp s.mLen }

def findbest (s : Swd) : Swd :=
  let key := Packer.head3 s.b s.bp
  let node := s.head3 key
  let cnt := s.llen3 key
  let s := { s with
    succ3 := Function.update s.succ3 s.bp node
    llen3 := Function.update s.llen3 key (cnt + 1)
    head3 := Function.update s.head3 key s.bp
    bChar := some (s.b s.bp) }
  let s := s.longest node (if s.maxChain < cnt ∧ 0 < s.maxChain then s.maxChain else cnt)
  let s := s.removeNode s.rp
  { s with head2 := Function.update s.head2 (Packer.head2 s.b s.bp) s.bp }

end Swd

end Maitland.Packer
