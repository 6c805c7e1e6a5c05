import Maitland.Packer.Compress
import Maitland.Packer.WindowSearch

/-!
# The compressor's parse

The window finds only matches that are there, whatever was in its memory, and so the output is
the code of a parse of the whole input.
-/

namespace Maitland.Packer

open BitStream Lz77

/-! ### The parts of a match -/

/-- The part of the code of a match that has the distance. -/
def offItems (last off : ℕ) (low : Bool) : List Item :=
  if off = last then [.bit false, .bit true, .bit low]
  else codePrefixSs12 (1 + (off - 1) / 2 ^ 7) ++
    [.byte (.ofNat (((off - 1) &&& 0x7f) <<< 1 ||| low.toNat ^^^ 1))]

/-- The part of the code of a match that has the length, less what the distance tells of it. -/
def lenItems (n : ℕ) : List Item :=
  if n ≤ 2 then [.bit (n - 1 != 0)]
  else if n ≤ 4 then [.bit true, .bit (n - 3 != 0)]
  else [.bit false] ++ codePrefixSs11 (n - 5)

theorem codeMatch_eq (last len off : ℕ) :
    codeMatch last len off = .bit false :: (offItems last off (decide (len - 1 - farOff off ≤ 2)) ++
      lenItems (len - 1 - farOff off)) := by
  simp only [codeMatch, offItems, lenItems, decide_eq_true_eq, List.cons_append, List.nil_append]

/-! ### The parse -/

/-- The code of a parse, with the distance of the copy before it. -/
def codeTokens : ℕ → List (Token UInt8) → List Item
  | _, [] => []
  | last, .literal x :: ts => [.bit true, .byte x] ++ codeTokens last ts
  | last, .copy off len :: ts => codeMatch last len off ++ codeTokens off ts

/-- The copies that `code_match` is called for. -/
def Codable : Token UInt8 → Prop
  | .literal _ => True
  | .copy off len => 2 ≤ len ∧ (len = 2 → off ≤ m2MaxOffset) ∧ off ≤ swdN ∧ len ≤ swdF

/-- A match that is there, is in the window and is not longer than the search looks. -/
structure Found (text : List UInt8) (pos len off : ℕ) : Prop where
  repeats : Repeats text pos off len
  off_le : off ≤ swdN
  len_le : len ≤ swdF

instance (text : List UInt8) (pos len off : ℕ) : Decidable (Found text pos len off) :=
  decidable_of_iff (Repeats text pos off len ∧ off ≤ swdN ∧ len ≤ swdF)
    ⟨fun h => ⟨h.1, h.2.1, h.2.2⟩, fun h => ⟨h.repeats, h.off_le, h.len_le⟩⟩

def runTokens (text : List UInt8) (ii lit : ℕ) : List (Token UInt8) :=
  ((text.drop ii).take lit).map .literal

theorem codeTokens_literals (last : ℕ) (xs : List UInt8) (ts : List (Token UInt8)) :
    codeTokens last (xs.map .literal ++ ts) =
      xs.flatMap (fun x => [.bit true, .byte x]) ++ codeTokens last ts := by
  induction xs with
  | nil => rfl
  | cons x xs ih => simp only [List.map_cons, List.cons_append, codeTokens, ih, List.flatMap_cons,
      List.nil_append]

theorem codeTokens_runTokens (text : List UInt8) (ii lit last : ℕ) (ts : List (Token UInt8)) :
    codeTokens last (runTokens text ii lit ++ ts) =
      codeRun text ii lit ++ codeTokens last ts := codeTokens_literals last _ ts

theorem covers_runTokens {text : List UInt8} {ii lit : ℕ} {ts : List (Token UInt8)}
    (hle : ii + lit ≤ text.length) (h : Covers text (ii + lit) ts) :
    Covers text ii (runTokens text ii lit ++ ts) := by
  induction lit generalizing ii with
  | zero => simpa [runTokens] using h
  | succ lit ih =>
    have hlt : ii < text.length := by omega
    have hrun : runTokens text ii (lit + 1) = .literal text[ii] :: runTokens text (ii + 1) lit := by
      rw [runTokens, List.drop_eq_getElem_cons hlt]
      rfl
    rw [hrun]
    exact ⟨List.getElem?_eq_getElem hlt,
      ih (by omega) (by rwa [show ii + 1 + lit = ii + (lit + 1) by omega])⟩

theorem codable_of_mem_runTokens {text : List UInt8} {ii lit : ℕ} {t : Token UInt8}
    (h : t ∈ runTokens text ii lit) : Codable t := by
  obtain ⟨x, -, rfl⟩ := List.mem_map.mp h
  trivial

/-! ### The searches -/

/-- The window that the compressor has set up stands at a place. -/
structure Stands (text : List UInt8) (s : Swd) (pos : ℕ) : Prop where
  tracks : ∃ best, Tracks text best s pos
  n_le : s.n ≤ swdN
  f_eq : s.f = swdF

/-- The state after a search: `look` tells how far the window sees and the match is there. -/
structure Searched (text : List UInt8) (c : Compress) : Prop where
  bp_le : c.bp ≤ text.length
  look_le : c.look ≤ text.length - c.bp
  look_pos : c.bp < text.length → 0 < c.look
  stands : c.bp < text.length → Stands text c.swd (c.bp + 1)
  genuine : 2 ≤ c.mLen → Found text c.bp c.mLen c.mOff

theorem Stands.withChain {text : List UInt8} {c : Compress} {pos : ℕ} (h : Stands text c.swd pos)
    (n : ℕ) : Stands text (c.withChain n).swd pos := by
  obtain ⟨⟨best, hs, hi⟩, hn, hf⟩ := h
  exact ⟨⟨best, hs.tables .., ⟨hi.nodeCount, hi.chained, hi.latest, hi.best3⟩⟩, hn, hf⟩

/-- Before a place is searched no match is known. -/
theorem Tracks.reset {text : List UInt8} {best : ℕ → ℕ} {s : Swd} {pos : ℕ}
    (h : Tracks text best s pos) : Tracks text best { s with mLen := swdThreshold } pos := by
  obtain ⟨hs, hi⟩ := h
  exact ⟨hs.tables .., ⟨hi.nodeCount, hi.chained, hi.latest, hi.best3⟩⟩

/-- What the text has at a place is there. -/
theorem Agrees.found {text : List UInt8} {n look pos : ℕ} {m : ℕ × ℕ}
    (h : Agrees text n look pos m) (hn : n ≤ swdN) (hf : look ≤ swdF)
    (hlook : look ≤ text.length - pos) : Found text pos m.1 (pos - m.2) := by
  obtain ⟨htwo, hle, hwindow, hlt, heq⟩ := h
  refine ⟨⟨by omega, Nat.sub_le _ _, by omega, fun i hi => ?_⟩, by omega, by omega⟩
  rw [show pos + i - (pos - m.2) = m.2 + i by omega, byteAt_eq (by omega), byteAt_eq (by omega),
    heq i hi]

section

variable {text : List UInt8}

theorem getbyte_bChar (s : Swd) : (s.getbyte text).bChar = s.bChar := by
  rw [Swd.getbyte]
  split <;> rfl

/-- One call of `find_match` before the end of the text. -/
theorem findMatch_eq {best : ℕ → ℕ} {c : Compress} {next : ℕ} (h : Tracks text best c.swd next)
    (thisLen skip : ℕ) {k : ℕ} (hk : (if 0 < skip then thisLen - skip else 0) = k)
    (hlt : next + k < text.length) :
    ∃ m best', m = plainMatch text (min c.swd.f (text.length - (next + k))) c.swd.niceLength
        (bestAccept c.swd.f best next k) (next + k) c.swd.n c.swd.maxChain ∧
      best' = Function.update (bestAccept c.swd.f best next k) (next + k)
        (if min c.swd.f (text.length - (next + k)) < 2 then c.swd.f + 1 else plainLen m) ∧
      Tracks text best' (findMatch text c thisLen skip).swd (next + k + 1) ∧
      Kept c.swd (findMatch text c thisLen skip).swd ∧
      (findMatch text c thisLen skip).look =
        min c.swd.f (text.length - (next + k + 1)) + 1 ∧
      (findMatch text c thisLen skip).mLen = plainLen m ∧
      (∀ m', m = some m' → (findMatch text c thisLen skip).mOff = next + k - m'.2) ∧
      (findMatch text c thisLen skip).bp = next + k ∧
      (findMatch text c thisLen skip).bb = c.bb ∧
      (findMatch text c thisLen skip).lastMOff = c.lastMOff := by
  have hacc : (if 0 < skip then c.swd.accept text (thisLen - skip) else c.swd) =
      c.swd.accept text k := by
    rw [← hk]
    split_ifs <;> rfl
  obtain ⟨hat, hkept⟩ := h.accept k (Nat.le_of_lt hlt)
  obtain ⟨s₁, hs₁⟩ : ∃ s₁ : Swd, { c.swd.accept text k with mLen := swdThreshold } = s₁ := ⟨_, rfl⟩
  have hat₁ := hat.reset
  have hkept₁ : Kept c.swd s₁ := by
    rw [← hs₁]
    exact ⟨hkept.n, hkept.f, hkept.maxChain, hkept.niceLength⟩
  rw [hs₁] at hat₁
  obtain ⟨m, hm, hnext, hkept', hlen, hoff, hchar⟩ := hat₁.findbest hlt (by rw [← hs₁])
  have hlook : s₁.look = min c.swd.f (text.length - (next + k)) := by
    rw [hat₁.sees.look, hkept₁.f]
  rw [hlook, hkept₁.niceLength, hkept₁.n, hkept₁.maxChain] at hm
  rw [hlook, hkept₁.f] at hnext
  have hkeeps : Kept c.swd (s₁.findbest.getbyte text) :=
    hkept₁.trans (hkept'.trans (kept_getbyte _))
  have hlook' := hnext.sees.look
  have hcip := hnext.sees.cip
  rw [hkeeps.f] at hlook' hcip
  have hsome : (s₁.findbest.getbyte text).bChar.isNone = false := by
    rw [getbyte_bChar, Option.isNone_eq_false_iff]
    exact hchar
  have hfind : findMatch text c thisLen skip =
      { c with
        mLen := plainLen m
        mOff := s₁.findbest.mOff
        look := (s₁.findbest.getbyte text).look + 1
        bp := (s₁.findbest.getbyte text).cip - ((s₁.findbest.getbyte text).look + 1)
        swd := s₁.findbest.getbyte text } := by
    simp only [findMatch, hacc, hs₁, hlen, hsome, Bool.false_eq_true, if_false]
  rw [hfind]
  refine ⟨m, _, hm, rfl, hnext, hkeeps, ?_, rfl, hoff, ?_, rfl, rfl⟩
  · simp only [hlook']
  · simp only [hlook', hcip]
    omega

/-- The call of `find_match` that comes to the end of the text. -/
theorem findMatch_end {best : ℕ → ℕ} {c : Compress} {next : ℕ} (h : Tracks text best c.swd next)
    (thisLen skip : ℕ) {k : ℕ} (hk : (if 0 < skip then thisLen - skip else 0) = k)
    (heq : next + k = text.length) :
    (findMatch text c thisLen skip).look = 0 ∧ (findMatch text c thisLen skip).mLen = 0 ∧
      (findMatch text c thisLen skip).bp = text.length ∧
      (findMatch text c thisLen skip).bb = c.bb ∧
      (findMatch text c thisLen skip).lastMOff = c.lastMOff := by
  have hacc : (if 0 < skip then c.swd.accept text (thisLen - skip) else c.swd) =
      c.swd.accept text k := by
    rw [← hk]
    split_ifs <;> rfl
  obtain ⟨hat, -⟩ := h.accept k (Nat.le_of_eq heq)
  rw [heq] at hat
  obtain ⟨hchar, hcip⟩ := hat.reset.findbest_end
  simp only [findMatch, hacc, getbyte_bChar, hchar, Option.isNone_none, if_true, hcip,
    Nat.sub_zero, and_self]

theorem searched_findMatch {c : Compress} {next : ℕ} (h : Stands text c.swd next)
    (thisLen skip place : ℕ)
    (hplace : (if 0 < skip then next + (thisLen - skip) else next) = place)
    (hle : place ≤ text.length) :
    Searched text (findMatch text c thisLen skip) ∧
      (findMatch text c thisLen skip).bp = place ∧
      (findMatch text c thisLen skip).bb = c.bb ∧
      (findMatch text c thisLen skip).lastMOff = c.lastMOff := by
  obtain ⟨⟨best, htracks⟩, hn, hf⟩ := h
  have hk : next + (if 0 < skip then thisLen - skip else 0) = place := by
    rw [← hplace]
    split_ifs <;> rfl
  generalize hkk : (if 0 < skip then thisLen - skip else 0) = k at hk
  by_cases hlt : place < text.length
  · obtain ⟨m, best', hm, -, hnext, hkept, hlook, hlen, hoff, hbp, hbb, hlast⟩ :=
      findMatch_eq htracks thisLen skip hkk (hk ▸ hlt)
    rw [hk] at hm hnext hlook hoff hbp
    refine ⟨⟨by omega, by omega, fun _ => by omega, fun _ => ?_, fun h2 => ?_⟩, hbp, hbb, hlast⟩
    · rw [hbp]
      exact ⟨⟨best', hnext⟩, hkept.n ▸ hn, hkept.f ▸ hf⟩
    · cases m with
      | none =>
        rw [hlen] at h2
        exact absurd h2 (by decide)
      | some m =>
        rw [hbp, hlen, hoff m rfl]
        exact (agrees_plainMatch hm.symm).found hn (hf ▸ Nat.min_le_left _ _)
          (Nat.min_le_right _ _)
  · have heq : place = text.length := Nat.le_antisymm hle (Nat.not_lt.mp hlt)
    obtain ⟨hlook, hlen, hbp, hbb, hlast⟩ := findMatch_end htracks thisLen skip hkk (hk.trans heq)
    refine ⟨⟨by omega, by omega, fun h => by omega, fun h => by omega, fun h2 => by omega⟩,
      hbp.trans heq.symm, hbb, hlast⟩

/-- Trying a later match moves on by as many bytes as it is ahead, and stays within the input. -/
theorem lazyMatch_spec (sc : SwdConfig) {mLen : ℕ} (l1 : ℤ) (n ahead : ℕ) (c : Compress)
    (hm : 0 < mLen) (hc : Searched text c) :
    ∃ b d c', lazyMatch text sc mLen l1 n ahead c = (b, ahead + d, c') ∧ d ≤ n ∧
      (b = true → 0 < d) ∧ Searched text c' ∧ c'.bp = c.bp + d ∧ c'.bb = c.bb ∧
      c'.lastMOff = c.lastMOff := by
  induction n generalizing ahead c with
  | zero => exact ⟨false, 0, c, rfl, Nat.le_refl _, fun h => (by cases h), hc, rfl, rfl, rfl⟩
  | succ n ih =>
    rw [lazyMatch]
    by_cases hlook : mLen < c.look
    · rw [if_pos hlook]
      have hlt : c.bp < text.length := by have := hc.look_le; omega
      generalize (if sc.goodLength ≤ mLen then sc.maxChain >>> 2 else sc.maxChain) = chain
      obtain ⟨hc₁, hbp, hbb, hlast⟩ :=
        searched_findMatch ((hc.stands hlt).withChain chain) 1 0 (c.bp + 1) rfl hlt
      generalize findMatch text (c.withChain chain) 1 0 = c₁ at hc₁ hbp hbb hlast ⊢
      obtain ⟨b, d, c', heq, hd, hb, hs, hbp', hbb', hlast'⟩ := ih (ahead + 1) c₁ hc₁
      have hgo : lazyMatch text sc mLen l1 n (ahead + 1) c₁ = (b, ahead + (d + 1), c') := by
        rw [heq, show ahead + 1 + d = ahead + (d + 1) by omega]
      have hrec : ∃ b d c', lazyMatch text sc mLen l1 n (ahead + 1) c₁ = (b, ahead + d, c') ∧
          d ≤ n + 1 ∧ (b = true → 0 < d) ∧ Searched text c' ∧ c'.bp = c.bp + d ∧ c'.bb = c.bb ∧
          c'.lastMOff = c.lastMOff :=
        ⟨b, d + 1, c', hgo, by omega, fun _ => Nat.succ_pos _, hs, by omega, hbb'.trans hbb,
          hlast'.trans hlast⟩
      simp only
      split_ifs
      · exact hrec
      · exact hrec
      · exact ⟨true, 1, c₁, rfl, by omega, fun _ => Nat.one_pos, hc₁, by omega, hbb, hlast⟩
      · exact hrec
    · rw [if_neg hlook]
      exact ⟨false, 0, c, rfl, Nat.zero_le _, fun h => (by cases h), hc, rfl, rfl, rfl⟩

theorem maxAhead_le (p : Prop) [Decidable p] (tryLazy mLen : ℕ) :
    (if p then 0 else min tryLazy (mLen - 1)) ≤ mLen - 1 := by
  split_ifs
  · exact Nat.zero_le _
  · exact Nat.min_le_right _ _

/-- A run of the main loop has ended, and with the run of literals that it leaves what it has put
is the code of a parse of the text from the place on. -/
def Spells (text : List UInt8) (last place : ℕ) (bb : BitBuffer) (r : Option (ℕ × ℕ × Compress)) :
    Prop :=
  ∃ ii lit c ts, r = some (ii, lit, c) ∧ Covers text place ts ∧ (∀ t ∈ ts, Codable t) ∧
    c.bb.puts (codeRun text ii lit) = bb.puts (codeTokens last ts)

/-- At the end of the text only the run of literals is left. -/
theorem spells_end {c : Compress} {last ii lit : ℕ} (hbp : c.bp = text.length) (hlit : lit ≤ c.bp)
    (hii : 0 < lit → ii + lit = c.bp) :
    Spells text last (c.bp - lit) c.bb (some (ii, lit, c)) := by
  have hrun : codeRun text (c.bp - lit) lit = codeRun text ii lit := by
    rcases Nat.eq_zero_or_pos lit with hzero | hpos
    · rw [hzero, codeRun, codeRun, List.take_zero, List.take_zero]
    · rw [show c.bp - lit = ii by have := hii hpos; omega]
  have hcov : Covers text (c.bp - lit + lit) [] := by rw [Nat.sub_add_cancel hlit]; exact hbp
  refine ⟨ii, lit, c, runTokens text (c.bp - lit) lit ++ [], rfl,
    covers_runTokens (by omega) hcov, fun t ht => ?_, ?_⟩
  · exact codable_of_mem_runTokens (by simpa using ht)
  · rw [codeTokens_runTokens, hrun, codeTokens, List.append_nil]

/-- Before a match the run of literals is put, and the parse goes on behind it. -/
theorem Spells.copy {bb : BitBuffer} {r : Option (ℕ × ℕ × Compress)} {last ii lit off len : ℕ}
    (h : Spells text off (ii + lit + len) ((bb.puts (codeRun text ii lit)).puts
      (codeMatch last len off)) r)
    (hrep : Repeats text (ii + lit) off len) (hcod : Codable (.copy off len)) :
    Spells text last ii bb r := by
  obtain ⟨ii', lit', c, ts, heq, hcov, hts, hputs⟩ := h
  have hle := hrep.le_length
  refine ⟨ii', lit', c, runTokens text ii lit ++ .copy off len :: ts, heq,
    covers_runTokens (by omega) ⟨hrep, hcov⟩, fun t ht => ?_, ?_⟩
  · rcases List.mem_append.mp ht with ht | ht
    · exact codable_of_mem_runTokens ht
    · rcases List.mem_cons.mp ht with rfl | ht
      · exact hcod
      · exact hts t ht
  · rw [hputs, codeTokens_runTokens, codeTokens, BitBuffer.puts_append, BitBuffer.puts_append]

/-- The main loop ends with the code of a parse of the rest of the input and of the run of literals
that was not put yet. -/
theorem mainLoop_spec (sc : SwdConfig) (n ii lit : ℕ) (c : Compress)
    (hc : Searched text c) (hn : text.length < n + c.bp) (hlit : lit ≤ c.bp)
    (hii : 0 < lit → ii + lit = c.bp) :
    Spells text c.lastMOff (c.bp - lit) c.bb (mainLoop text sc n ii lit c) := by
  induction n generalizing ii lit c with
  | zero => have := hc.bp_le; omega
  | succ n ih =>
    rw [mainLoop]
    by_cases hlook : c.look = 0
    · have hbp : c.bp = text.length :=
        Nat.le_antisymm hc.bp_le (Nat.not_lt.mp fun hlt => by have := hc.look_pos hlt; omega)
      rw [if_pos hlook]
      exact spells_end hbp hlit hii
    · have hlt : c.bp < text.length := by have := hc.look_le; omega
      have hstands := hc.stands hlt
      rw [if_neg hlook]
      -- the run starts here if it is empty
      have hii' : (if lit = 0 then c.bp else ii) + lit = c.bp := by
        split_ifs with hzero
        · omega
        · exact hii (Nat.pos_of_ne_zero hzero)
      generalize (if lit = 0 then c.bp else ii) = jj at hii' ⊢
      by_cases hshort : c.mLen < 2 ∨ c.mLen = 2 ∧ m2MaxOffset < c.mOff
      · simp only [if_pos hshort]
        obtain ⟨hc₁, hbp, hbb, hlast⟩ :=
          searched_findMatch (hstands.withChain sc.maxChain) 1 0 (c.bp + 1) rfl hlt
        have hrest := ih jj (lit + 1) _ hc₁ (by omega) (by omega) (fun _ => by omega)
        rw [hbb, hlast, hbp, show c.bp + 1 - (lit + 1) = c.bp - lit by omega] at hrest
        exact hrest
      · have hlen : 2 ≤ c.mLen := by omega
        obtain ⟨hrep, hwindow, hlook⟩ := hc.genuine hlen
        simp only [if_neg hshort]
        generalize (if sc.tryLazy = 0 ∨ sc.maxLazy ≤ c.mLen ∨ c.mOff = c.lastMOff then (0 : ℤ) else
          lenOfCodedMatch c.lastMOff c.mLen c.mOff) = l1
        have hahead := maxAhead_le
          (sc.tryLazy = 0 ∨ sc.maxLazy ≤ c.mLen ∨ c.mOff = c.lastMOff) sc.tryLazy c.mLen
        generalize (if sc.tryLazy = 0 ∨ sc.maxLazy ≤ c.mLen ∨ c.mOff = c.lastMOff then 0 else
          min sc.tryLazy (c.mLen - 1)) = maxAhead at hahead ⊢
        obtain ⟨b, d, c₁, hlazy, hd, hpos, hc₁, hbp, hbb, hlast⟩ :=
          lazyMatch_spec sc l1 maxAhead 0 c (show 0 < c.mLen by omega) hc
        rw [Nat.zero_add] at hlazy
        rw [hlazy]
        cases b with
        | true =>
          have hd0 := hpos rfl
          have hrest := ih jj (lit + d) c₁ hc₁ (by omega) (by omega) (fun _ => by omega)
          rw [hbb, hlast, hbp, show c.bp + d - (lit + d) = c.bp - lit by omega] at hrest
          exact hrest
        | false =>
          have hrle := hrep.le_length
          have hstands₁ := hc₁.stands (by omega)
          have hplace : (if 0 < 1 + d then c₁.bp + 1 + (c.mLen - (1 + d)) else c₁.bp + 1) =
              c.bp + c.mLen := by
            rw [if_pos (by omega)]
            omega
          obtain ⟨hc₂, hbp₂, hbb₂, hlast₂⟩ := searched_findMatch
            (c := { c₁ with
              bb := (c₁.bb.puts (codeRun text jj lit)).puts (codeMatch c₁.lastMOff c.mLen c.mOff)
              lastMOff := c.mOff }.withChain sc.maxChain) (hstands₁.withChain sc.maxChain)
            c.mLen (1 + d) _ hplace hrle
          have hrest := ih jj 0 _ hc₂ (by omega) (Nat.zero_le _)
            (fun h => absurd h (Nat.lt_irrefl _))
          rw [hbb₂, hlast₂, hbp₂, Nat.sub_zero] at hrest
          simp only [Compress.withChain] at hrest
          rw [show c.bp - lit = jj by omega, ← hbb, ← hlast]
          refine Spells.copy ?_ (hii'.symm ▸ hrep) ⟨hlen, fun h => by omega, hwindow, hlook⟩
          rw [hii']
          exact hrest

end

/-- For every level the window gets a size that `swd_init` takes. -/
theorem swdSetup_init (garbage : Swd) (text : List UInt8) {sc : SwdConfig} (hsc : sc ∈ swdConfig)
    {n : ℕ} (hn : (if text.length < min swdN sc.maxOffset then max text.length 256
      else min swdN sc.maxOffset) = n) :
    256 ≤ n ∧ n ≤ swdN ∧ ∃ s, Swd.init text { garbage with f := swdF, n := n } = some s ∧
      swdSetup garbage text sc = some { s with
        maxChain := if 0 < sc.maxChain then sc.maxChain else s.maxChain
        niceLength := if 0 < sc.niceLength then sc.niceLength else s.niceLength } := by
  have hoffset : ∀ sc ∈ swdConfig, 256 ≤ min swdN sc.maxOffset := by decide
  have hbig := hoffset sc hsc
  have hswd : swdN = 2 ^ 23 := rfl
  have hswf : swdF = 2048 := rfl
  have hle : 256 ≤ n ∧ n ≤ swdN := by
    rw [← hn]
    split_ifs <;> omega
  have hn0 : n ≠ 0 := by omega
  have hf0 : swdF ≠ 0 := by omega
  obtain ⟨s, hs⟩ : ∃ s, Swd.init text { garbage with f := swdF, n := n } = some s := by
    simp only [Swd.init, if_neg hn0, if_neg hf0]
    rw [if_neg (by omega), if_neg (by omega)]
    exact ⟨_, rfl⟩
  refine ⟨hle.1, hle.2, s, hs, ?_⟩
  rw [swdSetup]
  simp only [hn, hs, Option.map_some]
  exact if_neg (by omega)

/-- The window that is set up for a level stands at the beginning. -/
theorem swdSetup_eq (garbage : Swd) (text : List UInt8) {sc : SwdConfig} (hsc : sc ∈ swdConfig) :
    ∃ s, swdSetup garbage text sc = some s ∧ Stands text s 0 := by
  obtain ⟨hlo, hhi, s, hs, heq⟩ := swdSetup_init garbage text hsc rfl
  obtain ⟨htracks, hn, hf⟩ := tracks_init (fun _ => 0) hs (Nat.le_trans (by decide) hlo)
    (show 3 ≤ swdF by decide)
  exact ⟨_, heq, ⟨⟨fun _ => 0, htracks.configured _ _⟩, Nat.le_trans (Nat.le_of_eq hn) hhi, hf⟩⟩

/-- The output is the code of a parse of the input, whatever the level and the memory. -/
theorem exists_parse (garbage : Swd) (text : List UInt8) {level : ℕ} (h₁ : 1 ≤ level)
    (h₁₀ : level ≤ 10) :
    ∃ ts, Covers text 0 ts ∧ (∀ t ∈ ts, Codable t) ∧
      nrv99Compress garbage text level = some (bufferBytes (codeTokens 1 ts ++ codeEof)) := by
  have hlt : level - 1 < swdConfig.length := by
    rw [show swdConfig.length = 10 from rfl]
    omega
  have hsc : swdConfig[level - 1]? = some swdConfig[level - 1] := List.getElem?_eq_getElem hlt
  obtain ⟨s, hs, hstands⟩ := swdSetup_eq garbage text (List.getElem_mem hlt)
  generalize swdConfig[level - 1] = sc at hsc hs
  obtain ⟨hc, hbp, hbb, hlast⟩ := searched_findMatch (c := ⟨.init, 0, 0, 0, 1, 0, s⟩) hstands 0 0 0
    rfl (Nat.zero_le _)
  obtain ⟨ii, lit, c, ts, heq, hcov, hts, hputs⟩ := mainLoop_spec sc
    (text.length + 1) 0 0 _ hc (by omega) (Nat.zero_le _)
    (fun h => absurd h (Nat.lt_irrefl _))
  rw [hbp] at hcov
  rw [hbb, hlast] at hputs
  refine ⟨ts, hcov, hts, ?_⟩
  rw [nrv99Compress, if_neg (by omega), hsc]
  simp only [Option.bind_eq_bind, Option.bind_some, hs, heq]
  rw [hputs, bufferBytes, BitBuffer.puts_append]

theorem exists_parse_of_compress {garbage : Swd} {text w : List UInt8} {level : ℕ}
    (hw : nrv99Compress garbage text level = some w) :
    ∃ ts, Covers text 0 ts ∧ (∀ t ∈ ts, Codable t) ∧
      w = bufferBytes (codeTokens 1 ts ++ codeEof) := by
  have hlevel : ¬(level < 1 ∨ 10 < level) := by
    intro h
    rw [nrv99Compress, if_pos h] at hw
    cases hw
  obtain ⟨ts, hcov, hcod, heq⟩ :=
    exists_parse garbage text (show 1 ≤ level by omega) (show level ≤ 10 by omega)
  exact ⟨ts, hcov, hcod, Option.some.inj (hw.symm.trans heq)⟩

end Maitland.Packer
