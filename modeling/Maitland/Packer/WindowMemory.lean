import Maitland.Packer.Parse

/-!
# The memory of the window

The arrays of the window are allocated and only two of them are cleared. Two compressors that
differ in what the rest had in it go through the same searches and put the same bits, and what
each search finds is what a search in the text itself finds.
-/

namespace Maitland.Packer

open SlidingWindow Lz77

variable {text : List UInt8}

/-! ### Two runs -/

/-- Two windows at the same place that have found the same before. -/
structure Twins (text : List UInt8) (s s' : Swd) (pos : ℕ) : Prop where
  tracks : ∃ best, Tracks text best s pos ∧ Tracks text best s' pos
  kept : Kept s s'

/-- Two compressors that have put the same and know the same of the place they are at. A distance
only means something with a match. -/
structure Alike (text : List UInt8) (c c' : Compress) : Prop where
  bb : c'.bb = c.bb
  look : c'.look = c.look
  mLen : c'.mLen = c.mLen
  mOff : 2 ≤ c.mLen → c'.mOff = c.mOff
  lastMOff : c'.lastMOff = c.lastMOff
  bp : c'.bp = c.bp
  twins : c.bp < text.length → Twins text c.swd c'.swd (c.bp + 1)

theorem Twins.withChain {c c' : Compress} {pos : ℕ} (h : Twins text c.swd c'.swd pos) (n : ℕ) :
    Twins text (c.withChain n).swd (c'.withChain n).swd pos := by
  obtain ⟨⟨best, ht, ht'⟩, hn, hf, -, hnice⟩ := h
  exact ⟨⟨best, ht.configured n _, ht'.configured n _⟩, hn, hf, rfl, hnice⟩

theorem alike_findMatch {c c' : Compress} {next : ℕ} (h : Twins text c.swd c'.swd next)
    (hbb : c'.bb = c.bb) (hlast : c'.lastMOff = c.lastMOff) (thisLen skip place : ℕ)
    (hplace : (if 0 < skip then next + (thisLen - skip) else next) = place)
    (hle : place ≤ text.length) :
    Alike text (findMatch text c thisLen skip) (findMatch text c' thisLen skip) := by
  obtain ⟨⟨best, ht, ht'⟩, hn, hf, hchain, hnice⟩ := h
  have hk : next + (if 0 < skip then thisLen - skip else 0) = place := by
    rw [← hplace]
    split_ifs <;> rfl
  generalize hkk : (if 0 < skip then thisLen - skip else 0) = k at hk
  rcases Nat.eq_or_lt_of_le hle with hend | hlt
  · obtain ⟨hlook, hlen, hbp, hbb₁, hlast₁⟩ := findMatch_end ht thisLen skip hkk (hk.trans hend)
    obtain ⟨hlook', hlen', hbp', hbb₁', hlast₁'⟩ :=
      findMatch_end ht' thisLen skip hkk (hk.trans hend)
    exact ⟨by rw [hbb₁, hbb₁', hbb], hlook'.trans hlook.symm, hlen'.trans hlen.symm,
      fun h2 => by omega, by rw [hlast₁, hlast₁', hlast], hbp'.trans hbp.symm,
      fun h => by omega⟩
  · obtain ⟨m, best₁, hm, hbest, hnext, hkept, hlook, hlen, hoff, hbp, hbb₁, hlast₁⟩ :=
      findMatch_eq ht thisLen skip hkk (hk ▸ hlt)
    obtain ⟨m', best₁', hm', hbest', hnext', hkept', hlook', hlen', hoff', hbp', hbb₁', hlast₁'⟩ :=
      findMatch_eq ht' thisLen skip hkk (hk ▸ hlt)
    rw [hf, hnice, hn, hchain, ← hm] at hm'
    subst hm'
    rw [hf, ← hbest] at hbest'
    subst hbest'
    rw [hf] at hlook'
    refine ⟨by rw [hbb₁, hbb₁', hbb], hlook'.trans hlook.symm, hlen'.trans hlen.symm, fun h2 => ?_,
      by rw [hlast₁, hlast₁', hlast], hbp'.trans hbp.symm, fun _ => ?_⟩
    · cases m' with
      | none =>
        rw [hlen] at h2
        exact absurd h2 (by decide)
      | some m => rw [hoff m rfl, hoff' m rfl]
    · rw [hbp]
      exact ⟨⟨_, hnext, hnext'⟩, hkept'.n.trans (hn.trans hkept.n.symm),
        hkept'.f.trans (hf.trans hkept.f.symm),
        hkept'.maxChain.trans (hchain.trans hkept.maxChain.symm),
        hkept'.niceLength.trans (hnice.trans hkept.niceLength.symm)⟩

theorem alike_lazyMatch (sc : SwdConfig) (mLen : ℕ) (l1 : ℤ) (n ahead : ℕ) {c c' : Compress}
    (h : Alike text c c') (hc : Searched text c) :
    ∃ b a c₁ c₁', lazyMatch text sc mLen l1 n ahead c = (b, a, c₁) ∧
      lazyMatch text sc mLen l1 n ahead c' = (b, a, c₁') ∧ Alike text c₁ c₁' := by
  induction n generalizing ahead c c' with
  | zero => exact ⟨false, ahead, c, c', rfl, rfl, h⟩
  | succ n ih =>
    rw [lazyMatch, lazyMatch, h.look]
    by_cases hlook : mLen < c.look
    · have hlt : c.bp < text.length := by have := hc.look_le; omega
      rw [if_pos hlook, if_pos hlook]
      generalize (if sc.goodLength ≤ mLen then sc.maxChain >>> 2 else sc.maxChain) = chain
      have h₁ := alike_findMatch ((h.twins hlt).withChain chain) h.bb h.lastMOff 1 0 (c.bp + 1)
        rfl hlt
      obtain ⟨hc₁, -, -, -⟩ :=
        searched_findMatch ((hc.stands hlt).withChain chain) 1 0 (c.bp + 1) rfl hlt
      generalize findMatch text (c.withChain chain) 1 0 = c₁ at h₁ hc₁ ⊢
      generalize findMatch text (c'.withChain chain) 1 0 = c₁' at h₁ ⊢
      simp only [h₁.mLen, h₁.lastMOff]
      by_cases hshort : c₁.mLen < 2
      · rw [if_pos hshort, if_pos hshort]
        exact ih (ahead + 1) h₁ hc₁
      · rw [if_neg hshort, if_neg hshort, h₁.mOff (Nat.not_lt.mp hshort)]
        split_ifs
        · exact ih (ahead + 1) h₁ hc₁
        · exact ⟨true, ahead + 1, c₁, c₁', rfl, rfl, h₁⟩
        · exact ih (ahead + 1) h₁ hc₁
    · rw [if_neg hlook, if_neg hlook]
      exact ⟨false, ahead, c, c', rfl, rfl, h⟩

/-- What a run of the main loop leaves to be put, less the window. -/
def remains (r : ℕ × ℕ × Compress) : ℕ × ℕ × BitBuffer := (r.1, r.2.1, r.2.2.bb)

theorem alike_mainLoop (sc : SwdConfig) (n ii lit : ℕ) {c c' : Compress} (h : Alike text c c')
    (hc : Searched text c) :
    (mainLoop text sc n ii lit c').map remains = (mainLoop text sc n ii lit c).map remains := by
  induction n generalizing ii lit c c' with
  | zero => rfl
  | succ n ih =>
    rw [mainLoop, mainLoop, h.look]
    by_cases hlook : c.look = 0
    · rw [if_pos hlook, if_pos hlook]
      simp only [Option.map_some, remains, h.bb]
    · have hlt : c.bp < text.length := by have := hc.look_le; omega
      rw [if_neg hlook, if_neg hlook]
      simp only [h.mLen, h.bp, h.lastMOff]
      generalize (if lit = 0 then c.bp else ii) = jj
      have hfar : (c.mLen < 2 ∨ c.mLen = 2 ∧ m2MaxOffset < c'.mOff) ↔
          (c.mLen < 2 ∨ c.mLen = 2 ∧ m2MaxOffset < c.mOff) := by
        refine or_congr_right (and_congr_right fun h2 => ?_)
        rw [h.mOff (Nat.le_of_eq h2.symm)]
      simp only [hfar]
      by_cases hlit : c.mLen < 2 ∨ c.mLen = 2 ∧ m2MaxOffset < c.mOff
      · rw [if_pos hlit, if_pos hlit]
        obtain ⟨hc₁, -, -, -⟩ :=
          searched_findMatch ((hc.stands hlt).withChain sc.maxChain) 1 0 (c.bp + 1) rfl hlt
        exact ih jj (lit + 1) (alike_findMatch ((h.twins hlt).withChain sc.maxChain) h.bb h.lastMOff
          1 0 (c.bp + 1) rfl hlt) hc₁
      have hlen : ¬c.mLen < 2 := fun hlen => hlit (.inl hlen)
      rw [if_neg hlit, if_neg hlit, h.mOff (Nat.not_lt.mp hlen)]
      generalize (if sc.tryLazy = 0 ∨ sc.maxLazy ≤ c.mLen ∨ c.mOff = c.lastMOff then (0 : ℤ) else
        lenOfCodedMatch c.lastMOff c.mLen c.mOff) = l1
      have hahead := maxAhead_le
        (sc.tryLazy = 0 ∨ sc.maxLazy ≤ c.mLen ∨ c.mOff = c.lastMOff) sc.tryLazy c.mLen
      generalize (if sc.tryLazy = 0 ∨ sc.maxLazy ≤ c.mLen ∨ c.mOff = c.lastMOff then 0 else
        min sc.tryLazy (c.mLen - 1)) = maxAhead at hahead ⊢
      obtain ⟨b, a, c₁, c₁', hlazy, hlazy', h₁⟩ := alike_lazyMatch sc c.mLen l1 maxAhead 0 h hc
      obtain ⟨b₂, d, c₂, hspec, hd, -, hc₁, hbp, -, -⟩ :=
        lazyMatch_spec sc l1 maxAhead 0 c (show 0 < c.mLen by omega) hc
      obtain ⟨rfl, rfl, rfl⟩ : b = b₂ ∧ a = 0 + d ∧ c₁ = c₂ := by
        rw [hlazy] at hspec
        simpa only [Prod.mk.injEq] using hspec
      rw [hlazy, hlazy']
      cases b with
      | true => exact ih jj (lit + (0 + d)) h₁ hc₁
      | false =>
        have hrle := (hc.genuine (Nat.not_lt.mp hlen)).repeats.le_length
        have hlt₁ : c₁.bp < text.length := by omega
        have hplace : (if 0 < 1 + (0 + d) then c₁.bp + 1 + (c.mLen - (1 + (0 + d)))
            else c₁.bp + 1) = c.bp + c.mLen := by
          rw [if_pos (by omega)]
          omega
        simp only [h₁.bb, h₁.lastMOff]
        obtain ⟨hc₂, -, -, -⟩ := searched_findMatch (c := { c₁ with
            bb := (c₁.bb.puts (codeRun text jj lit)).puts (codeMatch c₁.lastMOff c.mLen c.mOff)
            lastMOff := c.mOff }.withChain sc.maxChain)
          ((hc₁.stands hlt₁).withChain sc.maxChain) c.mLen (1 + (0 + d)) _ hplace hrle
        have htwins : Twins text
            ({ c₁ with
              bb := (c₁.bb.puts (codeRun text jj lit)).puts (codeMatch c₁.lastMOff c.mLen c.mOff)
              lastMOff := c.mOff }.withChain sc.maxChain).swd
            ({ c₁' with
              bb := (c₁.bb.puts (codeRun text jj lit)).puts (codeMatch c₁.lastMOff c.mLen c.mOff)
              lastMOff := c.mOff }.withChain sc.maxChain).swd (c₁.bp + 1) :=
          (h₁.twins hlt₁).withChain sc.maxChain
        exact ih jj 0 (alike_findMatch htwins rfl rfl c.mLen (1 + (0 + d)) _ hplace hrle) hc₂

theorem twins_swdSetup (garbage garbage' : Swd) (text : List UInt8) {sc : SwdConfig}
    (hsc : sc ∈ swdConfig) : ∃ s s', swdSetup garbage text sc = some s ∧
      swdSetup garbage' text sc = some s' ∧ Twins text s s' 0 := by
  obtain ⟨n, hn⟩ : ∃ n, (if text.length < min swdN sc.maxOffset then max text.length 256
      else min swdN sc.maxOffset) = n := ⟨_, rfl⟩
  obtain ⟨hlo, -, s, hs, heq⟩ := swdSetup_init garbage text hsc hn
  obtain ⟨-, -, s', hs', heq'⟩ := swdSetup_init garbage' text hsc hn
  have hn3 : 3 ≤ n := by omega
  have hf3 : 3 ≤ swdF := by decide
  obtain ⟨ht, -, -⟩ := tracks_init (fun _ => 0) hs hn3 hf3
  obtain ⟨ht', -, -⟩ := tracks_init (fun _ => 0) hs' hn3 hf3
  have hn0 : n ≠ 0 := by omega
  have hf0 : swdF ≠ 0 := by omega
  obtain ⟨-, rfl⟩ := init_some hs hn0 hf0
  obtain ⟨-, rfl⟩ := init_some hs' hn0 hf0
  exact ⟨_, _, heq, heq', ⟨⟨fun _ => 0, ht.configured _ _, ht'.configured _ _⟩,
    ⟨rfl, rfl, rfl, rfl⟩⟩⟩

/-- What is put out does not depend on what was in the memory of the window. -/
theorem compress_memory_irrelevant (garbage garbage' : Swd) (text : List UInt8) (level : ℕ) :
    nrv99Compress garbage text level = nrv99Compress garbage' text level := by
  rw [nrv99Compress, nrv99Compress]
  by_cases hlevel : level < 1 ∨ 10 < level
  · rw [if_pos hlevel, if_pos hlevel]
  have hlt : level - 1 < swdConfig.length := by
    rw [show swdConfig.length = 10 from rfl]
    omega
  have hmem := List.getElem_mem hlt
  rw [if_neg hlevel, if_neg hlevel, List.getElem?_eq_getElem hlt]
  generalize swdConfig[level - 1] = sc at hmem
  obtain ⟨s, s', hs, hs', htwins⟩ := twins_swdSetup garbage garbage' text hmem
  obtain ⟨s₀, hs₀, hstands⟩ := swdSetup_eq garbage text hmem
  obtain rfl : s = s₀ := Option.some.inj (hs.symm.trans hs₀)
  obtain ⟨hc, -, -, -⟩ := searched_findMatch (c := ⟨.init, 0, 0, 0, 1, 0, s⟩) hstands 0 0 0 rfl
    (Nat.zero_le _)
  have htwins₀ : Twins text (Compress.mk .init 0 0 0 1 0 s).swd
    (Compress.mk .init 0 0 0 1 0 s').swd 0 := htwins
  have hmain := alike_mainLoop sc (text.length + 1) 0 0
    (alike_findMatch htwins₀ rfl rfl 0 0 0 rfl (Nat.zero_le _)) hc
  simp only [Option.bind_eq_bind, Option.bind_some, hs, hs']
  generalize mainLoop text sc (text.length + 1) 0 0
    (findMatch text ⟨.init, 0, 0, 0, 1, 0, s⟩ 0 0) = r at hmain ⊢
  generalize mainLoop text sc (text.length + 1) 0 0
    (findMatch text ⟨.init, 0, 0, 0, 1, 0, s'⟩ 0 0) = r' at hmain ⊢
  cases r with
  | none => rw [Option.map_eq_none_iff.mp hmain]
  | some r =>
    obtain ⟨r', rfl, heq⟩ := Option.map_eq_some_iff.mp hmain
    obtain ⟨ii, lit, c⟩ := r
    obtain ⟨ii', lit', c'⟩ := r'
    simp only [remains, Prod.mk.injEq] at heq
    obtain ⟨rfl, rfl, hbb⟩ := heq
    simp only [Option.bind_some, hbb]

/-! ### Runs of searches -/

/-- A call of `find_match`, and what `max_chain` is set to before it. -/
structure Call where
  chain : ℕ
  thisLen : ℕ
  skip : ℕ
  deriving DecidableEq, Repr

/-- How many places are gone over before the one that is searched. -/
def Call.accepted (call : Call) : ℕ := if 0 < call.skip then call.thisLen - call.skip else 0

/-- The matches that a run of calls finds. -/
def reports (text : List UInt8) : List Call → Compress → List (Option (ℕ × ℕ))
  | [], _ => []
  | call :: calls, c =>
    let c := findMatch text (c.withChain call.chain) call.thisLen call.skip
    (if 2 ≤ c.mLen then some (c.mLen, c.mOff) else none) :: reports text calls c

/-- The matches that the text has at the places of the calls. Of the searches before only the
lengths that they found matter. -/
def plainReports (text : List UInt8) (n f nice : ℕ) :
    List Call → ℕ → (ℕ → ℕ) → List (Option (ℕ × ℕ))
  | [], _, _ => []
  | call :: calls, next, best =>
    let pos := next + call.accepted
    let look := min f (text.length - pos)
    let best := bestAccept f best next call.accepted
    let m := plainMatch text look nice best pos n call.chain
    m.map (fun m => (m.1, pos - m.2)) :: plainReports text n f nice calls (pos + 1)
      (Function.update best pos (if look < 2 then f + 1 else plainLen m))

/-- The calls do not go past the end of the text. -/
def Within (len : ℕ) : ℕ → List Call → Prop
  | _, [] => True
  | next, call :: calls =>
    next + call.accepted < len ∧ Within len (next + call.accepted + 1) calls

theorem reports_tracks {best : ℕ → ℕ} {c : Compress} {next n f nice : ℕ} {calls : List Call}
    (h : Tracks text best c.swd next) (hn : c.swd.n = n) (hf : c.swd.f = f)
    (hnice : c.swd.niceLength = nice) (hcalls : Within text.length next calls) :
    reports text calls c = plainReports text n f nice calls next best := by
  induction calls generalizing best c next with
  | nil => rfl
  | cons call calls ih =>
    obtain ⟨hlt, hrest⟩ := hcalls
    have ht : Tracks text best (c.withChain call.chain).swd next :=
      h.configured call.chain c.swd.niceLength
    obtain ⟨m, best', hm, hbest, hnext, hkept, -, hlen, hoff, -⟩ :=
      findMatch_eq ht call.thisLen call.skip rfl hlt
    have hn' : (c.withChain call.chain).swd.n = n := hn
    have hf' : (c.withChain call.chain).swd.f = f := hf
    have hnice' : (c.withChain call.chain).swd.niceLength = nice := hnice
    rw [hf', hnice', hn'] at hm
    rw [hf'] at hbest
    have htail := ih hnext (hkept.n.trans hn') (hkept.f.trans hf') (hkept.niceLength.trans hnice')
      hrest
    have hhead : (if 2 ≤ (findMatch text (c.withChain call.chain) call.thisLen call.skip).mLen then
        some ((findMatch text (c.withChain call.chain) call.thisLen call.skip).mLen,
          (findMatch text (c.withChain call.chain) call.thisLen call.skip).mOff) else none) =
        m.map fun m => (m.1, next + call.accepted - m.2) := by
      rw [hlen]
      cases m with
      | none => rfl
      | some m =>
        have htwo := (agrees_plainMatch hm.symm).two_le
        rw [if_pos (show 2 ≤ plainLen (some m) from htwo), hoff m rfl]
        rfl
    rw [reports, plainReports]
    simp only [hhead, htail]
    rw [hbest, hm]
    rfl

/-- In every run of searches the hash chains of the circular buffer lead to the matches that a
search in the text finds, whatever was in the memory of the window. -/
theorem window_finds_plain {garbage s : Swd} {c : Compress} {nice : ℕ} {calls : List Call}
    (hinit : Swd.init text garbage = some s) (hn : 3 ≤ garbage.n) (hf : 3 ≤ garbage.f)
    (hc : c.swd = { s with niceLength := nice }) (hcalls : Within text.length 0 calls) :
    reports text calls c =
      plainReports text garbage.n garbage.f nice calls 0 fun _ => 0 := by
  obtain ⟨htracks, hn', hf'⟩ := tracks_init (fun _ => 0) hinit hn hf
  have ht : Tracks text (fun _ => 0) c.swd 0 := hc ▸ htracks.configured s.maxChain nice
  exact reports_tracks ht (hc ▸ hn') (hc ▸ hf') (hc ▸ rfl) hcalls

/-- Two literals, a match of seven bytes, and the rest of it gone over. -/
theorem window_finds_plain_repeated :
    ∃ s, Swd.init [1, 2, 1, 2, 1, 2, 1, 2, 1, 3, 1, 2] { zeroed with n := 256, f := 8 } = some s ∧
      reports [1, 2, 1, 2, 1, 2, 1, 2, 1, 3, 1, 2]
        [⟨4, 0, 0⟩, ⟨4, 1, 0⟩, ⟨4, 1, 0⟩, ⟨4, 7, 1⟩, ⟨4, 1, 0⟩]
        ⟨.init, 0, 0, 0, 1, 0, { s with niceLength := 8 }⟩ =
          [none, none, some (7, 2), none, some (2, 4)] := by
  obtain ⟨s, hs⟩ : ∃ s, Swd.init [1, 2, 1, 2, 1, 2, 1, 2, 1, 3, 1, 2]
    { zeroed with n := 256, f := 8 } = some s := ⟨_, rfl⟩
  have hwithin : Within 12 0 [⟨4, 0, 0⟩, ⟨4, 1, 0⟩, ⟨4, 1, 0⟩, ⟨4, 7, 1⟩, ⟨4, 1, 0⟩] := by
    simp [Within, Call.accepted]
  exact ⟨s, hs, (window_finds_plain hs (by decide) (by decide) rfl hwithin).trans
    (by decide +kernel)⟩

end Maitland.Packer
