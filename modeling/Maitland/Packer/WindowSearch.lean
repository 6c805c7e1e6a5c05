import Mathlib.Data.Nat.Bitwise
import Mathlib.Tactic.IntervalCases
import Maitland.Packer.Window

/-!
# What the window finds

The search through the hash chains of the circular buffer finds what a search through the places
of the text finds, and what was in the memory of the window does not matter.
-/

namespace Maitland.Packer

open SlidingWindow

def byteAt (text : List UInt8) (i : ℕ) : UInt8 := text.getD i 0

def key3 (text : List UInt8) : ℕ → ℕ := head3 (byteAt text)

def key2 (text : List UInt8) : ℕ → ℕ := head2 (byteAt text)

/-! ### The search in the text -/

section

variable (text : List UInt8) (look nice : ℕ) (best : ℕ → ℕ) (pos : ℕ)

/-- The first of the longest matches, unless one before it is long enough or longer than what
was found at its place. -/
def plainSearch : List ℕ → ℕ × ℕ → ℕ × ℕ
  | [], m => m
  | j :: js, m =>
    let i := agree (byteAt text) pos j look 0
    if m.1 < i then
      if i = look ∨ nice ≤ i ∨ best j < i then (i, j) else plainSearch js (i, j)
    else plainSearch js m

/-- The match at a place and where it starts: there is none unless the first two bytes are found in
the window, and of the places with the hash of the first three at most `chain` are tried. -/
def plainMatch (n chain : ℕ) : Option (ℕ × ℕ) :=
  if look < 2 then none
  else (positions (key2 text) (key2 text pos) (pos - n) pos).head?.map fun j =>
    if look < 3 then (2, j)
    else
      let js := positions (key3 text) (key3 text pos) (pos - n) pos
      plainSearch text look nice best pos (if 0 < chain then js.take chain else js) (2, j)

/-- One is the length that stands for no match. -/
def plainLen (m : Option (ℕ × ℕ)) : ℕ := (m.map Prod.fst).getD swdThreshold

end

/-! ### The buffer -/

variable {text : List UInt8} {best : ℕ → ℕ} {s : Swd} {pos : ℕ}

theorem byteAt_eq {i : ℕ} (h : i < text.length) : text[i]? = some (byteAt text i) := by
  rw [byteAt, List.getD_eq_getElem?_getD, List.getElem?_eq_getElem h]
  rfl

/-- The pointers and the bytes of a window at a place. -/
structure Sees (text : List UInt8) (s : Swd) (pos : ℕ) : Prop where
  three_le_n : 3 ≤ s.n
  three_le_f : 3 ≤ s.f
  size_le : s.n + s.f ≤ nil2
  bSize : s.bSize = s.n + s.f
  bp : s.bp = pos % (s.n + s.f)
  rp : s.rp = (pos + s.f) % (s.n + s.f)
  ip : s.ip = (pos + min s.f text.length) % (s.n + s.f)
  cip : s.cip = min text.length (pos + s.f)
  look : s.look = min s.f (text.length - pos)
  buffered : Buffered s.n s.f s.b text pos

theorem wrap_mod {size : ℕ} (i : ℕ) (hsize : 0 < size) : wrap size (i % size) = (i + 1) % size := by
  have hlt := Nat.mod_lt i hsize
  have heq : (i % size + 1) % size = (i + 1) % size := Nat.mod_add_mod i size 1
  rw [wrap, ← heq]
  split_ifs with h
  · rw [h, Nat.mod_self]
  · exact (Nat.mod_eq_of_lt (by omega)).symm

namespace Sees

theorem read (h : Sees text s pos) {j i : ℕ} (hlo : pos ≤ j + s.n) (hhi : j + i < pos + s.f)
    (hi : i ≤ s.f) (hlen : j + i < text.length) :
    s.b (j % (s.n + s.f) + i) = byteAt text (j + i) :=
  h.buffered.read (byteAt_eq hlen) hlo hhi hi

theorem head3_eq (h : Sees text s pos) {j : ℕ} (hlo : pos ≤ j + s.n) (hle : j ≤ pos)
    (hlen : j + 3 ≤ text.length) : head3 s.b (j % (s.n + s.f)) = key3 text j := by
  have hf := h.three_le_f
  have h₀ := h.read (i := 0) hlo (by omega) (by omega) (by omega)
  have h₁ := h.read (i := 1) hlo (by omega) (by omega) (by omega)
  have h₂ := h.read (i := 2) hlo (by omega) (by omega) (by omega)
  simp only [Nat.add_zero] at h₀
  simp only [key3, head3, h₀, h₁, h₂]

theorem head2_eq (h : Sees text s pos) {j : ℕ} (hlo : pos ≤ j + s.n) (hle : j ≤ pos)
    (hlen : j + 2 ≤ text.length) : head2 s.b (j % (s.n + s.f)) = key2 text j := by
  have hf := h.three_le_f
  have h₀ := h.read (i := 0) hlo (by omega) (by omega) (by omega)
  have h₁ := h.read (i := 1) hlo (by omega) (by omega) (by omega)
  simp only [Nat.add_zero] at h₀
  simp only [key2, head2, h₀, h₁]

/-- What is found and what the tables have does not matter to what is seen. -/
theorem tables (h : Sees text s pos) (mLen mOff mPos nodeCount maxChain niceLength : ℕ)
    (bChar : Option UInt8) (head3 succ3 best3 llen3 head2 : ℕ → ℕ) :
    Sees text { s with
      mLen := mLen, mOff := mOff, mPos := mPos, nodeCount := nodeCount, maxChain := maxChain
      niceLength := niceLength, bChar := bChar, head3 := head3, succ3 := succ3, best3 := best3
      llen3 := llen3, head2 := head2 } pos :=
  ⟨h.three_le_n, h.three_le_f, h.size_le, h.bSize, h.bp, h.rp, h.ip, h.cip, h.look, h.buffered⟩

/-- The place that leaves the window stands at the remove pointer. -/
theorem rp_eq (h : Sees text s pos) (hle : s.n ≤ pos) : s.rp = (pos - s.n) % (s.n + s.f) := by
  rw [h.rp, show pos + s.f = pos - s.n + (s.n + s.f) by omega, Nat.add_mod_right]

theorem pos2off_eq (h : Sees text s pos) {j : ℕ} (hlo : pos ≤ j + s.n) (hlt : j < pos) :
    s.pos2off (j % (s.n + s.f)) = pos - j := by
  have hn := h.three_le_n
  have hf := h.three_le_f
  have hpos := Nat.mod_lt pos (show 0 < s.n + s.f by omega)
  have hcases := add_mod_cases j (show 0 < s.n + s.f by omega)
    (show pos - j ≤ s.n + s.f by omega)
  rw [show j + (pos - j) = pos by omega] at hcases
  rw [Swd.pos2off, h.bp, h.bSize]
  split_ifs <;> omega

/-- The next byte is read in, or the window sees one less. -/
theorem getbyte (h : Sees text s pos) (hle : pos < text.length) :
    Sees text (s.getbyte text) (pos + 1) := by
  have hn := h.three_le_n
  have hf := h.three_le_f
  have hsize : 0 < s.n + s.f := by omega
  have hbp : wrap s.bSize s.bp = (pos + 1) % (s.n + s.f) := by
    rw [h.bSize, h.bp, wrap_mod _ hsize]
  have hrp : wrap s.bSize s.rp = (pos + 1 + s.f) % (s.n + s.f) := by
    rw [h.bSize, h.rp, wrap_mod _ hsize, Nat.add_right_comm]
  have hip : wrap s.bSize s.ip = (pos + 1 + min s.f text.length) % (s.n + s.f) := by
    rw [h.bSize, h.ip, wrap_mod _ hsize, Nat.add_right_comm]
  have hcip := h.cip
  have hlook := h.look
  by_cases hend : text.length ≤ pos + s.f
  · have hnone : text[s.cip]? = none := List.getElem?_eq_none (by omega)
    have heq : s.getbyte text = { s with
        look := s.look - 1, ip := wrap s.bSize s.ip, bp := wrap s.bSize s.bp
        rp := wrap s.bSize s.rp } := by
      rw [Swd.getbyte, hnone]
    rw [heq]
    exact ⟨hn, hf, h.size_le, h.bSize, hbp, hrp, hip, by simp only; omega, by simp only; omega,
      h.buffered.skip hend⟩
  · have hcip' : s.cip = pos + s.f := by omega
    have hsome : text[s.cip]? = some (byteAt text (pos + s.f)) := by
      rw [hcip']
      exact byteAt_eq (by omega)
    have hip' : s.ip = (pos + s.f) % (s.n + s.f) := by
      rw [h.ip, Nat.min_eq_left (by omega)]
    have heq : s.getbyte text = { s with
        cip := s.cip + 1
        b := if s.ip < s.f then Function.update (Function.update s.b s.ip
          (byteAt text (pos + s.f))) (s.bSize + s.ip) (byteAt text (pos + s.f))
          else Function.update s.b s.ip (byteAt text (pos + s.f))
        ip := wrap s.bSize s.ip, bp := wrap s.bSize s.bp, rp := wrap s.bSize s.rp } := by
      rw [Swd.getbyte, hsome]
    rw [heq]
    refine ⟨hn, hf, h.size_le, h.bSize, hbp, hrp, hip, by simp only; omega, by simp only; omega, ?_⟩
    have hmod := Nat.mod_lt (pos + s.f) hsize
    refine h.buffered.write (hcip' ▸ hsome) ?_ ?_ ?_
    · simp only [hip', h.bSize]
      split_ifs
      · rw [Function.update_of_ne (by omega), Function.update_self]
      · rw [Function.update_self]
    · intro hlow
      simp only [hip', h.bSize]
      rw [if_pos hlow, Function.update_self]
    · intro i hne hne'
      simp only [hip', h.bSize]
      split_ifs
      · rw [Function.update_of_ne hne', Function.update_of_ne hne]
      · rw [Function.update_of_ne hne]

end Sees

/-! ### The tables -/

/-- What the tables of a window lead to. At the end of the text they are not looked at any more,
and may have got any hashes. -/
structure Indexed (text : List UInt8) (best : ℕ → ℕ) (s : Swd) (pos : ℕ) : Prop where
  nodeCount : s.nodeCount = s.n - pos
  chained : pos + 3 ≤ text.length →
    Chained (s.n + s.f) (key3 text) s.head3 s.succ3 s.llen3 (pos - s.n) pos
  latest : pos + 2 ≤ text.length →
    Latest (s.n + s.f) nil2 (key2 text) s.head2 (pos - s.n) pos
  best3 : ∀ j, pos ≤ j + s.n → j < pos → s.best3 (j % (s.n + s.f)) = best j

/-- The tables after a place has left them. -/
theorem removeNode_eq (s : Swd) (node : ℕ) : s.removeNode node = { s with
    nodeCount := s.nodeCount - 1
    llen3 := if s.nodeCount = 0 then
      Function.update s.llen3 (head3 s.b node) (s.llen3 (head3 s.b node) - 1) else s.llen3
    head2 := if s.nodeCount = 0 then
      if s.head2 (head2 s.b node) = node then Function.update s.head2 (head2 s.b node) nil2
      else s.head2 else s.head2 } := by
  rw [Swd.removeNode]
  by_cases h : s.nodeCount = 0
  · simp only [h, if_true, Nat.zero_sub]
  · simp only [if_neg h]

namespace Indexed

theorem lo_eq (h : Indexed text best s pos) :
    (if s.nodeCount = 0 then pos - s.n + 1 else pos - s.n) = pos + 1 - s.n := by
  have := h.nodeCount
  split_ifs <;> omega

/-- The oldest place leaves the chain of its hash, also when the new one has come in before. -/
theorem chained_drop (h : Indexed text best s pos) (hs : Sees text s pos)
    (hlen : pos + 3 ≤ text.length) {pos' : ℕ} (hpos : pos ≤ pos')
    {head succ count : ℕ → ℕ}
    (hc : Chained (s.n + s.f) (key3 text) head succ count (pos - s.n) pos') :
    Chained (s.n + s.f) (key3 text) head succ (if s.nodeCount = 0 then
      Function.update count (head3 s.b s.rp) (count (head3 s.b s.rp) - 1) else count)
      (pos + 1 - s.n) pos' := by
  have hnode := h.nodeCount
  have hn := hs.three_le_n
  rw [← h.lo_eq]
  split_ifs with hzero
  · rw [hs.rp_eq (by omega), hs.head3_eq (by omega) (by omega) (by omega)]
    exact hc.drop (by omega)
  · exact hc

/-- The oldest place leaves the table of the places with the same two bytes, and the new one comes
in. -/
theorem latest_step (h : Indexed text best s pos) (hs : Sees text s pos)
    (hlen : pos + 2 ≤ text.length) :
    Latest (s.n + s.f) nil2 (key2 text) (Function.update
      (if s.nodeCount = 0 then
        if s.head2 (head2 s.b s.rp) = s.rp then Function.update s.head2 (head2 s.b s.rp) nil2
        else s.head2 else s.head2) (head2 s.b s.bp) s.bp) (pos + 1 - s.n) (pos + 1) := by
  have hnode := h.nodeCount
  have hn := hs.three_le_n
  have hl := h.latest hlen
  rw [hs.bp, hs.head2_eq (by omega) (Nat.le_refl _) hlen]
  refine Latest.insert ?_ (by omega)
  by_cases hzero : s.nodeCount = 0
  · have hdrop := hl.drop (by omega) (by omega)
    rw [if_pos hzero, hs.rp_eq (by omega), hs.head2_eq (by omega) (by omega) (by omega),
      ← h.lo_eq, if_pos hzero]
    exact hdrop
  · rw [if_neg hzero, ← h.lo_eq, if_neg hzero]
    exact hl

theorem best3_step (h : Indexed text best s pos) (hs : Sees text s pos) (v : ℕ) :
    ∀ j, pos + 1 ≤ j + s.n → j < pos + 1 →
      Function.update s.best3 s.bp v (j % (s.n + s.f)) = Function.update best pos v j := by
  intro j hlo hlt
  have hf := hs.three_le_f
  rcases Nat.lt_succ_iff_lt_or_eq.mp hlt with hlt | rfl
  · have hne : j % (s.n + s.f) ≠ s.bp := hs.bp ▸ mod_ne_mod hlt (by omega)
    rw [Function.update_of_ne hne, Function.update_of_ne (Nat.ne_of_lt hlt)]
    exact h.best3 j (by omega) hlt
  · rw [hs.bp, Function.update_self, Function.update_self]

/-- The chain of the place begins at the head of its hash, and leads on as before when the place
gets a link itself. -/
theorem link (h : Indexed text best s pos) (hs : Sees text s pos) (hlen : pos + 3 ≤ text.length)
    (v : ℕ) : Linked (s.n + s.f) (Function.update s.succ3 s.bp v) (s.head3 (head3 s.b s.bp))
        (positions (key3 text) (key3 text pos) (pos - s.n) pos) ∧
      s.llen3 (head3 s.b s.bp) =
        (positions (key3 text) (key3 text pos) (pos - s.n) pos).length := by
  have hf := hs.three_le_f
  have hkey : head3 s.b s.bp = key3 text pos := by
    rw [hs.bp, hs.head3_eq (Nat.le_add_right _ _) (Nat.le_refl _) hlen]
  rw [hkey]
  constructor
  · refine ((h.chained hlen).linked _).update fun j hj => ?_
    obtain ⟨hlo, hlt, -⟩ := mem_positions.mp hj
    rw [hs.bp]
    exact mod_ne_mod hlt (by omega)
  · exact (h.chained hlen).count _

end Indexed

/-! ### The search in the buffer -/

/-- Two numbers less than 256 apart hash to different values. -/
theorem eq_of_hash_eq {x d : ℕ} (hd : d < 256)
    (h : 0x9f5f * x % 2 ^ 32 / 2 ^ 5 % 2 ^ 16 = 0x9f5f * (x + d) % 2 ^ 32 / 2 ^ 5 % 2 ^ 16) :
    d = 0 := by
  have hfar : ∀ d < 256, d = 0 ∨
      31 < 0x9f5f * d % 2 ^ 21 ∧ 0x9f5f * d % 2 ^ 21 + 31 < 2 ^ 21 := by decide +kernel
  have hbits (n : ℕ) : n % 2 ^ 32 / 2 ^ 5 % 2 ^ 16 = n % 2 ^ 21 / 2 ^ 5 := by omega
  rw [hbits, hbits, Nat.mul_add, Nat.add_mod] at h
  have hx := Nat.mod_lt (0x9f5f * x) (show 0 < 2 ^ 21 by decide)
  rcases hfar d hd with hzero | ⟨hlo, hhi⟩
  · exact hzero
  · generalize 0x9f5f * x % 2 ^ 21 = r at h hx
    generalize 0x9f5f * d % 2 ^ 21 = e at h hlo hhi
    omega

/-- With the first two bytes and the hash the third is the same, too. -/
theorem third_eq {b b' : ℕ → UInt8} {p q : ℕ} (h₀ : b p = b' q) (h₁ : b (p + 1) = b' (q + 1))
    (h : head3 b p = head3 b' q) : b (p + 2) = b' (q + 2) := by
  simp only [head3, h₀, h₁] at h
  generalize ((b' q).toNat <<< 5 ^^^ (b' (q + 1)).toNat) <<< 5 = y at h
  -- the third byte changes only the lowest byte of what is hashed
  have hhigh (c : UInt8) : (y ^^^ c.toNat) / 2 ^ 8 = y / 2 ^ 8 := by
    rw [Nat.xor_div_two_pow, Nat.div_eq_of_lt c.toNat_lt, Nat.xor_zero]
  have hx := hhigh (b (p + 2))
  have hx' := hhigh (b' (q + 2))
  have hmask (n : ℕ) : (n % 2 ^ 32) >>> 5 &&& 0xffff = n % 2 ^ 32 / 2 ^ 5 % 2 ^ 16 := by
    rw [Nat.shiftRight_eq_div_pow, show (0xffff : ℕ) = 2 ^ 16 - 1 from rfl,
      Nat.and_two_pow_sub_one_eq_mod]
  rw [hmask, hmask] at h
  suffices heq : y ^^^ (b (p + 2)).toNat = y ^^^ (b' (q + 2)).toNat from
    UInt8.toNat.inj (Nat.xor_right_inj.mp heq)
  generalize y ^^^ (b (p + 2)).toNat = x at h hx ⊢
  generalize y ^^^ (b' (q + 2)).toNat = x' at h hx' ⊢
  rcases Nat.le_total x x' with hle | hle
  · obtain ⟨d, rfl⟩ := Nat.exists_eq_add_of_le hle
    rw [eq_of_hash_eq (by omega) h, Nat.add_zero]
  · obtain ⟨d, rfl⟩ := Nat.exists_eq_add_of_le hle
    rw [eq_of_hash_eq (by omega) h.symm, Nat.add_zero]

/-- The places of a chain that the search may go through. -/
def Candidate (text : List UInt8) (n pos j : ℕ) : Prop :=
  pos ≤ j + n ∧ j < pos ∧ key3 text j = key3 text pos

/-- Bytes in the buffer are compared as those in the text are. -/
theorem Sees.byte_iff (h : Sees text s pos) {j k : ℕ} (hlo : pos ≤ j + s.n) (hlt : j < pos)
    (hk : k < s.look) : s.b (j % (s.n + s.f) + k) = s.b (s.bp + k) ↔
      byteAt text (pos + k) = byteAt text (j + k) := by
  have hlook := h.look
  rw [h.bp, h.read hlo (by omega) (by omega) (by omega),
    h.read (Nat.le_add_right _ _) (by omega) (by omega) (by omega)]
  exact eq_comm

/-- What `swd_search` compares at a place of the chain tells whether the match there is longer,
and how long it is then. -/
theorem search_compare (h : Sees text s pos) {j : ℕ} (hj : Candidate text s.n pos j)
    (h2 : 2 ≤ s.mLen) (hlt : s.mLen < s.look) :
    if s.b (j % (s.n + s.f) + (s.mLen - 1)) = s.b (s.bp + (s.mLen - 1)) ∧
        s.b (j % (s.n + s.f) + s.mLen) = s.b (s.bp + s.mLen) ∧
        s.b (j % (s.n + s.f)) = s.b s.bp ∧
        s.b (j % (s.n + s.f) + 1) = s.b (s.bp + 1)
    then agree s.b s.bp (j % (s.n + s.f)) (s.look - 3) 3 = agree (byteAt text) pos j s.look 0
    else agree (byteAt text) pos j s.look 0 ≤ s.mLen := by
  obtain ⟨hlo, hpos, hkey⟩ := hj
  have hbyte {k : ℕ} (hk : k < s.look) := h.byte_iff hlo hpos hk
  have hdiff {k : ℕ} (hk : k ≤ s.mLen)
      (hne : s.b (j % (s.n + s.f) + k) ≠ s.b (s.bp + k)) :
      agree (byteAt text) pos j s.look 0 ≤ s.mLen :=
    Nat.le_trans (agree_le_of_ne (Nat.zero_le k) fun heq => hne ((hbyte (by omega)).mpr heq)) hk
  split_ifs with hall
  · obtain ⟨-, -, h₀, h₁⟩ := hall
    have hf := h.three_le_f
    have hlook := h.look
    have h₀' := (hbyte (k := 0) (by omega)).mp h₀
    have h₁' := (hbyte (k := 1) (by omega)).mp h₁
    have h₂' := third_eq h₀' h₁' hkey.symm
    have hthree : ∀ k, 0 ≤ k → k < 0 + 3 → byteAt text (pos + k) = byteAt text (j + k) := by
      intro k _ hk
      interval_cases k <;> assumption
    rw [show s.look = 3 + (s.look - 3) by omega, agree_skip hthree, Nat.add_sub_cancel_left]
    refine agree_congr fun k _ hk => ?_
    rw [eq_comm]
    exact hbyte (by omega)
  · by_contra hlong
    refine hall ⟨?_, ?_, ?_, ?_⟩
    all_goals by_contra hne
    · exact hlong (hdiff (Nat.sub_le _ _) hne)
    · exact hlong (hdiff (Nat.le_refl _) hne)
    · exact hlong (hdiff (Nat.zero_le _) hne)
    · exact hlong (hdiff (Nat.le_of_lt h2) hne)

/-- Through the chain the search finds what it finds in the text. -/
theorem search_eq (h : Sees text s pos) {js : List ℕ} {node cnt m : ℕ}
    (hlink : Linked (s.n + s.f) s.succ3 node js) (hjs : ∀ j ∈ js, Candidate text s.n pos j)
    (hbest : ∀ j ∈ js, s.best3 (j % (s.n + s.f)) = best j) (hcnt : cnt ≤ js.length)
    (h2 : 2 ≤ s.mLen) (hlt : s.mLen < s.look) (hpos : s.mPos = m % (s.n + s.f)) :
    s.search node cnt = { s with
      mLen := (plainSearch text s.look s.niceLength best pos (js.take cnt) (s.mLen, m)).1
      mPos := (plainSearch text s.look s.niceLength best pos (js.take cnt) (s.mLen, m)).2 %
        (s.n + s.f) } := by
  induction cnt generalizing s js node m with
  | zero =>
    rw [List.take_zero, plainSearch, ← hpos]
    rfl
  | succ cnt ih =>
    cases js with
    | nil => exact absurd hcnt (Nat.not_succ_le_zero cnt)
    | cons j js =>
      obtain ⟨rfl, hrest⟩ := hlink
      have hcompare := search_compare h (hjs j List.mem_cons_self) h2 hlt
      have hjs' : ∀ j ∈ js, Candidate text s.n pos j :=
        fun j hj => hjs j (List.mem_cons_of_mem _ hj)
      have hbest' : ∀ j ∈ js, s.best3 (j % (s.n + s.f)) = best j :=
        fun j hj => hbest j (List.mem_cons_of_mem _ hj)
      have hcnt' : cnt ≤ js.length := Nat.le_of_succ_le_succ hcnt
      have hskip := ih h hrest hjs' hbest' hcnt' h2 hlt hpos
      have hle := agree_le (b := byteAt text) (p := pos) (q := j) s.look 0
      rw [List.take_succ_cons, plainSearch, Swd.search]
      by_cases hall : s.b (j % (s.n + s.f) + (s.mLen - 1)) = s.b (s.bp + (s.mLen - 1)) ∧
          s.b (j % (s.n + s.f) + s.mLen) = s.b (s.bp + s.mLen) ∧
          s.b (j % (s.n + s.f)) = s.b s.bp ∧ s.b (j % (s.n + s.f) + 1) = s.b (s.bp + 1)
      · rw [if_pos hall] at hcompare ⊢
        simp only [hcompare]
        by_cases hlonger : s.mLen < agree (byteAt text) pos j s.look 0
        · simp only [if_pos hlonger, hbest j List.mem_cons_self]
          split_ifs with hdone
          · rfl
          · have h' : Sees text { s with
                mLen := agree (byteAt text) pos j s.look 0, mPos := j % (s.n + s.f) } pos :=
              h.tables ..
            exact ih h' hrest hjs' hbest' hcnt' (by simp only; omega) (by simp only; omega) rfl
        · simp only [if_neg hlonger]
          exact hskip
      · rw [if_neg hall] at hcompare ⊢
        rw [if_neg (Nat.not_lt.mpr hcompare)]
        exact hskip

/-- A match that the text has at a place: its length and where it starts. -/
structure Agrees (text : List UInt8) (n look pos : ℕ) (m : ℕ × ℕ) : Prop where
  two_le : 2 ≤ m.1
  le_look : m.1 ≤ look
  le_window : pos ≤ m.2 + n
  lt_pos : m.2 < pos
  eq : ∀ i < m.1, byteAt text (pos + i) = byteAt text (m.2 + i)

theorem agrees_plainSearch {n look nice : ℕ} {js : List ℕ} {m : ℕ × ℕ}
    (hm : Agrees text n look pos m) (hjs : ∀ j ∈ js, pos ≤ j + n ∧ j < pos) :
    Agrees text n look pos (plainSearch text look nice best pos js m) := by
  induction js generalizing m with
  | nil => exact hm
  | cons j js ih =>
    have hjs' : ∀ j ∈ js, pos ≤ j + n ∧ j < pos := fun j hj => hjs j (List.mem_cons_of_mem _ hj)
    obtain ⟨hlo, hlt⟩ := hjs j List.mem_cons_self
    have hle := agree_le (b := byteAt text) (p := pos) (q := j) look 0
    rw [Nat.zero_add] at hle
    simp only [plainSearch]
    by_cases hlonger : m.1 < agree (byteAt text) pos j look 0
    · have hj : Agrees text n look pos (agree (byteAt text) pos j look 0, j) :=
        ⟨Nat.le_trans hm.two_le (Nat.le_of_lt hlonger), hle, hlo, hlt,
          fun i hi => eq_of_lt_agree (Nat.zero_le i) hi⟩
      rw [if_pos hlonger]
      split_ifs
      · exact hj
      · exact ih hj hjs'
    · rw [if_neg hlonger]
      exact ih hm hjs'

theorem head2_inj {b b' : ℕ → UInt8} {p q : ℕ} (h : head2 b p = head2 b' q) :
    b p = b' q ∧ b (p + 1) = b' (q + 1) := by
  have hlow (x y : UInt8) : (x.toNat ^^^ y.toNat <<< 8) % 2 ^ 8 = x.toNat := by
    rw [Nat.xor_mod_two_pow, Nat.shiftLeft_eq, Nat.mul_mod_left, Nat.xor_zero,
      Nat.mod_eq_of_lt x.toNat_lt]
  have hhigh (x y : UInt8) : (x.toNat ^^^ y.toNat <<< 8) / 2 ^ 8 = y.toNat := by
    rw [Nat.xor_div_two_pow, Nat.shiftLeft_eq, Nat.mul_div_cancel _ (by decide),
      Nat.div_eq_of_lt x.toNat_lt, Nat.zero_xor]
  constructor
  · have hmod := congrArg (· % 2 ^ 8) h
    simp only [head2, hlow] at hmod
    exact UInt8.toNat.inj hmod
  · have hdiv := congrArg (· / 2 ^ 8) h
    simp only [head2, hhigh] at hdiv
    exact UInt8.toNat.inj hdiv

theorem agrees_plainMatch {n look nice chain : ℕ} {m : ℕ × ℕ}
    (h : plainMatch text look nice best pos n chain = some m) : Agrees text n look pos m := by
  rw [plainMatch] at h
  by_cases hlook : look < 2
  · rw [if_pos hlook] at h
    cases h
  rw [if_neg hlook] at h
  obtain ⟨j, hhead, rfl⟩ := Option.map_eq_some_iff.mp h
  obtain ⟨hlo, hlt, hkey⟩ := mem_positions.mp (List.mem_of_mem_head? hhead)
  obtain ⟨h₀, h₁⟩ := head2_inj hkey
  have htwo : Agrees text n look pos (2, j) := by
    refine ⟨Nat.le_refl 2, Nat.not_lt.mp hlook, by simp only; omega, hlt, fun i hi => ?_⟩
    interval_cases i
    · exact h₀.symm
    · exact h₁.symm
  split_ifs
  · exact htwo
  all_goals
    refine agrees_plainSearch htwo fun i hi => ?_
  · obtain ⟨hilo, hilt, -⟩ := mem_positions.mp (List.mem_of_mem_take hi)
    exact ⟨by omega, hilt⟩
  · obtain ⟨hilo, hilt, -⟩ := mem_positions.mp hi
    exact ⟨by omega, hilt⟩

theorem take_chain {α : Type*} (js : List α) (chain : ℕ) :
    js.take (if chain < js.length ∧ 0 < chain then chain else js.length) =
      if 0 < chain then js.take chain else js := by
  by_cases hpos : 0 < chain
  · rw [if_pos hpos]
    split_ifs with h
    · rfl
    · rw [List.take_length, List.take_of_length_le (by omega)]
  · rw [if_neg hpos, if_neg (by omega), List.take_length]

/-- The table of two bytes has the latest place with those that come next. -/
theorem head2_latest (h : Sees text s pos) (hlen : pos + 2 ≤ text.length)
    (hlatest : Latest (s.n + s.f) nil2 (key2 text) s.head2 (pos - s.n) pos) :
    s.head2 (head2 s.b s.bp) = ((positions (key2 text) (key2 text pos) (pos - s.n) pos).head?.map
      (· % (s.n + s.f))).getD nil2 := by
  rw [h.bp, h.head2_eq (Nat.le_add_right _ _) (Nat.le_refl _) hlen]
  exact hlatest (key2 text pos)

theorem search2_cons (h : Sees text s pos) (hlen : pos + 2 ≤ text.length)
    (hlatest : Latest (s.n + s.f) nil2 (key2 text) s.head2 (pos - s.n) pos) {j : ℕ} {js : List ℕ}
    (hps : positions (key2 text) (key2 text pos) (pos - s.n) pos = j :: js) (hm : s.mLen < 2) :
    s.search2 = (true, { s with mLen := 2, mPos := j % (s.n + s.f) }) := by
  have hf := h.three_le_f
  have hcell := Nat.mod_lt j (show 0 < s.n + s.f by omega)
  have hsize := h.size_le
  have hlat : s.head2 (head2 s.b s.bp) = j % (s.n + s.f) := by
    rw [head2_latest h hlen hlatest, hps]
    rfl
  simp only [Swd.search2, hlat]
  rw [if_neg (by omega), if_pos hm]

/-- With two bytes found the search through the chain begins at them. -/
theorem search_found (h : Sees text s pos) {node cnt j : ℕ}
    (hlink : pos + 3 ≤ text.length → Linked (s.n + s.f) s.succ3 node
      (positions (key3 text) (key3 text pos) (pos - s.n) pos))
    (hbest : ∀ j, pos ≤ j + s.n → j < pos → s.best3 (j % (s.n + s.f)) = best j)
    (hcnt : pos + 3 ≤ text.length →
      cnt = (positions (key3 text) (key3 text pos) (pos - s.n) pos).length)
    {m : ℕ × ℕ} (hmatch : (if s.look < 3 then (2, j) else plainSearch text s.look s.niceLength best
      pos (if 0 < s.maxChain then
        (positions (key3 text) (key3 text pos) (pos - s.n) pos).take s.maxChain
        else positions (key3 text) (key3 text pos) (pos - s.n) pos) (2, j)) = m) :
    (if 3 ≤ s.look then { s with mLen := 2, mPos := j % (s.n + s.f) }.search node
        (if s.maxChain < cnt ∧ 0 < s.maxChain then s.maxChain else cnt)
      else { s with mLen := 2, mPos := j % (s.n + s.f) }) =
      { s with mLen := m.1, mPos := m.2 % (s.n + s.f) } := by
  have hlook := h.look
  by_cases h3 : 3 ≤ s.look
  · have hlen : pos + 3 ≤ text.length := by omega
    have h' : Sees text { s with mLen := 2, mPos := j % (s.n + s.f) } pos := h.tables ..
    have hwindow : ∀ i ∈ positions (key3 text) (key3 text pos) (pos - s.n) pos,
        Candidate text s.n pos i := by
      intro i hi
      obtain ⟨hlo, hlt, hkey⟩ := mem_positions.mp hi
      exact ⟨by omega, hlt, hkey⟩
    have hle : (if s.maxChain < cnt ∧ 0 < s.maxChain then s.maxChain else cnt) ≤
        (positions (key3 text) (key3 text pos) (pos - s.n) pos).length := by
      rw [hcnt hlen]
      split_ifs <;> omega
    have heq := search_eq h' (hlink hlen) hwindow
      (fun i hi => hbest i (hwindow i hi).1 (hwindow i hi).2.1) hle (Nat.le_refl 2) h3 rfl
    rw [if_neg (by omega)] at hmatch
    rw [hcnt hlen, take_chain, ← hcnt hlen] at heq
    simp only [hmatch] at heq
    rw [if_pos h3]
    exact heq
  · rw [if_pos (by omega)] at hmatch
    rw [if_neg h3, ← hmatch]

/-- At a place before the end the window finds the match that the text has there. -/
theorem longest_eq (h : Sees text s pos) (hpos : pos < text.length) (hm : s.mLen = swdThreshold)
    {node : ℕ} (hlatest : pos + 2 ≤ text.length →
      Latest (s.n + s.f) nil2 (key2 text) s.head2 (pos - s.n) pos)
    (hlink : pos + 3 ≤ text.length → Linked (s.n + s.f) s.succ3 node
      (positions (key3 text) (key3 text pos) (pos - s.n) pos))
    (hbest : ∀ j, pos ≤ j + s.n → j < pos → s.best3 (j % (s.n + s.f)) = best j)
    {cnt : ℕ} (hcnt : pos + 3 ≤ text.length →
      cnt = (positions (key3 text) (key3 text pos) (pos - s.n) pos).length) :
    ∃ mPos mOff, s.longest node (if s.maxChain < cnt ∧ 0 < s.maxChain then s.maxChain else cnt) =
        { s with
          mLen := plainLen (plainMatch text s.look s.niceLength best pos s.n s.maxChain)
          mPos := mPos
          mOff := mOff
          best3 := Function.update s.best3 s.bp (if s.look < 2 then s.f + 1 else
            plainLen (plainMatch text s.look s.niceLength best pos s.n s.maxChain)) } ∧
      ∀ m, plainMatch text s.look s.niceLength best pos s.n s.maxChain = some m →
        mOff = pos - m.2 := by
  have hf := h.three_le_f
  have hlook := h.look
  have hone : s.mLen = 1 := hm
  have hnone : plainLen none = s.mLen := hm.symm
  rw [Swd.longest, plainMatch]
  by_cases hshort : s.look < 2
  · have hle : s.look ≤ s.mLen := by omega
    simp only [if_pos hle, if_pos hshort, hnone]
    rw [if_neg (by omega)]
    exact ⟨s.mPos, 0, rfl, fun m hsome => by cases hsome⟩
  · have hlen : pos + 2 ≤ text.length := by omega
    rw [if_neg (by omega)]
    simp only [if_neg hshort]
    cases hps : positions (key2 text) (key2 text pos) (pos - s.n) pos with
    | nil =>
      have hnil : s.head2 (head2 s.b s.bp) = nil2 := by
        rw [head2_latest h hlen (hlatest hlen), hps]
        rfl
      have hsearch : s.search2 = (false, s) := by
        simp only [Swd.search2, hnil, if_true]
      simp only [hsearch, Bool.false_eq_true, false_and, if_false, List.head?_nil, Option.map_none,
        hnone, Nat.lt_irrefl]
      exact ⟨s.mPos, s.mOff, rfl, fun m hsome => by cases hsome⟩
    | cons j js =>
      obtain ⟨m, hmatch⟩ : ∃ m, (if s.look < 3 then (2, j) else plainSearch text s.look s.niceLength
          best pos (if 0 < s.maxChain then
            (positions (key3 text) (key3 text pos) (pos - s.n) pos).take s.maxChain
          else positions (key3 text) (key3 text pos) (pos - s.n) pos) (2, j)) = m := ⟨_, rfl⟩
      have hplain : plainMatch text s.look s.niceLength best pos s.n s.maxChain = some m := by
        rw [plainMatch, if_neg hshort, hps]
        exact congrArg some hmatch
      have hm := agrees_plainMatch hplain
      simp only [search2_cons h hlen (hlatest hlen) hps (by omega), true_and, List.head?_cons,
        Option.map_some, search_found h hlink hbest hcnt hmatch, hmatch]
      refine ⟨m.2 % (s.n + s.f), pos - m.2, ?_, fun m' hm' => by rw [Option.some.inj hm']⟩
      have hlen : plainLen (some m) = m.1 := rfl
      have hoff : s.pos2off (m.2 % (s.n + s.f)) = pos - m.2 :=
        h.pos2off_eq hm.le_window hm.lt_pos
      have htwo := hm.two_le
      rw [if_pos (by omega), hlen]
      exact congrArg (fun o => { s with
        mLen := m.1, mPos := m.2 % (s.n + s.f), mOff := o
        best3 := Function.update s.best3 s.bp m.1 }) hoff

/-! ### Along the text -/

structure Tracks (text : List UInt8) (best : ℕ → ℕ) (s : Swd) (pos : ℕ) : Prop where
  sees : Sees text s pos
  indexed : Indexed text best s pos

/-- What is set once for a window and what is set for a search are kept by the operations. -/
structure Kept (s s' : Swd) : Prop where
  n : s'.n = s.n
  f : s'.f = s.f
  maxChain : s'.maxChain = s.maxChain
  niceLength : s'.niceLength = s.niceLength

theorem Kept.trans {s s' s'' : Swd} (h : Kept s s') (h' : Kept s' s'') : Kept s s'' :=
  ⟨h'.n.trans h.n, h'.f.trans h.f, h'.maxChain.trans h.maxChain,
    h'.niceLength.trans h.niceLength⟩

theorem kept_getbyte (s : Swd) : Kept s (s.getbyte text) := by
  rw [Swd.getbyte]
  split <;> exact ⟨rfl, rfl, rfl, rfl⟩

/-- Reading on does not touch the tables. -/
theorem Indexed.getbyte (h : Indexed text best s pos) : Indexed text best (s.getbyte text) pos := by
  rw [Swd.getbyte]
  split <;> exact ⟨h.nodeCount, h.chained, h.latest, h.best3⟩

theorem Tracks.accept_succ (h : Tracks text best s pos) (hpos : pos < text.length) :
    ∃ s', (∀ n, s.accept text (n + 1) = s'.accept text n) ∧
      Tracks text (Function.update best pos (s.f + 1)) s' (pos + 1) ∧ Kept s s' := by
  obtain ⟨hs, hi⟩ := h
  have hn := hs.three_le_n
  have hnode := hi.nodeCount
  refine ⟨_, fun n => rfl, ?_, ?_⟩
  · rw [removeNode_eq]
    refine ⟨Sees.getbyte (hs.tables ..) hpos, Indexed.getbyte ⟨by simp only; omega, fun hlen => ?_,
      fun hlen => hi.latest_step hs (by omega), hi.best3_step hs _⟩⟩
    have hdrop := hi.chained_drop hs (by omega) (Nat.le_refl _) (hi.chained (by omega))
    have hinsert := hdrop.insert (by omega) (by omega)
    rw [← hs.head3_eq (Nat.le_add_right _ _) (Nat.le_refl _) (by omega), ← hs.bp] at hinsert
    exact hinsert
  · refine Kept.trans ?_ (kept_getbyte _)
    rw [removeNode_eq]
    exact ⟨rfl, rfl, rfl, rfl⟩

/-- The places that `swd_accept` goes over get a length longer than any match. -/
def bestAccept (f : ℕ) (best : ℕ → ℕ) (pos n j : ℕ) : ℕ :=
  if pos ≤ j ∧ j < pos + n then f + 1 else best j

theorem Tracks.accept (h : Tracks text best s pos) (n : ℕ) (hpos : pos + n ≤ text.length) :
    Tracks text (bestAccept s.f best pos n) (s.accept text n) (pos + n) ∧
      Kept s (s.accept text n) := by
  induction n generalizing s best pos with
  | zero =>
    have heq : bestAccept s.f best pos 0 = best := by
      funext j
      exact if_neg (by omega)
    exact ⟨by rw [heq]; exact h, ⟨rfl, rfl, rfl, rfl⟩⟩
  | succ n ih =>
    obtain ⟨s', heq, h', hk⟩ := h.accept_succ (by omega)
    obtain ⟨htracks, hkept⟩ := ih h' (by omega)
    have hbest : bestAccept s'.f (Function.update best pos (s.f + 1)) (pos + 1) n =
        bestAccept s.f best pos (n + 1) := by
      funext j
      rw [bestAccept, bestAccept, hk.f]
      by_cases hj : j = pos
      · rw [if_neg (by omega), if_pos (by omega), hj, Function.update_self]
      · rw [Function.update_of_ne hj]
        exact if_congr (by omega) rfl rfl
    rw [heq, ← hbest, show pos + (n + 1) = pos + 1 + n by omega]
    exact ⟨htracks, hk.trans hkept⟩

/-- A search finds the match that the text has, and the tables have the place. -/
theorem Tracks.findbest (h : Tracks text best s pos) (hpos : pos < text.length)
    (hm : s.mLen = swdThreshold) :
    ∃ m, m = plainMatch text s.look s.niceLength best pos s.n s.maxChain ∧
      Tracks text (Function.update best pos (if s.look < 2 then s.f + 1 else plainLen m))
        (s.findbest.getbyte text) (pos + 1) ∧
      Kept s s.findbest ∧ s.findbest.mLen = plainLen m ∧
      (∀ m', m = some m' → s.findbest.mOff = pos - m'.2) ∧ s.findbest.bChar.isSome := by
  obtain ⟨hs, hi⟩ := h
  have hn := hs.three_le_n
  have hf := hs.three_le_f
  have hnode := hi.nodeCount
  have hsize : 0 < s.n + s.f := by omega
  have hkey (hlen : pos + 3 ≤ text.length) : head3 s.b s.bp = key3 text pos := by
    rw [hs.bp, hs.head3_eq (Nat.le_add_right _ _) (Nat.le_refl _) hlen]
  obtain ⟨s₁, hs₁⟩ : ∃ s₁, s₁ = { s with
      succ3 := Function.update s.succ3 s.bp (s.head3 (head3 s.b s.bp))
      llen3 := Function.update s.llen3 (head3 s.b s.bp) (s.llen3 (head3 s.b s.bp) + 1)
      head3 := Function.update s.head3 (head3 s.b s.bp) s.bp
      bChar := some (s.b s.bp) } := ⟨_, rfl⟩
  have hsees : Sees text s₁ pos := by
    rw [hs₁]
    exact hs.tables ..
  have hlink : pos + 3 ≤ text.length → Linked (s₁.n + s₁.f) s₁.succ3 (s.head3 (head3 s.b s.bp))
      (positions (key3 text) (key3 text pos) (pos - s₁.n) pos) := by
    intro hlen
    rw [hs₁]
    exact (hi.link hs hlen _).1
  have hcnt : pos + 3 ≤ text.length → s.llen3 (head3 s.b s.bp) =
      (positions (key3 text) (key3 text pos) (pos - s₁.n) pos).length := by
    intro hlen
    rw [hs₁]
    exact (hi.link hs hlen 0).2
  have hbest₁ : ∀ j, pos ≤ j + s₁.n → j < pos → s₁.best3 (j % (s₁.n + s₁.f)) = best j := by
    rw [hs₁]
    exact hi.best3
  obtain ⟨mPos, mOff, hlongest, hoff⟩ := longest_eq hsees hpos (hs₁ ▸ hm) (hs₁ ▸ hi.latest) hlink
    hbest₁ hcnt
  rw [hs₁] at hlongest hoff
  have hbest : s.findbest = { s with
      succ3 := Function.update s.succ3 s.bp (s.head3 (head3 s.b s.bp))
      head3 := Function.update s.head3 (head3 s.b s.bp) s.bp
      bChar := some (s.b s.bp)
      mLen := plainLen (plainMatch text s.look s.niceLength best pos s.n s.maxChain)
      mPos := mPos
      mOff := mOff
      best3 := Function.update s.best3 s.bp (if s.look < 2 then s.f + 1 else
        plainLen (plainMatch text s.look s.niceLength best pos s.n s.maxChain))
      nodeCount := s.nodeCount - 1
      llen3 := if s.nodeCount = 0 then Function.update
        (Function.update s.llen3 (head3 s.b s.bp) (s.llen3 (head3 s.b s.bp) + 1)) (head3 s.b s.rp)
        (Function.update s.llen3 (head3 s.b s.bp) (s.llen3 (head3 s.b s.bp) + 1)
          (head3 s.b s.rp) - 1)
        else Function.update s.llen3 (head3 s.b s.bp) (s.llen3 (head3 s.b s.bp) + 1)
      head2 := Function.update (if s.nodeCount = 0 then
        if s.head2 (head2 s.b s.rp) = s.rp then Function.update s.head2 (head2 s.b s.rp) nil2
        else s.head2 else s.head2) (head2 s.b s.bp) s.bp } := by
    simp only [Swd.findbest, hlongest, removeNode_eq]
  refine ⟨_, rfl, ?_, ?_, ?_, ?_, ?_⟩
  · rw [hbest]
    refine ⟨Sees.getbyte (hs.tables ..) hpos, Indexed.getbyte ⟨by simp only; omega, fun hlen => ?_,
      fun hlen => hi.latest_step hs (by omega), hi.best3_step hs _⟩⟩
    have hinsert := (hi.chained (by omega)).insert (by omega) (by omega)
    rw [← hkey (by omega), ← hs.bp] at hinsert
    exact hi.chained_drop hs (by omega) (Nat.le_succ _) hinsert
  · rw [hbest]
    exact ⟨rfl, rfl, rfl, rfl⟩
  · rw [hbest]
  · rw [hbest]
    exact hoff
  · rw [hbest]
    rfl

/-- What `swd_init` leaves when the size is given. -/
theorem init_some {garbage : Swd} (h : Swd.init text garbage = some s) (hn : garbage.n ≠ 0)
    (hf : garbage.f ≠ 0) : garbage.n + garbage.f + garbage.f < 2 ^ 32 - 1 ∧ s = { garbage with
      maxChain := swdMaxChain
      niceLength := garbage.f
      bSize := garbage.n + garbage.f
      nodeCount := garbage.n
      llen3 := fun _ => 0
      head2 := fun _ => nil2
      bp := 0
      look := min garbage.f text.length
      b := fun i => if i < min garbage.f text.length then text.getD i 0 else garbage.b i
      cip := min garbage.f text.length
      ip := if min garbage.f text.length = garbage.n + garbage.f then 0
        else min garbage.f text.length
      rp := if garbage.n ≤ 0 then 0 - garbage.n
        else 0 + (garbage.n + garbage.f - garbage.n) } := by
  simp only [Swd.init, if_neg hn, if_neg hf] at h
  by_cases hbig : swdN < garbage.n ∨ swdF < garbage.f
  · rw [if_pos hbig] at h
    cases h
  by_cases hsize : 2 ^ 32 - 1 ≤ garbage.n + garbage.f + garbage.f
  · rw [if_neg hbig, if_pos hsize] at h
    cases h
  rw [if_neg hbig, if_neg hsize] at h
  exact ⟨Nat.not_le.mp hsize, (Option.some.inj h).symm⟩

/-- A window that is set up stands at the beginning of the text, whatever its memory has in it. -/
theorem tracks_init {garbage : Swd} (best : ℕ → ℕ) (h : Swd.init text garbage = some s)
    (hn : 3 ≤ garbage.n) (hf : 3 ≤ garbage.f) :
    Tracks text best s 0 ∧ s.n = garbage.n ∧ s.f = garbage.f := by
  obtain ⟨hsize, rfl⟩ := init_some h (by omega) (by omega)
  have hpos : ¬garbage.n ≤ 0 := by omega
  have hend : ¬min garbage.f text.length = garbage.n + garbage.f := by omega
  refine ⟨⟨⟨hn, hf, ?_, rfl, (Nat.zero_mod _).symm, ?_, ?_, ?_, ?_, buffered_zero _ ?_⟩,
    ⟨rfl, fun _ => ?_, fun _ => ?_, ?_⟩⟩, rfl, rfl⟩
  · simp only [nil2]
    omega
  · simp only [if_neg hpos]
    rw [Nat.zero_add, Nat.zero_add, Nat.add_sub_cancel_left, Nat.mod_eq_of_lt (by omega)]
  · simp only [if_neg hend]
    rw [Nat.zero_add, Nat.mod_eq_of_lt (by omega)]
  · simp only
    omega
  · simp only
    omega
  · intro j x hx hlt
    obtain ⟨hlen, -⟩ := List.getElem?_eq_some_iff.mp hx
    have hbyte := byteAt_eq hlen
    rw [hx] at hbyte
    simp only
    rw [if_pos (Nat.lt_min.mpr ⟨hlt, hlen⟩)]
    exact (Option.some.inj hbyte).symm
  · simp only [Nat.zero_sub]
    exact chained_start _ _ _ _ 0
  · simp only [Nat.zero_sub]
    exact latest_start _ _ _ 0
  · intro j _ hlt
    exact absurd hlt (Nat.not_lt_zero j)

/-- Behind the end of the text there is no byte. -/
theorem Tracks.findbest_end (h : Tracks text best s text.length) :
    s.findbest.bChar = none ∧ (s.findbest.getbyte text).cip = text.length := by
  obtain ⟨hs, -⟩ := h
  have hlook : s.look = 0 := by
    have := hs.look
    omega
  have hcip : s.cip = text.length := by
    have := hs.cip
    omega
  have hnone : text[text.length]? = none := List.getElem?_eq_none (Nat.le_refl _)
  constructor
  · simp only [Swd.findbest, Swd.longest, hlook, Nat.zero_le, removeNode_eq, if_true]
  · simp only [Swd.findbest, Swd.longest, hlook, Nat.zero_le, removeNode_eq, if_true, Swd.getbyte,
      hcip, hnone]

/-- How far it searches does not matter to where a window stands. -/
theorem Tracks.configured (h : Tracks text best s pos) (maxChain niceLength : ℕ) :
    Tracks text best { s with maxChain := maxChain, niceLength := niceLength } pos := by
  obtain ⟨hs, hi⟩ := h
  exact ⟨hs.tables .., ⟨hi.nodeCount, hi.chained, hi.latest, hi.best3⟩⟩

end Maitland.Packer
