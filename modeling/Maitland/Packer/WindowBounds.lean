import Maitland.Packer.WindowMemory

/-!
# The arrays of the window

Nothing in `ucl_swd.ch` compares an index with the size of the array it goes to. The accesses of
each function are listed as it makes them, and in every run of searches all of them are inside
what `swd_init` has allocated.
-/

namespace Maitland.Packer

open SlidingWindow

variable {text : List UInt8}

/-! ### The accesses -/

inductive Access where
  | b (i : ℕ)
  | head3 (key : ℕ)
  | succ3 (node : ℕ)
  | best3 (node : ℕ)
  | llen3 (key : ℕ)
  | head2 (key : ℕ)
  deriving DecidableEq, Repr

/-- The sizes that `swd_init` allocates. -/
def Access.Inside (n f : ℕ) : Access → Prop
  | .b i => i < n + f + f
  | .succ3 node | .best3 node => node < n + f
  | .head3 key | .llen3 key | .head2 key => key < 65536

def head3Reads (p : ℕ) : List Access := [.b p, .b (p + 1), .b (p + 2)]

def head2Reads (p : ℕ) : List Access := [.b p, .b (p + 1)]

namespace Swd

def removeAccesses (s : Swd) (node : ℕ) : List Access :=
  if s.nodeCount = 0 then
    head3Reads node ++ [.llen3 (Packer.head3 s.b node)] ++
      (head2Reads node ++ [.head2 (Packer.head2 s.b node)])
  else []

def getbyteAccesses (text : List UInt8) (s : Swd) : List Access :=
  match text[s.cip]? with
  | none => []
  | some _ => if s.ip < s.f then [.b s.ip, .b (s.bSize + s.ip)] else [.b s.ip]

def acceptAccesses (text : List UInt8) : ℕ → Swd → List Access
  | 0, _ => []
  | n + 1, s =>
    let key := Packer.head3 s.b s.bp
    s.removeAccesses s.rp ++
      (head3Reads s.bp ++ [.succ3 s.bp, .head3 key, .best3 s.bp, .llen3 key]) ++
      (head2Reads s.bp ++ [.head2 (Packer.head2 s.b s.bp)]) ++ s.getbyteAccesses text ++
      acceptAccesses text n (s.accept text 1)

/-- The loop that compares the bytes from the third on. -/
def agreeAccesses (b : ℕ → UInt8) (p q : ℕ) : ℕ → ℕ → List Access
  | 0, _ => []
  | n + 1, i =>
    .b (p + i) :: .b (q + i) :: if b (p + i) = b (q + i) then agreeAccesses b p q n (i + 1) else []

/-- The link is read even when the count is used up, and `scan_end1` again after a longer match. -/
def searchLoopAccesses (s : Swd) (node : ℕ) : ℕ → List Access
  | 0 => []
  | cnt + 1 =>
    [.b (node + (s.mLen - 1)), .b (node + s.mLen), .b (s.bp + s.mLen), .b node, .b s.bp,
      .b (node + 1), .b (s.bp + 1)] ++
    if s.b (node + (s.mLen - 1)) = s.b (s.bp + (s.mLen - 1)) ∧
        s.b (node + s.mLen) = s.b (s.bp + s.mLen) ∧ s.b node = s.b s.bp ∧
        s.b (node + 1) = s.b (s.bp + 1) then
      let i := agree s.b s.bp node (s.look - 3) 3
      agreeAccesses s.b s.bp node (s.look - 3) 3 ++
        if s.mLen < i then
          let s := { s with mLen := i, mPos := node }
          .best3 node ::
            if i = s.look ∨ s.niceLength ≤ i ∨ s.best3 node < i then []
            else
              .b (s.bp + (i - 1)) :: .succ3 node :: searchLoopAccesses s (s.succ3 node) cnt
        else .succ3 node :: searchLoopAccesses s (s.succ3 node) cnt
    else .succ3 node :: searchLoopAccesses s (s.succ3 node) cnt

/-- `scan_end1` is read before the loop, which may go round no times. -/
def searchAccesses (s : Swd) (node cnt : ℕ) : List Access :=
  .b (s.bp + (s.mLen - 1)) :: s.searchLoopAccesses node cnt

def longestAccesses (s : Swd) (node cnt : ℕ) : List Access :=
  if s.look ≤ s.mLen then [.best3 s.bp]
  else
    head2Reads s.bp ++ [.head2 (Packer.head2 s.b s.bp)] ++
      (if s.search2.1 ∧ 3 ≤ s.search2.2.look then s.search2.2.searchAccesses node cnt else []) ++
      [.best3 s.bp]

def findbestAccesses (s : Swd) : List Access :=
  let key := Packer.head3 s.b s.bp
  let node := s.head3 key
  let cnt := s.llen3 key
  head3Reads s.bp ++ [.head3 key, .succ3 s.bp, .llen3 key, .b s.bp] ++
    { s with
      succ3 := Function.update s.succ3 s.bp node
      llen3 := Function.update s.llen3 key (cnt + 1)
      head3 := Function.update s.head3 key s.bp
      bChar := some (s.b s.bp) }.longestAccesses node
      (if s.maxChain < cnt ∧ 0 < s.maxChain then s.maxChain else cnt) ++
    s.removeAccesses s.rp ++ (head2Reads s.bp ++ [.head2 (Packer.head2 s.b s.bp)])

end Swd

def findMatchAccesses (text : List UInt8) (c : Compress) (thisLen skip : ℕ) : List Access :=
  let s := if 0 < skip then c.swd.accept text (thisLen - skip) else c.swd
  let s := { s with mLen := swdThreshold }
  (if 0 < skip then c.swd.acceptAccesses text (thisLen - skip) else []) ++ s.findbestAccesses ++
    s.findbest.getbyteAccesses text

def runAccesses (text : List UInt8) : List Call → Compress → List Access
  | [], _ => []
  | call :: calls, c =>
    findMatchAccesses text (c.withChain call.chain) call.thisLen call.skip ++
      runAccesses text calls (findMatch text (c.withChain call.chain) call.thisLen call.skip)

/-! ### That they are inside -/

theorem head3_lt (b : ℕ → UInt8) (p : ℕ) : head3 b p < 65536 := by
  simp only [head3]
  exact Nat.lt_of_le_of_lt Nat.and_le_right (by decide)

theorem head2_lt (b : ℕ → UInt8) (p : ℕ) : head2 b p < 65536 := by
  have hhigh : (b (p + 1)).toNat <<< 8 < 2 ^ 16 := by
    have := (b (p + 1)).toNat_lt
    rw [Nat.shiftLeft_eq]
    omega
  have hlow : (b p).toNat < 2 ^ 16 := Nat.lt_of_lt_of_le (b p).toNat_lt (by decide)
  exact Nat.xor_lt_two_pow hlow hhigh

section

variable {n f p : ℕ} {as bs : List Access}

/-- All accesses of a list are inside. -/
def AllInside (n f : ℕ) (as : List Access) : Prop := ∀ a ∈ as, a.Inside n f

theorem allInside_nil : AllInside n f [] := fun _ ha => absurd ha List.not_mem_nil

theorem AllInside.cons {a : Access} (h : a.Inside n f) (hs : AllInside n f as) :
    AllInside n f (a :: as) := by
  intro a' ha'
  rcases List.mem_cons.mp ha' with rfl | ha'
  · exact h
  · exact hs a' ha'

theorem AllInside.append (h : AllInside n f as) (h' : AllInside n f bs) :
    AllInside n f (as ++ bs) := by
  intro a ha
  rcases List.mem_append.mp ha with ha | ha
  · exact h a ha
  · exact h' a ha

theorem head3Reads_inside (hp : p < n + f) (hf : 3 ≤ f) : AllInside n f (head3Reads p) := by
  refine .cons ?_ (.cons ?_ (.cons ?_ allInside_nil))
  all_goals
    simp only [Access.Inside]
    omega

theorem head2Reads_inside (b : ℕ → UInt8) (hp : p < n + f) (hf : 3 ≤ f) :
    AllInside n f (head2Reads p ++ [.head2 (head2 b p)]) := by
  refine .append (.cons ?_ (.cons ?_ allInside_nil)) (.cons (head2_lt b p) allInside_nil)
  all_goals
    simp only [Access.Inside]
    omega

theorem removeAccesses_inside (s : Swd) (hp : p < n + f) (hf : 3 ≤ f) :
    AllInside n f (s.removeAccesses p) := by
  rw [Swd.removeAccesses]
  split_ifs
  · have hkey : (Access.llen3 (head3 s.b p)).Inside n f := head3_lt _ _
    exact ((head3Reads_inside hp hf).append (.cons hkey allInside_nil)).append
      (head2Reads_inside _ hp hf)
  · exact allInside_nil

theorem agreeAccesses_inside {b : ℕ → UInt8} {q m i : ℕ} (hp : p < n + f) (hq : q < n + f)
    (hm : m + i ≤ f) : AllInside n f (Swd.agreeAccesses b p q m i) := by
  induction m generalizing i with
  | zero => exact allInside_nil
  | succ m ih =>
    rw [Swd.agreeAccesses]
    refine .cons ?_ (.cons ?_ ?_)
    · simp only [Access.Inside]
      omega
    · simp only [Access.Inside]
      omega
    · split_ifs
      · exact ih (by omega)
      · exact allInside_nil

end

/-- The search goes only to places of the chain, and no farther from them than it looks. -/
theorem searchLoopAccesses_inside {n f : ℕ} {s : Swd} {js : List ℕ} {node cnt : ℕ}
    (hlink : Linked (n + f) s.succ3 node js) (hcnt : cnt ≤ js.length) (hbp : s.bp < n + f)
    (hlook : s.look ≤ f) (h3 : 3 ≤ s.look) (hlt : s.mLen < s.look) :
    AllInside n f (s.searchLoopAccesses node cnt) := by
  induction cnt generalizing s js node with
  | zero => exact allInside_nil
  | succ cnt ih =>
    cases js with
    | nil => exact absurd hcnt (Nat.not_succ_le_zero cnt)
    | cons j js =>
      obtain ⟨rfl, hrest⟩ := hlink
      have hcnt' : cnt ≤ js.length := Nat.le_of_succ_le_succ hcnt
      have hnode := Nat.mod_lt j (show 0 < n + f by omega)
      have hbest : (Access.best3 (j % (n + f))).Inside n f := hnode
      have hsucc : (Access.succ3 (j % (n + f))).Inside n f := hnode
      have hskip := AllInside.cons hsucc (ih hrest hcnt' hbp hlook h3 hlt)
      have hagree := agreeAccesses_inside (b := s.b) hbp hnode (show s.look - 3 + 3 ≤ f by omega)
      have hle := agree_le (b := s.b) (p := s.bp) (q := j % (n + f)) (s.look - 3) 3
      rw [Swd.searchLoopAccesses]
      refine .append (.cons ?_ (.cons ?_ (.cons ?_ (.cons ?_ (.cons ?_ (.cons ?_ (.cons ?_
        allInside_nil))))))) ?_
      iterate 7
        · simp only [Access.Inside]
          omega
      split_ifs
      · refine hagree.append ?_
        simp only
        split_ifs
        · exact .cons hbest allInside_nil
        · have hend : (Access.b (s.bp + (agree s.b s.bp (j % (n + f)) (s.look - 3) 3 - 1))).Inside
              n f := by
            simp only [Access.Inside]
            omega
          refine .cons hbest (.cons hend (.cons hsucc ?_))
          exact ih hrest hcnt' hbp hlook h3 (by simp only; omega)
        · exact hskip
      · exact hskip

theorem searchAccesses_inside {n f : ℕ} {s : Swd} {js : List ℕ} {node cnt : ℕ}
    (hlink : Linked (n + f) s.succ3 node js) (hcnt : cnt ≤ js.length) (hbp : s.bp < n + f)
    (hlook : s.look ≤ f) (h3 : 3 ≤ s.look) (hlt : s.mLen < s.look) :
    AllInside n f (s.searchAccesses node cnt) := by
  refine .cons ?_ (searchLoopAccesses_inside hlink hcnt hbp hlook h3 hlt)
  simp only [Access.Inside]
  omega

/-! ### Every run -/

namespace Sees

variable {s : Swd} {pos : ℕ}

theorem size_pos (h : Sees text s pos) : 0 < s.n + s.f := by
  have := h.three_le_n
  omega

theorem bp_lt (h : Sees text s pos) : s.bp < s.n + s.f := h.bp ▸ Nat.mod_lt _ h.size_pos

theorem rp_lt (h : Sees text s pos) : s.rp < s.n + s.f := h.rp ▸ Nat.mod_lt _ h.size_pos

theorem ip_lt (h : Sees text s pos) : s.ip < s.n + s.f := h.ip ▸ Nat.mod_lt _ h.size_pos

theorem getbyteAccesses_inside (h : Sees text s pos) :
    AllInside s.n s.f (s.getbyteAccesses text) := by
  have hip := h.ip_lt
  have hbSize := h.bSize
  rw [Swd.getbyteAccesses]
  split
  · exact allInside_nil
  · split_ifs
    · refine .cons ?_ (.cons ?_ allInside_nil)
      all_goals
        simp only [Access.Inside]
        omega
    · refine .cons ?_ allInside_nil
      simp only [Access.Inside]
      omega

end Sees

/-- The arrays that a place is put into. -/
theorem inside_of_key {n f bp key : ℕ} (hbp : bp < n + f) (hkey : key < 65536) :
    AllInside n f [.succ3 bp, .head3 key, .best3 bp, .llen3 key] :=
  .cons (show bp < n + f from hbp) (.cons (show key < 65536 from hkey)
    (.cons (show bp < n + f from hbp) (.cons (show key < 65536 from hkey) allInside_nil)))

theorem acceptAccesses_inside {best : ℕ → ℕ} {s : Swd} {pos : ℕ} (h : Tracks text best s pos)
    (k : ℕ) (hpos : pos + k ≤ text.length) : AllInside s.n s.f (s.acceptAccesses text k) := by
  induction k generalizing s best pos with
  | zero => exact allInside_nil
  | succ k ih =>
    have hf := h.sees.three_le_f
    obtain ⟨hnext, hkept⟩ := h.accept 1 (by omega)
    have hrest := ih hnext (by omega)
    rw [hkept.n, hkept.f] at hrest
    rw [Swd.acceptAccesses]
    refine .append (.append (.append (.append ?_ (.append ?_ ?_)) ?_) ?_) hrest
    · exact removeAccesses_inside s h.sees.rp_lt hf
    · exact head3Reads_inside h.sees.bp_lt hf
    · exact inside_of_key h.sees.bp_lt (head3_lt _ _)
    · exact head2Reads_inside _ h.sees.bp_lt hf
    · exact h.sees.getbyteAccesses_inside

/-- Where the match is looked for the search stays in its chain, when there is one. -/
theorem longestAccesses_inside {s : Swd} {node cnt : ℕ} {js : List ℕ} (hm : s.mLen = swdThreshold)
    (hlink : 3 ≤ s.look → Linked (s.n + s.f) s.succ3 node js) (hcnt : 3 ≤ s.look → cnt ≤ js.length)
    (hbp : s.bp < s.n + s.f) (hf : 3 ≤ s.f) (hlook : s.look ≤ s.f) :
    AllInside s.n s.f (s.longestAccesses node cnt) := by
  have hbest : (Access.best3 s.bp).Inside s.n s.f := hbp
  rw [Swd.longestAccesses]
  split_ifs with hshort hfound
  · exact .cons hbest allInside_nil
  · refine .append (.append (head2Reads_inside _ hbp hf) ?_) (.cons hbest allInside_nil)
    have hsearch : s.search2.2 = { s with
        mLen := 2, mPos := s.head2 (head2 s.b s.bp) } := by
      have htrue := hfound.1
      simp only [Swd.search2] at htrue ⊢
      by_cases hnil : s.head2 (head2 s.b s.bp) = nil2
      · rw [if_pos hnil] at htrue
        cases htrue
      · rw [if_neg hnil, if_pos (show s.mLen < 2 from hm ▸ Nat.one_lt_two)]
    have h3 := hfound.2
    rw [hsearch] at h3 ⊢
    exact searchAccesses_inside (hlink h3) (hcnt h3) hbp hlook h3 h3
  · exact .append (.append (head2Reads_inside _ hbp hf) allInside_nil)
      (.cons hbest allInside_nil)

theorem findbestAccesses_inside {best : ℕ → ℕ} {s : Swd} {pos : ℕ} (h : Tracks text best s pos)
    (hm : s.mLen = swdThreshold) : AllInside s.n s.f s.findbestAccesses := by
  obtain ⟨hs, hi⟩ := h
  have hf := hs.three_le_f
  have hlook := hs.look
  have hbp := hs.bp_lt
  have hkey := head3_lt s.b s.bp
  rw [Swd.findbestAccesses]
  refine .append (.append (.append (.append (head3Reads_inside hbp hf) ?_) ?_) ?_) ?_
  · refine .cons (show head3 s.b s.bp < 65536 from hkey) (.cons (show s.bp < s.n + s.f from hbp)
      (.cons (show head3 s.b s.bp < 65536 from hkey) (.cons ?_ allInside_nil)))
    simp only [Access.Inside]
    omega
  · refine longestAccesses_inside hm (fun h3 => (hi.link hs ?_ _).1) (fun h3 => ?_) hbp hf
      (by simp only; omega)
    · simp only at h3
      omega
    · simp only at h3
      have hcount := (hi.link hs (by omega) 0).2
      split_ifs <;> omega
  · exact removeAccesses_inside s hs.rp_lt hf
  · exact head2Reads_inside _ hbp hf

/-- A search changes only what it has found. -/
theorem search_frame (s : Swd) (node cnt : ℕ) :
    ∃ mLen mPos, s.search node cnt = { s with mLen := mLen, mPos := mPos } := by
  induction cnt generalizing s node with
  | zero => exact ⟨s.mLen, s.mPos, rfl⟩
  | succ cnt ih =>
    rw [Swd.search]
    split_ifs
    · simp only
      split_ifs
      · exact ⟨_, _, rfl⟩
      · obtain ⟨mLen, mPos, heq⟩ := ih { s with
          mLen := agree s.b s.bp node (s.look - 3) 3, mPos := node } (s.succ3 node)
        exact ⟨mLen, mPos, heq⟩
      · exact ih s (s.succ3 node)
    · exact ih s (s.succ3 node)

theorem longest_frame (s : Swd) (node cnt : ℕ) : ∃ bChar mLen mPos mOff best3,
    s.longest node cnt = { s with
      bChar := bChar, mLen := mLen, mPos := mPos, mOff := mOff, best3 := best3 } := by
  rw [Swd.longest]
  by_cases hle : s.look ≤ s.mLen
  · exact ⟨_, s.mLen, s.mPos, _, _, if_pos hle⟩
  · rw [if_neg hle]
    obtain ⟨mLen₂, mPos₂, h₂⟩ :
        ∃ mLen mPos, s.search2.2 = { s with mLen := mLen, mPos := mPos } := by
      rw [Swd.search2]
      split_ifs <;> exact ⟨_, _, rfl⟩
    obtain ⟨mLen₃, mPos₃, h₃⟩ := search_frame s.search2.2 node cnt
    rw [h₂] at h₃
    simp only [h₂, h₃]
    split_ifs <;> exact ⟨_, _, _, _, _, rfl⟩

theorem Sees.findbest {s : Swd} {pos : ℕ} (h : Sees text s pos) :
    Sees text s.findbest pos ∧ s.findbest.n = s.n ∧ s.findbest.f = s.f := by
  obtain ⟨bChar, mLen, mPos, mOff, best3, heq⟩ := longest_frame { s with
      succ3 := Function.update s.succ3 s.bp (s.head3 (head3 s.b s.bp))
      llen3 := Function.update s.llen3 (head3 s.b s.bp) (s.llen3 (head3 s.b s.bp) + 1)
      head3 := Function.update s.head3 (head3 s.b s.bp) s.bp
      bChar := some (s.b s.bp) } (s.head3 (head3 s.b s.bp))
    (if s.maxChain < s.llen3 (head3 s.b s.bp) ∧ 0 < s.maxChain then s.maxChain
      else s.llen3 (head3 s.b s.bp))
  simp only [Swd.findbest, heq, removeNode_eq]
  exact ⟨h.tables .., trivial, trivial⟩

/-- The calls do not go past the end of the text, which only the last one may come to. -/
def UpTo (len : ℕ) : ℕ → List Call → Prop
  | _, [] => True
  | next, call :: calls =>
    next + call.accepted ≤ len ∧ UpTo len (next + call.accepted + 1) calls

theorem findMatchAccesses_inside {best : ℕ → ℕ} {c : Compress} {next : ℕ}
    (h : Tracks text best c.swd next) (thisLen skip : ℕ)
    (hle : next + (if 0 < skip then thisLen - skip else 0) ≤ text.length) :
    AllInside c.swd.n c.swd.f (findMatchAccesses text c thisLen skip) := by
  generalize hk : (if 0 < skip then thisLen - skip else 0) = k at hle
  have hacc : (if 0 < skip then c.swd.accept text (thisLen - skip) else c.swd) =
      c.swd.accept text k := by
    rw [← hk]
    split_ifs <;> rfl
  have haccesses : (if 0 < skip then c.swd.acceptAccesses text (thisLen - skip) else []) =
      c.swd.acceptAccesses text k := by
    rw [← hk]
    split_ifs <;> rfl
  obtain ⟨hat, hkept⟩ := h.accept k hle
  have hreset := hat.reset
  obtain ⟨hsees, hn, hf⟩ := hreset.sees.findbest
  have hsearch : AllInside c.swd.n c.swd.f
      { c.swd.accept text k with mLen := swdThreshold }.findbestAccesses := by
    rw [← hkept.n, ← hkept.f]
    exact findbestAccesses_inside hreset rfl
  have hread : AllInside c.swd.n c.swd.f
      ({ c.swd.accept text k with mLen := swdThreshold }.findbest.getbyteAccesses text) := by
    have hinside := hsees.getbyteAccesses_inside
    rw [hn, hf] at hinside
    rw [← hkept.n, ← hkept.f]
    exact hinside
  simp only [findMatchAccesses, hacc, haccesses]
  exact ((acceptAccesses_inside h k hle).append hsearch).append hread

theorem runAccesses_inside {best : ℕ → ℕ} {c : Compress} {next : ℕ} {calls : List Call}
    (h : Tracks text best c.swd next) (hcalls : UpTo text.length next calls) :
    AllInside c.swd.n c.swd.f (runAccesses text calls c) := by
  induction calls generalizing best c next with
  | nil => exact allInside_nil
  | cons call calls ih =>
    obtain ⟨hle, hrest⟩ := hcalls
    have ht : Tracks text best (c.withChain call.chain).swd next :=
      h.configured call.chain c.swd.niceLength
    have hcall := findMatchAccesses_inside ht call.thisLen call.skip hle
    rw [runAccesses]
    refine AllInside.append hcall ?_
    rcases Nat.eq_or_lt_of_le hle with hend | hlt
    · cases calls with
      | nil => exact allInside_nil
      | cons call' calls =>
        have := hrest.1
        omega
    · obtain ⟨m, best', -, -, hnext, hkept, -⟩ :=
        findMatch_eq ht call.thisLen call.skip rfl hlt
      have htail := ih hnext hrest
      rw [hkept.n, hkept.f] at htail
      exact htail

/-- No search reads or writes behind the arrays of the window, in any run of searches to the end of
the text and whatever was in the memory. -/
theorem window_accesses_inside {garbage s : Swd} {c : Compress} {nice : ℕ} {calls : List Call}
    (hinit : Swd.init text garbage = some s) (hn : 3 ≤ garbage.n) (hf : 3 ≤ garbage.f)
    (hc : c.swd = { s with niceLength := nice }) (hcalls : UpTo text.length 0 calls) :
    ∀ a ∈ runAccesses text calls c, a.Inside garbage.n garbage.f := by
  obtain ⟨htracks, hn', hf'⟩ := tracks_init (fun _ => 0) hinit hn hf
  have ht : Tracks text (fun _ => 0) c.swd 0 := hc ▸ htracks.configured s.maxChain nice
  have hinside := runAccesses_inside ht hcalls
  rw [show c.swd.n = garbage.n from hc ▸ hn', show c.swd.f = garbage.f from hc ▸ hf'] at hinside
  exact hinside

/-- A match, and the search that comes to the end. -/
theorem window_accesses_inside_repeated :
    ∃ s, Swd.init [1, 2, 1, 2, 1, 2] { zeroed with n := 256, f := 8 } = some s ∧
      ∀ a ∈ runAccesses [1, 2, 1, 2, 1, 2] [⟨4, 0, 0⟩, ⟨4, 1, 0⟩, ⟨4, 1, 0⟩, ⟨4, 4, 1⟩]
        ⟨.init, 0, 0, 0, 1, 0, { s with niceLength := 8 }⟩, a.Inside 256 8 := by
  obtain ⟨s, hs⟩ : ∃ s, Swd.init [1, 2, 1, 2, 1, 2] { zeroed with n := 256, f := 8 } = some s :=
    ⟨_, rfl⟩
  have hcalls : UpTo 6 0 [⟨4, 0, 0⟩, ⟨4, 1, 0⟩, ⟨4, 1, 0⟩, ⟨4, 4, 1⟩] := by
    simp [UpTo, Call.accepted]
  exact ⟨s, hs, window_accesses_inside hs (by decide) (by decide) rfl hcalls⟩

end Maitland.Packer
