import Mathlib.Algebra.Group.Nat.Defs
import Maitland.Server.Dump

/-!
# The signature search

`search.py` looks for a string in a file, chunk by chunk.  The two lines that it prints
before it opens the file are left out.
-/

namespace Maitland

/-- A digit of an escape `=XY`. -/
def isHexDigit (b : BitVec 8) : Bool :=
  (0x41 ≤ b && b ≤ 0x46) || (0x61 ≤ b && b ≤ 0x66) || (0x30 ≤ b && b ≤ 0x39)

def hexval (b : BitVec 8) : BitVec 8 :=
  if b ≤ 0x39 then b - 0x30 else if b ≤ 0x46 then b - 0x37 else b - 0x57

/-- `binascii.a2b_qp` from a byte on; `skipping` is the rest of a soft line break, up to its
line feed. -/
def a2bQpFrom : Bool → List (BitVec 8) → List (BitVec 8)
  | _, [] => []
  | true, b :: rest => a2bQpFrom (b != 0x0a) rest
  | false, b :: rest =>
    if b ≠ 0x3d then b :: a2bQpFrom false rest
    else
      match rest with
      | [] => []
      | c :: rest =>
        if c = 0x0a then a2bQpFrom false rest
        else if c = 0x0d then a2bQpFrom true rest
        else if c = 0x3d then 0x3d :: a2bQpFrom false rest
        else
          match rest with
          | [] => [0x3d, c]
          | d :: rest' =>
            if isHexDigit c && isHexDigit d then
              (hexval c <<< 4 ||| hexval d) :: a2bQpFrom false rest'
            else 0x3d :: c :: a2bQpFrom false (d :: rest')

def a2bQp (string : List (BitVec 8)) : List (BitVec 8) := a2bQpFrom false string

/-- `str.find`: the first position of `sub`, or -1. -/
def strFind (string sub : List (BitVec 8)) : ℤ :=
  match (List.range (string.length + 1)).find? fun i => sub.isPrefixOf (string.drop i) with
  | some i => i
  | none => -1

/-- What the loop prints. -/
inductive SearchLine where
  | found
  | advancing (byte : ℕ)
  deriving DecidableEq

/-- `while(new_chunk)`, with the number of rounds it may take.  `none` when they do not
suffice. -/
def searchLoop (string : List (BitVec 8)) : ℕ → SeekFile (BitVec 8) → List (BitVec 8) →
    List (BitVec 8) → ℕ → Option (List SearchLine)
  | 0, _, _, _, _ => none
  | n + 1, f1, newChunk, str2, index =>
    if newChunk.isEmpty then some []
    else
      let str1 := str2
      let str2 := newChunk
      let combined := str1 ++ str2
      let tmp := a2bQp string
      if 0 ≤ strFind combined tmp then some [.found]
      else
        let f1 := f1.seek index
        let r := f1.read 1096
        (searchLoop string n r.2 r.1 str2 (index + index)).map (.advancing index :: ·)

/-- From the open of the file to its close. -/
def search (rounds : ℕ) (content string : List (BitVec 8)) : Option (List SearchLine) :=
  let f1 : SeekFile (BitVec 8) := ⟨content, 0⟩
  let r := f1.read 1096
  searchLoop string rounds r.2 r.1 [] 1096

example : a2bQp [0x61, 0x3d, 0x34, 0x31, 0x3d, 0x0d, 0x20, 0x0a, 0x3d, 0x78] =
    [0x61, 0x41, 0x3d, 0x78] := by decide

/-- A search string, not empty, with a decoded form of at most one chunk. -/
structure SearchString where
  bytes : List (BitVec 8)
  bytes_ne_nil : bytes ≠ []
  decoded_le : (a2bQp bytes).length ≤ 1096

/-- The search ends, and reports the string exactly when the file holds it. -/
def SearchExact (content : List (BitVec 8)) (string : SearchString) : Prop :=
  ∃ output enough, (∀ rounds, enough ≤ rounds → search rounds content string.bytes = some output) ∧
    (.found ∈ output ↔ a2bQp string.bytes <:+: content)

section Chunks

variable (content : List (BitVec 8))

/-- What a read at a position gives. -/
def chunk (pos : ℕ) : List (BitVec 8) := (content.drop pos).take 1096

/-- The chunks that are joined from the fourth round on: the second begins at twice the
position of the first. -/
def junction (k : ℕ) : List (BitVec 8) :=
  chunk content (1096 * 2 ^ (k + 1)) ++ chunk content (1096 * 2 ^ (k + 2))

end Chunks

variable {content string : List (BitVec 8)}

theorem strFind_nonneg_iff {sub : List (BitVec 8)} : 0 ≤ strFind string sub ↔ sub <:+: string := by
  rw [strFind]
  split
  · next i hi =>
    have hpre : sub <+: string.drop i := by simpa using List.find?_some hi
    exact iff_of_true (Int.natCast_nonneg i) (hpre.isInfix.trans (List.drop_suffix _ _).isInfix)
  · next hnone =>
    refine iff_of_false (by decide) ?_
    rintro ⟨s, t, rfl⟩
    have hlt : s.length < (s ++ sub ++ t).length + 1 := by
      rw [List.length_append, List.length_append]
      omega
    have hs := List.find?_eq_none.mp hnone s.length (List.mem_range.mpr hlt)
    simp at hs

theorem chunk_eq_nil_iff {pos : ℕ} : chunk content pos = [] ↔ content.length ≤ pos := by
  rw [chunk, List.take_eq_nil_iff, List.drop_eq_nil_iff]
  simp

/-- What the loop looks at from the second round on: this chunk after the one before it,
and then every chunk with the one at twice its position. -/
def Sees (content tmp before : List (BitVec 8)) (pos : ℕ) : Prop :=
  (pos < content.length ∧ tmp <:+: before ++ chunk content pos) ∨
    ∃ k, pos * 2 ^ (k + 1) < content.length ∧
      tmp <:+: chunk content (pos * 2 ^ k) ++ chunk content (pos * 2 ^ (k + 1))

variable {tmp before : List (BitVec 8)} {pos : ℕ}

theorem not_sees_of_le (h : content.length ≤ pos) : ¬Sees content tmp before pos := by
  rintro (⟨hpos, -⟩ | ⟨k, hk, -⟩)
  · omega
  · have := Nat.le_mul_of_pos_right pos (Nat.two_pow_pos (k + 1))
    omega

theorem sees_iff (h : pos < content.length) :
    Sees content tmp before pos ↔
      tmp <:+: before ++ chunk content pos ∨ Sees content tmp (chunk content pos) (pos + pos) := by
  have hdouble : ∀ k, (pos + pos) * 2 ^ k = pos * 2 ^ (k + 1) := by
    intro k
    rw [← Nat.two_mul, Nat.mul_comm 2, Nat.mul_assoc, ← Nat.pow_succ']
  simp only [Sees, h, true_and, hdouble]
  refine or_congr_right ⟨?_, ?_⟩
  · rintro ⟨_ | k, hk⟩
    · rw [Nat.pow_zero, Nat.mul_one, ← hdouble 0, Nat.pow_zero, Nat.mul_one] at hk
      exact .inl hk
    · exact .inr ⟨k, hk⟩
  · rintro (hk | ⟨k, hk⟩)
    · refine ⟨0, ?_⟩
      rwa [Nat.pow_zero, Nat.mul_one, ← hdouble 0, Nat.pow_zero, Nat.mul_one]
    · exact ⟨k + 1, hk⟩

theorem searchLoop_spec (string : List (BitVec 8)) {n : ℕ} (hn : content.length ≤ pos * 2 ^ n)
    (before : List (BitVec 8)) (cursor : ℕ) :
    ∃ output, (∀ rounds, n < rounds →
        searchLoop string rounds ⟨content, cursor⟩ (chunk content pos) before (pos + pos) =
          some output) ∧
      (.found ∈ output ↔ Sees content (a2bQp string) before pos) := by
  induction n generalizing pos before cursor with
  | zero =>
    rw [Nat.pow_zero, Nat.mul_one] at hn
    refine ⟨[], fun rounds hrounds => ?_, iff_of_false (by simp) (not_sees_of_le hn)⟩
    obtain ⟨m, rfl⟩ := Nat.exists_eq_add_one.mpr hrounds
    rw [chunk_eq_nil_iff.mpr hn, searchLoop, List.isEmpty_nil, if_pos rfl]
  | succ n ih =>
    by_cases hpos : content.length ≤ pos
    · refine ⟨[], fun rounds hrounds => ?_, iff_of_false (by simp) (not_sees_of_le hpos)⟩
      obtain ⟨m, rfl⟩ := Nat.exists_eq_add_one.mpr (Nat.zero_lt_of_lt hrounds)
      rw [chunk_eq_nil_iff.mpr hpos, searchLoop, List.isEmpty_nil, if_pos rfl]
    have hchunk : ¬(chunk content pos).isEmpty := by
      rwa [List.isEmpty_iff, chunk_eq_nil_iff]
    have hsees := @sees_iff content (a2bQp string) before pos (Nat.lt_of_not_le hpos)
    by_cases hfind : a2bQp string <:+: before ++ chunk content pos
    · refine ⟨[.found], fun rounds hrounds => ?_, by simp [hsees, hfind]⟩
      obtain ⟨m, rfl⟩ := Nat.exists_eq_add_one.mpr (Nat.zero_lt_of_lt hrounds)
      rw [searchLoop, if_neg hchunk]
      exact if_pos (strFind_nonneg_iff.mpr hfind)
    · have hnext : content.length ≤ (pos + pos) * 2 ^ n := by
        rwa [← Nat.two_mul, Nat.mul_comm 2, Nat.mul_assoc, ← Nat.pow_succ']
      obtain ⟨output, hloop, hfound⟩ := ih hnext (chunk content pos)
        (pos + pos + (chunk content (pos + pos)).length)
      refine ⟨.advancing (pos + pos) :: output, fun rounds hrounds => ?_, ?_⟩
      · obtain ⟨m, rfl⟩ := Nat.exists_eq_add_one.mpr (Nat.zero_lt_of_lt hrounds)
        rw [searchLoop, if_neg hchunk]
        simp only [if_neg (mt strFind_nonneg_iff.mp hfind), SeekFile.seek, SeekFile.read]
        exact congrArg (Option.map _) (hloop m (Nat.lt_of_succ_lt_succ hrounds))
      · rw [hsees, or_iff_right hfind, ← hfound]
        simp

/-- The first round has no chunk before it, and the second reads right behind it. -/
theorem search_spec (content string : List (BitVec 8)) :
    ∃ output enough, (∀ rounds, enough ≤ rounds → search rounds content string = some output) ∧
      (.found ∈ output ↔ content ≠ [] ∧ (a2bQp string <:+: chunk content 0 ∨
        Sees content (a2bQp string) (chunk content 0) 1096)) := by
  have hlen : content.length ≤ 1096 * 2 ^ content.length := by
    have := Nat.lt_two_pow_self (n := content.length)
    omega
  by_cases hempty : content = []
  · subst hempty
    refine ⟨[], 1, fun rounds hrounds => ?_, by simp⟩
    obtain ⟨m, rfl⟩ := Nat.exists_eq_add_one.mpr hrounds
    rfl
  have hchunk : ¬(chunk content 0).isEmpty := by
    rwa [List.isEmpty_iff, chunk_eq_nil_iff, Nat.le_zero, List.length_eq_zero_iff]
  by_cases hfind : a2bQp string <:+: chunk content 0
  · refine ⟨[.found], 1, fun rounds hrounds => ?_, by simp [hempty, hfind]⟩
    obtain ⟨m, rfl⟩ := Nat.exists_eq_add_one.mpr hrounds
    rw [search, searchLoop]
    exact (if_neg hchunk).trans (if_pos (strFind_nonneg_iff.mpr hfind))
  · obtain ⟨output, hloop, hfound⟩ :=
      searchLoop_spec string hlen (chunk content 0) (1096 + (chunk content 1096).length)
    refine ⟨.advancing 1096 :: output, content.length + 2, fun rounds hrounds => ?_, ?_⟩
    · obtain ⟨m, rfl⟩ := Nat.exists_eq_add_one.mpr (show 0 < rounds by omega)
      rw [search, searchLoop]
      refine (if_neg hchunk).trans ((if_neg (mt strFind_nonneg_iff.mp hfind)).trans ?_)
      exact congrArg (Option.map _) (hloop m (by omega))
    · rw [or_iff_right hfind, ← hfound]
      simp [hempty]

/-- A string of at most one chunk that lies in the first three chunks lies in two
neighbours of them. -/
theorem infix_take_iff (htmp : tmp.length ≤ 1096) :
    tmp <:+: content.take 3288 ↔
      tmp <:+: content.take 2192 ∨ tmp <:+: (content.drop 1096).take 2192 := by
  have hsecond : (content.drop 1096).take 2192 = (content.take 3288).drop 1096 := List.take_drop
  constructor
  · rintro ⟨s, t, hst⟩
    rcases Nat.le_total s.length 1096 with hs | hs
    · -- The occurrence ends within the first two chunks.
      have hpre : s ++ tmp <+: content.take 2192 := by
        refine List.prefix_take_iff.mpr ⟨?_, by rw [List.length_append]; omega⟩
        exact (hst ▸ List.prefix_append _ _).trans (List.take_prefix _ _)
      exact .inl ((List.suffix_append _ _).isInfix.trans hpre.isInfix)
    · refine .inr ⟨s.drop 1096, t, ?_⟩
      rw [hsecond, ← hst, List.append_assoc, List.append_assoc, List.drop_append_of_le_length hs]
  · rintro (h | h)
    · exact h.trans (List.take_prefix_take_left (by decide)).isInfix
    · rw [hsecond] at h
      exact h.trans (List.drop_suffix _ _).isInfix

theorem chunk_append (content : List (BitVec 8)) (pos : ℕ) :
    chunk content pos ++ chunk content (pos + 1096) = (content.drop pos).take 2192 := by
  rw [chunk, chunk, ← List.drop_drop, ← List.take_add]

/-- What a search for a string of at most one chunk looks at. -/
theorem looksAt_iff (htmp : tmp.length ≤ 1096) :
    (tmp <:+: chunk content 0 ∨ Sees content tmp (chunk content 0) 1096) ↔
      tmp <:+: content.take 3288 ∨
        ∃ k, 1096 * 2 ^ (k + 2) < content.length ∧ tmp <:+: junction content k := by
  rw [infix_take_iff htmp, Sees, chunk_append content 0, List.drop_zero, or_assoc]
  constructor
  · rintro (h | ⟨-, h⟩ | ⟨_ | k, hk, h⟩)
    · exact .inl (h.trans (List.take_prefix_take_left (by decide)).isInfix)
    · exact .inl h
    · exact .inr (.inl (chunk_append content 1096 ▸ h))
    · exact .inr (.inr ⟨k, hk, h⟩)
  · -- A file of one chunk is all in the first window, one of two chunks in the second.
    have hfirst : tmp <:+: content.take 2192 → tmp <:+: chunk content 0 ∨
        (1096 < content.length ∧ tmp <:+: content.take 2192) := by
      intro h
      rcases Nat.lt_or_ge 1096 content.length with hlen | hlen
      · exact .inr ⟨hlen, h⟩
      · rw [List.take_of_length_le (by omega)] at h
        refine .inl ?_
        rwa [chunk, List.drop_zero, List.take_of_length_le hlen]
    rintro (h | h | ⟨k, hk, h⟩)
    · exact (hfirst h).imp_right .inl
    · rcases Nat.lt_or_ge 2192 content.length with hlen | hlen
      · exact .inr (.inr ⟨0, hlen, (chunk_append content 1096).symm ▸ h⟩)
      · have hall : tmp <:+: content.take 2192 := by
          rw [List.take_of_length_le hlen]
          exact h.trans ((List.take_prefix _ _).isInfix.trans (List.drop_suffix _ _).isInfix)
        exact (hfirst hall).imp_right .inl
    · exact .inr (.inr ⟨k + 1, hk, h⟩)

/-- The file holds the string only where the search looks, and two joined chunks hold it
only when the file does. -/
structure SearchCovers (content tmp : List (BitVec 8)) : Prop where
  missed : tmp <:+: content → content ≠ [] ∧ (tmp <:+: content.take 3288 ∨
    ∃ k, 1096 * 2 ^ (k + 2) < content.length ∧ tmp <:+: junction content k)
  spurious : ∀ k, 1096 * 2 ^ (k + 2) < content.length → tmp <:+: junction content k →
    tmp <:+: content

theorem searchExact_iff (content : List (BitVec 8)) (string : SearchString) :
    SearchExact content string ↔ SearchCovers content (a2bQp string.bytes) := by
  obtain ⟨output, enough, hends, hfound⟩ := search_spec content string.bytes
  rw [looksAt_iff string.decoded_le] at hfound
  constructor
  · rintro ⟨output', enough', hends', hexact⟩
    have hsame : output' = output := by
      have h := hends (max enough enough') (Nat.le_max_left _ _)
      rw [hends' _ (Nat.le_max_right _ _)] at h
      exact Option.some.inj h
    rw [hsame, hfound] at hexact
    refine ⟨hexact.mpr, fun k hk h => hexact.mp ⟨?_, .inr ⟨k, hk, h⟩⟩⟩
    exact List.ne_nil_of_length_pos (Nat.zero_lt_of_lt hk)
  · intro hcovers
    refine ⟨output, enough, hends, hfound.trans ⟨?_, hcovers.missed⟩⟩
    rintro ⟨-, h | ⟨k, hk, h⟩⟩
    · exact h.trans (List.take_prefix _ _).isInfix
    · exact hcovers.spurious k hk h

/-- A file of one to three chunks is covered. -/
theorem searchCovers_of_le (hpos : 1 ≤ content.length) (hle : content.length ≤ 3288)
    (tmp : List (BitVec 8)) : SearchCovers content tmp := by
  have hnone : ∀ k, ¬1096 * 2 ^ (k + 2) < content.length := by
    intro k
    have := Nat.two_pow_pos k
    rw [Nat.pow_add]
    omega
  refine ⟨fun h => ⟨List.ne_nil_of_length_pos hpos, .inl ?_⟩, fun k hk => absurd hk (hnone k)⟩
  rwa [List.take_of_length_le hle]

theorem getElem?_of_mem_chunk {b : BitVec 8} (h : b ∈ chunk content pos) :
    ∃ i, pos ≤ i ∧ i < pos + 1096 ∧ content[i]? = some b := by
  obtain ⟨i, hi⟩ := List.mem_iff_getElem?.mp h
  rw [chunk, List.getElem?_take] at hi
  split at hi
  · next hlt => exact ⟨pos + i, by omega, by omega, by rwa [List.getElem?_drop] at hi⟩
  · cases hi

/-- A byte right behind the third chunk, and none like it elsewhere. -/
def hiddenByte (m : ℕ) : List (BitVec 8) := List.replicate 3288 0 ++ 1 :: List.replicate m 0

theorem hiddenByte_getElem? {m i : ℕ} (h : (hiddenByte m)[i]? = some 1) : i = 3288 := by
  rw [hiddenByte, List.getElem?_append, List.length_replicate] at h
  split at h
  · exact absurd (List.eq_of_mem_replicate (List.mem_of_getElem? h)) (by decide)
  · next hge =>
    cases hj : i - 3288 with
    | zero => omega
    | succ j =>
      rw [hj, List.getElem?_cons_succ] at h
      exact absurd (List.eq_of_mem_replicate (List.mem_of_getElem? h)) (by decide)

/-- No round looks at the byte. -/
theorem not_searchCovers_hiddenByte (m : ℕ) : ¬SearchCovers (hiddenByte m) [1] := by
  intro h
  have hinfix : [1] <:+: hiddenByte m := ⟨_, _, List.append_assoc _ _ _⟩
  obtain ⟨-, htake | ⟨k, -, hjunction⟩⟩ := h.missed hinfix
  · rw [hiddenByte, List.take_left' List.length_replicate] at htake
    have hmem : (1 : BitVec 8) ∈ List.replicate 3288 0 := htake.subset (by simp)
    exact absurd (List.eq_of_mem_replicate hmem) (by decide)
  · -- The chunk before the byte ends there, and the next one begins at 4384.
    have hmem : (1 : BitVec 8) ∈ junction (hiddenByte m) k := hjunction.subset (by simp)
    have hpow := Nat.two_pow_pos k
    rw [junction, List.mem_append, Nat.pow_add, Nat.pow_add] at hmem
    rcases hmem with hmem | hmem
    · obtain ⟨i, hlow, hhigh, hi⟩ := getElem?_of_mem_chunk hmem
      have := hiddenByte_getElem? hi
      rcases Nat.lt_or_ge 1 (2 ^ k) with h1 | h1
      · omega
      · omega
    · obtain ⟨i, hlow, hhigh, hi⟩ := getElem?_of_mem_chunk hmem
      have := hiddenByte_getElem? hi
      omega

/-- The string of one byte 1. -/
def byteOne : SearchString := ⟨[1], by decide, by decide⟩

/-- A string that decodes to nothing, a lone `=`. -/
def softBreak : SearchString := ⟨[0x3d], by decide, by decide⟩

/-- On one file the search is exact exactly when the file holds the string where the search
looks, or not at all; on all files of a length exactly when that is one to three chunks. -/
theorem search_exact_iff (content : List (BitVec 8)) (string : SearchString) (n : ℕ) :
    (SearchExact content string ↔ SearchCovers content (a2bQp string.bytes)) ∧
    ((∀ file, file.length = n → ∀ string, SearchExact file string) ↔ 1 ≤ n ∧ n ≤ 3288) := by
  refine ⟨searchExact_iff content string, fun h => ⟨?_, ?_⟩, ?_⟩
  · -- Nothing is reported of an empty file, not even the empty string.
    by_contra hn
    have hcovers := (searchExact_iff [] softBreak).mp (h [] (by simp; omega) softBreak)
    exact (hcovers.missed List.nil_infix).1 rfl
  · by_contra hn
    have hlen : (hiddenByte (n - 3289)).length = n := by
      rw [hiddenByte, List.length_append, List.length_cons, List.length_replicate,
        List.length_replicate]
      omega
    exact not_searchCovers_hiddenByte _ ((searchExact_iff _ byteOne).mp (h _ hlen byteOne))
  · rintro ⟨hpos, hle⟩ file rfl string
    exact (searchExact_iff file string).mpr (searchCovers_of_le hpos hle _)

/-- A file of 3289 bytes, with the string in its last byte. -/
theorem search_misses_the_last_byte : ¬SearchExact (hiddenByte 0) byteOne := by
  intro h
  exact not_searchCovers_hiddenByte 0 ((searchExact_iff _ byteOne).mp h)

end Maitland
