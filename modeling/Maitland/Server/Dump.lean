import Mathlib.Data.List.Infix

/-!
# The memory dump

The loop of `watch_domain_report` that copies the device into a file for grep.  The
device is an ordinary seekable file here, over any type of bytes.
-/

namespace Maitland

structure SeekFile (α : Type*) where
  content : List α
  pos : ℕ

variable {α : Type*}

def SeekFile.read (f : SeekFile α) (n : ℕ) : List α × SeekFile α :=
  let tmp := (f.content.drop f.pos).take n
  (tmp, { f with pos := f.pos + tmp.length })

def SeekFile.seek (f : SeekFile α) (pos : ℕ) : SeekFile α := { f with pos := pos }

/-- `while(tmp)`, with the number of rounds it may take.  `none` when they do not
suffice. -/
def dumpLoop : ℕ → SeekFile α → List α → ℕ → List α → Option (List α)
  | 0, _, _, _, _ => none
  | n + 1, f1, tmp, index, f2 =>
    if tmp.isEmpty then some f2
    else
      let f2 := f2 ++ tmp
      let f1 := f1.seek (1096 + index)
      let r := f1.read 1096
      dumpLoop n r.2 r.1 (index + 1096) f2

/-- From the open of the device to the close of the dump file. -/
def dumpMemory (rounds : ℕ) (content : List α) : Option (List α) :=
  let f1 : SeekFile α := ⟨content, 0⟩
  let r := f1.read 1096
  dumpLoop rounds r.2 r.1 1096 []

/-- The loop ends with `file` in the dump file. -/
def Dumps (content file : List α) : Prop := ∃ rounds, dumpMemory rounds content = some file

/-- The dump ends with the whole content in the file, and so with every signature
the content holds. -/
structure DumpComplete (content : List α) : Prop where
  written : Dumps content content
  signature : ∀ file, Dumps content file → ∀ sig, sig <:+: content → sig <:+: file

/-- `search_str`, in the bytes of the file. -/
def searchStr : List (BitVec 8) := "AWAVAUATU".toList.map fun c => BitVec.ofNat 8 c.toNat

/-- Whether grep prints anything: then `op` is `MONITOR_KILL`, else `MONITOR_RESUME`. -/
def grepFinds (file : List (BitVec 8)) : Bool := decide (searchStr <:+: file)

/-- More rounds change nothing. -/
theorem dumpLoop_succ {n : ℕ} {f1 : SeekFile α} {tmp f2 file : List α} {index : ℕ}
    (h : dumpLoop n f1 tmp index f2 = some file) :
    dumpLoop (n + 1) f1 tmp index f2 = some file := by
  induction n generalizing f1 tmp index f2 with
  | zero => cases h
  | succ n ih =>
    rw [dumpLoop] at h ⊢
    split at h
    · next hempty => rw [if_pos hempty, h]
    · next hempty =>
      rw [if_neg hempty]
      exact ih h

theorem dumpLoop_mono {n m : ℕ} {f1 : SeekFile α} {tmp f2 file : List α} {index : ℕ}
    (hle : n ≤ m) (h : dumpLoop n f1 tmp index f2 = some file) :
    dumpLoop m f1 tmp index f2 = some file := by
  induction hle with
  | refl => exact h
  | step _ ih => exact dumpLoop_succ ih

theorem Dumps.unique {content file file' : List α} (h : Dumps content file)
    (h' : Dumps content file') : file = file' := by
  obtain ⟨n, hn⟩ := h
  obtain ⟨m, hm⟩ := h'
  have hn := dumpLoop_mono (Nat.le_max_left n m) hn
  have hm := dumpLoop_mono (Nat.le_max_right n m) hm
  exact Option.some.inj (hn.symm.trans hm)

/-- Once `tmp` was read at `index` the loop copies all that follows. -/
theorem dumpLoop_eq (content : List α) (n : ℕ) {index : ℕ}
    (h : content.length ≤ index + 1096 * n) (pos : ℕ) (f2 : List α) :
    dumpLoop (n + 1) ⟨content, pos⟩ ((content.drop index).take 1096) index f2 =
      some (f2 ++ content.drop index) := by
  induction n generalizing index pos f2 with
  | zero =>
    have hdrop : content.drop index = [] := List.drop_eq_nil_of_le (by omega)
    simp [dumpLoop, hdrop]
  | succ n ih =>
    rw [dumpLoop]
    split
    · next hempty =>
      have htake : (content.drop index).take 1096 = [] := List.isEmpty_iff.mp hempty
      have hdrop : content.drop index = [] :=
        (List.take_eq_nil_iff.mp htake).resolve_left (by decide)
      rw [hdrop, List.append_nil]
    · have hnext := @ih (index + 1096) (by omega)
      simp only [SeekFile.seek, SeekFile.read, Nat.add_comm 1096 index, hnext, List.append_assoc]
      rw [← List.drop_drop, List.take_append_drop]

/-- What the dump file gets: the first read is followed by a seek to 2192. -/
theorem dumps_iff (content file : List α) :
    Dumps content file ↔ file = content.take 1096 ++ content.drop 2192 := by
  have hdumps : Dumps content (content.take 1096 ++ content.drop 2192) := by
    refine ⟨content.length + 2, ?_⟩
    simp only [dumpMemory, SeekFile.read, List.drop_zero]
    rw [dumpLoop]
    split
    · next hempty =>
      have htake : content.take 1096 = [] := List.isEmpty_iff.mp hempty
      have hnil : content = [] := (List.take_eq_nil_iff.mp htake).resolve_left (by decide)
      rw [hnil]
      rfl
    · exact dumpLoop_eq content content.length (by omega) _ _
  constructor
  · exact fun h => h.unique hdumps
  · rintro rfl
    exact hdumps

/-- The dump is complete exactly for a content that one read gets. -/
theorem memory_dump_complete_iff (content : List α) :
    DumpComplete content ↔ content.length ≤ 1096 := by
  constructor
  · intro h
    have hlen := congrArg List.length ((dumps_iff content content).mp h.written)
    rw [List.length_append, List.length_take, List.length_drop] at hlen
    omega
  · intro h
    have heq : content.take 1096 ++ content.drop 2192 = content := by
      rw [List.take_of_length_le h, List.drop_eq_nil_of_le (by omega), List.append_nil]
    refine ⟨(dumps_iff content content).mpr heq.symm, ?_⟩
    intro file hfile sig hsig
    rwa [(dumps_iff content file).mp hfile, heq]

/-- A signature right after the first 1096 bytes is in no dump. -/
theorem signature_skipped :
    let content := List.replicate 1096 0 ++ searchStr
    ¬DumpComplete content ∧ grepFinds content = true ∧
      ∃ file, Dumps content file ∧ grepFinds file = false := by
  intro content
  have hlen : content.length = 1105 := by
    rw [List.length_append, List.length_replicate]
    rfl
  have hfile : content.take 1096 ++ content.drop 2192 = List.replicate 1096 0 := by
    rw [List.drop_eq_nil_of_le (by omega), List.append_nil]
    exact List.take_left' List.length_replicate
  have hinfix : searchStr <:+: content := List.suffix_append _ _ |>.isInfix
  have hmissed : ¬searchStr <:+: List.replicate 1096 0 := by
    intro h
    have hmem : BitVec.ofNat 8 65 ∈ List.replicate 1096 (0 : BitVec 8) := h.subset (by decide)
    exact absurd (List.eq_of_mem_replicate hmem) (by decide)
  have hdumps := (dumps_iff content _).mpr hfile.symm
  refine ⟨fun h => hmissed (h.signature _ hdumps _ hinfix), decide_eq_true hinfix, _, hdumps, ?_⟩
  exact decide_eq_false hmissed

end Maitland
