import Mathlib.Data.List.Induction
import Maitland.Store

/-!
# Reports of the guest

`malpage_report` grants the pages of a process to dom0, one by one, and
`malpage_xs_report` writes the report to Xenstore.
-/

namespace Maitland

open Decimal

/-- `process_report_t` of malpage.h, with its two arrays and without the fields
that are never read. -/
structure GuestReport where
  processId : BitVec 32
  domid : BitVec 16
  pfnList : List (BitVec 64)
  grefList : List (BitVec 32)
  pfnListLength : BitVec 32
  deriving DecidableEq

/-- The frames and references the loop of `malpage_xs_report` goes through. -/
def GuestReport.pairs (rep : GuestReport) : List (BitVec 64 × BitVec 32) :=
  (rep.pfnList.zip rep.grefList).take rep.pfnListLength.toNat

/-- `MALPAGE_GRANTERR` as an `unsigned int`. -/
def malpageGranterr : BitVec 32 := -12

/-- `ret` is what `gnttab_grant_foreign_access` returned.  It goes into an
`unsigned int` before the test, so the error branch is dead and an errno comes back
as a large reference. -/
def malpageGrantMfn (ret : BitVec 32) : BitVec 32 :=
  if ret.toNat < 0 then malpageGranterr else ret

/-- The report of a process that was found: `pfnList` is what
`malpage_generate_report` collected, `rets` what the grants of its pages returned. -/
def malpageReport (procID : BitVec 32) (domid : BitVec 16) (pfnList : List (BitVec 64))
    (pfnListLength : BitVec 32) (rets : List (BitVec 32)) : GuestReport where
  processId := procID
  domid := domid
  pfnList := pfnList
  grefList := (rets.take pfnListLength.toNat).map malpageGrantMfn
  pfnListLength := pfnListLength

/-- A task of the guest: a thread, with the id of its thread group. -/
structure Task where
  pid : BitVec 32
  tgid : BitVec 32
  deriving DecidableEq

/-- The guest's tasks.  No two have the same pid, and the first thread of a group, which
gives the group its id, stays until the group is gone. -/
structure TaskTable where
  tasks : List Task
  nodup : (tasks.map Task.pid).Nodup
  leader : ∀ task ∈ tasks, ⟨task.tgid, task.tgid⟩ ∈ tasks

/-- `for_each_process` goes through the first threads only. -/
def TaskTable.forEachProcess (table : TaskTable) : List Task :=
  table.tasks.filter fun task => task.pid = task.tgid

/-- `malpage_report`, with the frames that `malpage_generate_report` collects of a task.
`none` is the return of -1 when no task is found. -/
def malpageReportPid (table : TaskTable) (procID : BitVec 32) (domid : BitVec 16)
    (frames : Task → List (BitVec 64)) (rets : List (BitVec 32)) : Option GuestReport :=
  (table.forEachProcess.find? fun task => task.pid = procID).map fun task =>
    malpageReport task.pid domid (frames task) (BitVec.ofNat 32 (frames task).length) rets

/-- The series of transactions of one call. -/
def malpageXsReport (rep : GuestReport) : List ReportTxn :=
  .mkdir :: (rep.pairs.map fun p => .gref (print p.2.toNat) (print p.1.toNat)) ++
    [.announce (print rep.domid.toNat) (print rep.processId.toNat)]

@[simp] theorem malpageGrantMfn_eq (ret : BitVec 32) : malpageGrantMfn ret = ret :=
  if_neg (Nat.not_lt_zero _)

/-- A process is found exactly under the pid of its first thread. -/
theorem TaskTable.find?_forEachProcess_isSome {table : TaskTable} {procID : BitVec 32} :
    (table.forEachProcess.find? fun task => task.pid = procID).isSome ↔
      ⟨procID, procID⟩ ∈ table.tasks := by
  rw [List.find?_isSome]
  constructor
  · rintro ⟨task, hmem, hpid⟩
    obtain ⟨hmem, hlead⟩ := List.mem_filter.mp hmem
    obtain rfl : task.pid = procID := of_decide_eq_true hpid
    have htgid : task.pid = task.tgid := of_decide_eq_true hlead
    obtain ⟨pid, tgid⟩ := task
    cases htgid
    exact hmem
  · intro hmem
    exact ⟨_, List.mem_filter.mpr ⟨hmem, by simp⟩, by simp⟩

/-- Two tasks with one pid are one. -/
theorem TaskTable.eq_of_pid {table : TaskTable} {task task' : Task} (h : task ∈ table.tasks)
    (h' : task' ∈ table.tasks) (hpid : task.pid = task'.pid) : task = task' :=
  List.inj_on_of_nodup_map table.nodup h h' hpid

/-- The directory after writing pairs of a frame and a reference. -/
def writeGrefs (dir : Directory) (pairs : List (BitVec 64 × BitVec 32)) : Directory :=
  pairs.foldl (fun dir p => dir.insert (print p.2.toNat) (print p.1.toNat)) dir

theorem print_toNat_inj {w : ℕ} {x y : BitVec w} : print x.toNat = print y.toNat ↔ x = y :=
  ⟨fun h => BitVec.eq_of_toNat_eq (print_injective h), fun h => by rw [h]⟩

theorem mem_writeGrefs {dir : Directory} {pairs : List (BitVec 64 × BitVec 32)} {key : Text} :
    key ∈ writeGrefs dir pairs ↔ key ∈ dir ∨ ∃ p ∈ pairs, print p.2.toNat = key := by
  induction pairs generalizing dir with
  | nil => simp [writeGrefs]
  | cons p pairs ih =>
    rw [writeGrefs, List.foldl_cons]
    refine ih.trans ?_
    rw [AList.mem_insert]
    simp only [List.exists_mem_cons_iff, eq_comm, or_assoc, or_left_comm]

/-- The value under a reference is the frame of one of the pairs with it. -/
theorem lookup_writeGrefs {dir : Directory} {pairs : List (BitVec 64 × BitVec 32)} {key : Text}
    (hkey : key ∉ dir) {value : Text} (h : (writeGrefs dir pairs).lookup key = some value) :
    ∃ p ∈ pairs, print p.2.toNat = key ∧ print p.1.toNat = value := by
  induction pairs using List.reverseRecOn generalizing value with
  | nil =>
    rw [writeGrefs, List.foldl_nil, AList.lookup_eq_none.mpr hkey] at h
    cases h
  | append_singleton pairs p ih =>
    rw [writeGrefs, List.foldl_append, List.foldl_cons, List.foldl_nil] at h
    by_cases hp : key = print p.2.toNat
    · subst hp
      rw [AList.lookup_insert, Option.some.injEq] at h
      exact ⟨p, by simp, rfl, h⟩
    · rw [AList.lookup_insert_ne hp] at h
      obtain ⟨q, hq, hqk, hqv⟩ := ih h
      exact ⟨q, by simp [hq], hqk, hqv⟩

theorem foldl_apply_gref (pairs : List (BitVec 64 × BitVec 32)) (dir : Directory) :
    (pairs.map fun p => ReportTxn.gref (print p.2.toNat) (print p.1.toNat)).foldl ReportTxn.apply
      ⟨none, none, none, some dir⟩ = ⟨none, none, none, some (writeGrefs dir pairs)⟩ := by
  induction pairs generalizing dir with
  | nil => rfl
  | cons p pairs ih => exact ih _

/-- A report written to an empty node. -/
theorem malpageXsReport_apply (rep : GuestReport) :
    (malpageXsReport rep).foldl ReportTxn.apply .empty =
      ⟨some ['1'], some (print rep.domid.toNat), some (print rep.processId.toNat),
        some (writeGrefs ∅ rep.pairs)⟩ := by
  have hmk : ReportTxn.apply .empty .mkdir = ⟨none, none, none, some ∅⟩ := rfl
  rw [malpageXsReport, List.cons_append, List.foldl_cons, List.foldl_append, hmk, foldl_apply_gref]
  rfl

/-- Until its last transaction a report is not announced. -/
theorem malpageXsReport_not_ready {rep : GuestReport} {done rest : List ReportTxn}
    (h : malpageXsReport rep = done ++ rest) (hrest : rest ≠ []) :
    (done.foldl ReportTxn.apply .empty).ready = none := by
  have hann : ∀ t ∈ done, ∀ domid pid, t ≠ .announce domid pid := by
    obtain ⟨init, last, rfl⟩ := (List.eq_nil_or_concat rest).resolve_left hrest
    rw [malpageXsReport, List.concat_eq_append, ← List.append_assoc] at h
    obtain ⟨hbody, _⟩ := List.append_inj' h rfl
    intro t ht
    have hmem : t ∈ done ++ init := List.mem_append_left _ ht
    rw [← hbody] at hmem
    rcases List.mem_cons.mp hmem with rfl | hmem
    · simp
    · obtain ⟨p, _, rfl⟩ := List.mem_map.mp hmem
      simp
  have hkeep : ∀ (done : List ReportTxn) (n : ReportNode), n.ready = none →
      (∀ t ∈ done, ∀ domid pid, t ≠ .announce domid pid) →
      (done.foldl ReportTxn.apply n).ready = none := by
    intro done
    induction done with
    | nil => exact fun n hn _ => hn
    | cons t done ih =>
      intro n hn ht
      refine ih _ ?_ fun t' ht' => ht t' (List.mem_cons_of_mem _ ht')
      cases t with
      | mkdir => exact hn
      | gref key value => exact hn
      | announce domid pid => exact absurd rfl (ht _ List.mem_cons_self domid pid)
  exact hkeep done _ rfl hann

end Maitland
