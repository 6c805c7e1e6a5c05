import Maitland.Malpage.Thread
import Maitland.Malpage.Report
import Maitland.Monitor.Irq

/-!
# Threads of a watched process

The loader watches the process id, which is the thread group's; the hooks send the pid of
the thread that updates or faults; the report looks for the pid among the processes.
-/

namespace Maitland

/-- The bits of a fault that the hook takes for an NX violation. -/
def InstructionFetchFault (errorCode : BitVec 64) : Prop :=
  errorCode.getLsbD pfInstr = true ∧ errorCode.getLsbD pfUser = true ∧
    errorCode.getLsbD pfProt = false

/-- A dirty update of the page table by the thread with `pid` is answered with `NX`.  A
page-table entry lies at a multiple of its eight bytes. -/
def UpdatesAnswered (z : Ring.Size) (l : DomList) (fe : FrontEnd) (pid : BitVec 32) : Prop :=
  ∀ maddr ptep pte : BitVec 64, maddr &&& mmuptrTypeMask = 0 →
    ∃ req, (malpageMultiMmuUpdate z fe true maddr ptep pte pid).2 = some req ∧
      ∀ resp, (monitorAnswer l 0 req resp).operation = Op.nx

/-- An instruction-fetch fault of the thread with `pid` is answered with `REPORT`, and
the pid that the answer leaves in the report queue makes `malpage_report` find and
report the process `tgid`. -/
def FaultsReported (z : Ring.Size) (l : DomList) (fe : FrontEnd) (table : TaskTable)
    (frames : Task → List (BitVec 64)) (rets : List (BitVec 32)) (pid tgid : BitVec 32) : Prop :=
  ∀ address errorCode : BitVec 64, InstructionFetchFault errorCode →
    ∃ req, (malpageDoPageFault z fe pid address errorCode).2 = some req ∧
      ∀ resp, (monitorAnswer l 0 req resp).operation = Op.report ∧
        ∃ queued, Effect.report queued ∈ (malpageSwitch (table.forEachProcess.map Task.pid)
            (monitorAnswer l 0 req resp) 0).1 ∧
          ∃ rep, malpageReportPid table queued fe.domid frames rets = some rep ∧
            rep.processId = tgid

variable {z : Ring.Size} {l : DomList} {fe : FrontEnd}

theorem domidInRange_setWidth (domid : BitVec 16) :
    DomidInRange (domid.setWidth 32) ↔ 0 < domid.toNat ∧ domid.toNat < monitorMaxVms := by
  have hnat : (domid.setWidth 32).toNat = domid.toNat := BitVec.toNat_setWidth_of_le (by decide)
  have hint : (domid.setWidth 32).toInt = domid.toNat := by
    rw [BitVec.toInt_eq_toNat_of_lt (by omega), hnat]
  rw [DomidInRange, hint]
  omega

/-- A request that a hook of the guest has tagged with `pid`. -/
theorem eligible_iff {req : Message} {pid : BitVec 32} (hd : req.domid = fe.domid.setWidth 32)
    (hp : req.processId = pid) :
    Eligible l req ↔ (0 < fe.domid.toNat ∧ fe.domid.toNat < monitorMaxVms) ∧
      Watched l fe.domid.toNat pid.toNat := by
  rw [Eligible, hd, hp, domidInRange_setWidth, BitVec.toNat_setWidth_of_le (by decide)]

/-- The request of a dirty update. -/
theorem malpageMultiMmuUpdate_dirty (z : Ring.Size) (fe : FrontEnd) {maddr : BitVec 64}
    (h : maddr &&& mmuptrTypeMask = 0) (ptep pte : BitVec 64) (pid : BitVec 32) :
    ∃ req, (malpageMultiMmuUpdate z fe true maddr ptep pte pid).2 = some req ∧
      req.operation = Op.mmuupdate ∧ req.domid = fe.domid.setWidth 32 ∧ req.processId = pid := by
  have hcmd : maddr &&& mmuptrTypeMask = mmuNormalPtUpdate ∨
      maddr &&& mmuptrTypeMask = mmuPtUpdatePreserveAd := .inl h
  simp only [malpageMultiMmuUpdate, if_true, if_pos hcmd]
  exact ⟨_, rfl, rfl, rfl, rfl⟩

/-- The request of an instruction-fetch fault. -/
theorem malpageDoPageFault_fetch (z : Ring.Size) (fe : FrontEnd) {errorCode : BitVec 64}
    (h : InstructionFetchFault errorCode) (address : BitVec 64) (pid : BitVec 32) :
    ∃ req, (malpageDoPageFault z fe pid address errorCode).2 = some req ∧
      req.operation = Op.nxviolation ∧ req.domid = fe.domid.setWidth 32 ∧ req.processId = pid := by
  obtain ⟨hi, hu, hp⟩ := h
  simp only [malpageDoPageFault, hi, hu, hp, Bool.not_false, Bool.and_self, if_true]
  exact ⟨_, rfl, rfl, rfl, rfl⟩

/-- Updates are answered with `NX` for the watched pids of a domain the handler serves. -/
theorem updatesAnswered_iff {pid : BitVec 32} :
    UpdatesAnswered z l fe pid ↔
      (0 < fe.domid.toNat ∧ fe.domid.toNat < monitorMaxVms) ∧
        Watched l fe.domid.toNat pid.toNat := by
  constructor
  · intro h
    obtain ⟨req, hreq, hans⟩ := h 0 0 0 rfl
    obtain ⟨req', hreq', ho, hd, hp⟩ :=
      malpageMultiMmuUpdate_dirty z fe (show 0 &&& mmuptrTypeMask = 0 from rfl) 0 0 pid
    obtain rfl : req = req' := Option.some.inj (hreq.symm.trans hreq')
    by_contra hne
    have hnone := monitorAnswer_nonop 0 default
      fun he => hne ((eligible_iff hd hp).mp he.2)
    rw [hans default] at hnone
    cases hnone
  · intro h maddr ptep pte hm
    obtain ⟨req, hreq, ho, hd, hp⟩ := malpageMultiMmuUpdate_dirty z fe hm ptep pte pid
    refine ⟨req, hreq, fun resp => ?_⟩
    rw [monitorAnswer_nx ho ((eligible_iff hd hp).mpr h)]

theorem malpageReportPid_eq_some_iff {table : TaskTable} {procID : BitVec 32} {domid : BitVec 16}
    {frames : Task → List (BitVec 64)} {rets : List (BitVec 32)} :
    (∃ rep, malpageReportPid table procID domid frames rets = some rep ∧ rep.processId = procID) ↔
      ⟨procID, procID⟩ ∈ table.tasks := by
  rw [← TaskTable.find?_forEachProcess_isSome, malpageReportPid]
  cases hfind : table.forEachProcess.find? fun task => task.pid = procID with
  | none => simp
  | some task =>
    have hpid : task.pid = procID := by simpa using List.find?_some hfind
    simp [malpageReport, hpid]

/-- A fault that is answered with `REPORT` queues the pid of the thread. -/
theorem report_queued_iff {req resp : Message} {pid : BitVec 32}
    (ho : req.operation = Op.nxviolation) (he : Eligible l req) (hp : req.processId = pid)
    (tasks : List (BitVec 32)) {queued : BitVec 32} :
    Effect.report queued ∈ (malpageSwitch tasks (monitorAnswer l 0 req resp) 0).1 ↔
      queued = pid := by
  rw [report_mem_malpageSwitch, monitorAnswer_report ho he, hp]
  simp

/-- Every update and every fault of a thread of a watched process leads to what the watch is
for exactly when the thread is the first of its group, in a domain that the handler
serves. -/
theorem thread_covered_iff (z : Ring.Size) (l : DomList) (fe : FrontEnd) (table : TaskTable)
    (frames : Task → List (BitVec 64)) (rets : List (BitVec 32)) (task : Task)
    (hmem : task ∈ table.tasks) (hw : Watched l fe.domid.toNat task.tgid.toNat) :
    (UpdatesAnswered z l fe task.pid ∧
        FaultsReported z l fe table frames rets task.pid task.tgid) ↔
      task.pid = task.tgid ∧ 0 < fe.domid.toNat ∧ fe.domid.toNat < monitorMaxVms := by
  constructor
  · rintro ⟨hupd, hfault⟩
    obtain ⟨hd, hwatch⟩ := updatesAnswered_iff.mp hupd
    refine ⟨?_, hd⟩
    have hfetch : InstructionFetchFault 20 := ⟨by decide, by decide, by decide⟩
    obtain ⟨req, hreq, hans⟩ := hfault 0 20 hfetch
    obtain ⟨req', hreq', ho, hdom, hp⟩ :=
      malpageDoPageFault_fetch z fe hfetch 0 task.pid
    obtain rfl : req = req' := Option.some.inj (hreq.symm.trans hreq')
    have he : Eligible l req := (eligible_iff hdom hp).mpr ⟨hd, hwatch⟩
    obtain ⟨_, queued, hq, rep, hrep, _⟩ := hans default
    obtain rfl := (report_queued_iff ho he hp _).mp hq
    -- the task found is the leader with this pid, so the thread itself
    have hlead : (⟨task.pid, task.pid⟩ : Task) ∈ table.tasks := by
      rw [← TaskTable.find?_forEachProcess_isSome]
      simpa [malpageReportPid] using congrArg Option.isSome hrep
    have heq := TaskTable.eq_of_pid hmem hlead rfl
    exact (congrArg Task.tgid heq).symm
  · rintro ⟨hlead, hd⟩
    rw [← hlead] at hw
    refine ⟨updatesAnswered_iff.mpr ⟨hd, hw⟩, ?_⟩
    intro address errorCode hfetch
    obtain ⟨req, hreq, ho, hdom, hp⟩ :=
      malpageDoPageFault_fetch z fe hfetch address task.pid
    have he : Eligible l req := (eligible_iff hdom hp).mpr ⟨hd, hw⟩
    refine ⟨req, hreq, fun resp => ⟨?_, task.pid, (report_queued_iff ho he hp _).mpr rfl, ?_⟩⟩
    · rw [monitorAnswer_report ho he]
    · rw [← hlead]
      refine malpageReportPid_eq_some_iff.mpr ?_
      have hself := table.leader task hmem
      rwa [← hlead] at hself

/-- A process 100 with a second thread 101. -/
def twoThreads : TaskTable where
  tasks := [⟨100, 100⟩, ⟨101, 100⟩]
  nodup := by decide
  leader := by decide

/-- Domain 3 has the process 100 watched. -/
def watchesHundred : DomList := Function.update DomList.init 3
  (some (Function.update Row.zero 100 1))

def guestThree : FrontEnd := malpageSetupRing 3 fun _ => default

theorem thread_covered_iff_firstThread :
    (UpdatesAnswered ringSize watchesHundred guestThree 100 ∧
      FaultsReported ringSize watchesHundred guestThree twoThreads (fun _ => []) [] 100 100) ↔
        (100 : BitVec 32) = 100 ∧ 0 < guestThree.domid.toNat ∧
          guestThree.domid.toNat < monitorMaxVms :=
  thread_covered_iff ringSize watchesHundred guestThree twoThreads (fun _ => []) [] ⟨100, 100⟩
    (by decide) (by decide)

/-- The second thread faults: the monitor does not know its pid and answers `NONOP`, so
nothing is reported. -/
theorem second_thread_is_not_watched :
    Watched watchesHundred guestThree.domid.toNat 100 ∧ ⟨101, 100⟩ ∈ twoThreads.tasks ∧
      ∃ req, (malpageDoPageFault ringSize guestThree 101 4096 20).2 = some req ∧
        (∀ resp, (monitorAnswer watchesHundred 0 req resp).operation = Op.nonop) ∧
        ¬FaultsReported ringSize watchesHundred guestThree twoThreads (fun _ => []) [] 101 100 := by
  have hfetch : InstructionFetchFault 20 := ⟨by decide, by decide, by decide⟩
  obtain ⟨req, hreq, ho, hd, hp⟩ :=
    malpageDoPageFault_fetch ringSize guestThree hfetch 4096 101
  have hnone : ∀ resp, (monitorAnswer watchesHundred 0 req resp).operation = Op.nonop := by
    intro resp
    refine monitorAnswer_nonop 0 resp ?_
    rintro ⟨_, he⟩
    have hwatched := ((eligible_iff hd hp).mp he).2
    revert hwatched
    decide
  refine ⟨by decide, by decide, req, hreq, hnone, fun hfault => ?_⟩
  obtain ⟨req', hreq', hans⟩ := hfault 4096 20 hfetch
  obtain rfl : req = req' := Option.some.inj (hreq.symm.trans hreq')
  have hrep := (hans default).1
  rw [hnone default] at hrep
  cases hrep

end Maitland
