import Maitland.Protocol.StackGarbage

/-!
# Reports of every process

`malpage_report` on a table of processes in any state: a kernel thread or a zombie has no
`mm`, and an `mm` may have no area.
-/

namespace Maitland

open LinkedList MachineInt

variable {Pte : Type} {ops : PteOps Pte}

/-- The tasks with their `mm`, which is NULL for a task without memory. -/
structure ProcessTable (ops : PteOps Pte) extends TaskTable where
  mm : Task → Option (TaskMm ops)

/-- What a call of `malpage_report` returns, the frames that it grants, in order, and the
report that it gives to `malpage_xs_report`. -/
structure ReportCall where
  ret : ℤ
  granted : List (BitVec 64)
  report : Option GuestReport

/-- `rep->gref_list[i] = malpage_grant_mfn(rep->pfn_list[i])` for `count` numbers from `i` on.
The `i`-th grant returns `rets i`. -/
def grantLoop (rets : ℕ → BitVec 32) :
    ℕ → ℕ → GuestReport → List (BitVec 64) → Except NoResult (GuestReport × List (BitVec 64))
  | 0, _, rep, granted => .ok (rep, granted)
  | count + 1, i, rep, granted => do
    let mfn ← valid rep.pfnList[i]?
    if i < rep.grefList.length then
      let grefList := rep.grefList.set i (malpageGrantMfn (rets i))
      grantLoop rets count (i + 1) { rep with grefList := grefList } (granted ++ [mfn])
    else .error .invalidPointer

namespace ProcessTable

variable (table : ProcessTable ops)

/-- The task that `for_each_process` comes to, if any. -/
def findTask (procID : BitVec 32) : Option Task :=
  table.forEachProcess.find? fun task => task.pid = procID

/-- `malpage_report` with all that it calls.  The heap and the locals are those that
`pfnlist_vmarea` finds. -/
def malpageReport (kzalloc : Kzalloc) (rounds : ℕ) (procID : BitVec 32) (domid : BitVec 16)
    (rets : ℕ → BitVec 32) (st : WalkState) : Except NoResult ReportCall :=
  match table.findTask procID with
  | none => .ok ⟨-1, [], none⟩
  | some task => do
    let (_, rep) ← malpageGenerateReport ops kzalloc rounds task.pid
      ((table.mm task).map TaskMm.toMmStruct) st
    let (rep, granted) ← grantLoop rets rep.pfnListLength.toNat 0 { rep with domid := domid } []
    .ok ⟨0, granted, some rep⟩

def Maps (task : Task) (mfn : BitVec 64) : Prop := ∃ mm ∈ table.mm task, mm.Maps mfn

/-- Every frame of the task is in the report, once, with a reference. -/
structure CompleteReport (task : Task) (rep : GuestReport) : Prop where
  processId : rep.processId = task.pid
  length : rep.pfnListLength.toNat = rep.pfnList.length
  grefs : rep.grefList.length = rep.pfnList.length
  nodup : rep.pfnList.Nodup
  frames : ∀ mfn, mfn ∈ rep.pfnList ↔ mfn ≠ 0 ∧ table.Maps task mfn

/-- An error is returned and nothing was granted. -/
def Refused (call : ReportCall) : Prop :=
  call.ret < 0 ∧ call.granted = [] ∧ call.report = none

/-- A complete report was made of the process and all its frames were granted. -/
def Reported (procID : BitVec 32) (call : ReportCall) : Prop :=
  ∃ task ∈ table.findTask procID, ∃ rep ∈ call.report,
    table.CompleteReport task rep ∧ call.ret = 0 ∧ call.granted = rep.pfnList

/-- The call follows no invalid pointer, NULL or not, and ends in one of the two ways. -/
def Safe (kzalloc : Kzalloc) (procID : BitVec 32) (domid : BitVec 16) (rets : ℕ → BitVec 32)
    (st : WalkState) : Prop :=
  ∃ call, (Refused call ∨ table.Reported procID call) ∧
    ∃ enough, ∀ rounds, enough ≤ rounds →
      table.malpageReport kzalloc rounds procID domid rets st = .ok call

end ProcessTable

/-- Fewer frames are mapped than an `int` can count. -/
def AddressSpace.FewFrames (space : AddressSpace ops) : Prop :=
  ∀ frames : List (BitVec 64), frames.Nodup → (∀ mfn ∈ frames, mfn ≠ 0 ∧ space.Maps mfn) →
    frames.length < 2 ^ 31

/-- The `mm` has an area, its frames can be counted, and there is memory for the report. -/
def ProcessTable.Reportable (table : ProcessTable ops) (kzalloc : Kzalloc) (h : PfnHeap)
    (task : Task) : Prop :=
  ∃ space, table.mm task = some (.space space) ∧ space.FewFrames ∧ space.Served kzalloc h

section GrantLoop

variable {rets : ℕ → BitVec 32} {rep : GuestReport}

/-- The references that are there already are `old`, of the frames `done`. -/
theorem grantLoop_spec (rets : ℕ → BitVec 32) (rep : GuestReport) (done : List (BitVec 64))
    {rest : List (BitVec 64)} {old new : List (BitVec 32)} (hpfns : rep.pfnList = done ++ rest)
    (hgrefs : rep.grefList = old ++ new) (hold : old.length = done.length)
    (hnew : new.length = rest.length) :
    grantLoop rets rest.length done.length rep done =
      .ok ({ rep with grefList := old ++
        (List.range' done.length rest.length).map (malpageGrantMfn ∘ rets) }, done ++ rest) := by
  induction rest generalizing rep done old new with
  | nil =>
    obtain rfl := List.length_eq_zero_iff.mp hnew
    rw [List.append_nil] at hgrefs ⊢
    rw [List.length_nil, List.range'_zero, List.map_nil, List.append_nil, ← hgrefs]
    rfl
  | cons mfn rest ih =>
    obtain ⟨gref, new, rfl⟩ := List.exists_cons_of_length_eq_add_one hnew
    have hget : rep.pfnList[done.length]? = some mfn := by
      rw [hpfns, List.getElem?_append_right (Nat.le_refl _), Nat.sub_self, List.getElem?_cons_zero]
    have hlen : done.length < rep.grefList.length := by
      rw [hgrefs, List.length_append, hold, List.length_cons]
      omega
    have hset : rep.grefList.set done.length (malpageGrantMfn (rets done.length)) =
        old ++ [malpageGrantMfn (rets done.length)] ++ new := by
      rw [hgrefs, ← hold, List.set_append_right _ _ (Nat.le_refl _), Nat.sub_self,
        List.set_cons_zero, List.append_assoc, List.singleton_append]
    have hnext := ih { rep with grefList := old ++ [malpageGrantMfn (rets done.length)] ++ new }
      (done ++ [mfn]) (by simpa using hpfns) rfl (by simpa using hold) (by simpa using hnew)
    rw [List.length_append, List.length_singleton] at hnext
    rw [List.length_cons, grantLoop, hget]
    simp only [bind, Except.bind, valid, if_pos hlen, hset]
    rw [hnext, List.range'_succ, List.map_cons]
    simp only [List.append_assoc, List.singleton_append, Function.comp_apply]

/-- The loop writes to the references only, and to those that are there. -/
theorem grantLoop_frame {count i : ℕ} {granted granted' : List (BitVec 64)} {rep' : GuestReport}
    (hloop : grantLoop rets count i rep granted = .ok (rep', granted')) :
    rep'.pfnList = rep.pfnList ∧ rep'.pfnListLength = rep.pfnListLength ∧
      rep'.grefList.length = rep.grefList.length := by
  induction count generalizing i rep granted with
  | zero =>
    obtain ⟨rfl, -⟩ := Prod.mk.inj (Except.ok.inj hloop)
    exact ⟨rfl, rfl, rfl⟩
  | succ count ih =>
    rw [grantLoop] at hloop
    obtain ⟨mfn, -, hloop⟩ := bind_ok hloop
    by_cases hi : i < rep.grefList.length
    · rw [if_pos hi] at hloop
      obtain ⟨hpfns, hlength, hgrefs⟩ := ih hloop
      exact ⟨hpfns, hlength, by rw [hgrefs, List.length_set]⟩
    · rw [if_neg hi] at hloop
      cases hloop

end GrantLoop

namespace ProcessTable

variable (table : ProcessTable ops) {kzalloc : Kzalloc} {procID : BitVec 32} {domid : BitVec 16}
  {rets : ℕ → BitVec 32} {st : WalkState} {task : Task}

theorem safe_of_findTask_none (hfind : table.findTask procID = none) :
    table.Safe kzalloc procID domid rets st := by
  refine ⟨⟨-1, [], none⟩, .inl ⟨by decide, rfl, rfl⟩, 0, fun rounds _ => ?_⟩
  rw [malpageReport, hfind]

theorem maps_iff {space : AddressSpace ops} (hmm : table.mm task = some (.space space))
    {mfn : BitVec 64} : table.Maps task mfn ↔ space.Maps mfn := by
  simp only [ProcessTable.Maps, hmm, Option.mem_some_iff, exists_eq_left', TaskMm.Maps]

theorem map_toMmStruct {space : AddressSpace ops} (hmm : table.mm task = some (.space space)) :
    (table.mm task).map TaskMm.toMmStruct = some space.toMmStruct := by
  rw [hmm]
  rfl

/-- With the frames of the walk in the report, the call goes on to write what
`malpageReportPid` says. -/
theorem malpageReport_eq (hfind : table.findTask procID = some task) {space : AddressSpace ops}
    (hmm : table.mm task = some (.space space)) {h : PfnHeap} {frames : List (BitVec 64)}
    (hreports : space.Reports kzalloc st task.pid h frames) :
    ∃ enough, ∀ rounds, enough ≤ rounds → table.malpageReport kzalloc rounds procID domid rets st =
      .ok ⟨0, frames, malpageReportPid table.toTaskTable procID domid (fun _ => frames)
        ((List.range frames.length).map rets)⟩ := by
  obtain ⟨rep, hpid, hlength, rfl, hgrefs, enough, hcall⟩ := hreports
  refine ⟨enough, fun rounds hrounds => ?_⟩
  have hloop := grantLoop_spec rets { rep with domid := domid } []
    (List.nil_append rep.pfnList).symm (List.nil_append rep.grefList).symm rfl hgrefs
  have hnat : BitVec.ofNat 32 rep.pfnList.length = rep.pfnListLength := by
    rw [← hlength, BitVec.ofNat_toNat, BitVec.setWidth_eq]
  have hwrites : malpageReportPid table.toTaskTable procID domid (fun _ => rep.pfnList)
      ((List.range rep.pfnList.length).map rets) =
        some (Maitland.malpageReport task.pid domid rep.pfnList rep.pfnListLength
          ((List.range rep.pfnList.length).map rets)) := by
    rw [← hnat]
    exact congrArg (Option.map _) hfind
  rw [malpageReport, hfind, hwrites]
  simp only [table.map_toMmStruct hmm, bind, Except.bind, hcall rounds hrounds, hlength]
  rw [List.length_nil] at hloop
  rw [hloop, Maitland.malpageReport, hlength, List.take_of_length_le (by simp), List.map_map,
    List.range_eq_range', ← hpid]
  rfl

/-- A process with few frames, when the walk starts with NULL in `pfn_root`. -/
theorem safe_of_reportable (hfind : table.findTask procID = some task) {h : PfnHeap}
    (htask : table.Reportable kzalloc h task) (pfnTail : Option ℕ) :
    table.Safe kzalloc procID domid rets ⟨h, none, pfnTail⟩ := by
  obtain ⟨space, hmm, hfew, hserved⟩ := htask
  obtain ⟨h', root, frames, hwalk, hfresh⟩ := space.exists_walkReturns hserved.nodes pfnTail
  obtain ⟨-, hnodup, hframes⟩ := hwalk.1
  have hlen : frames.length < 2 ^ 31 := hfew frames hnodup fun mfn hmfn => (hframes mfn).mp hmfn
  have hcount : (BitVec.ofNat 32 frames.length).toNat = frames.length :=
    toNat_ofNat_of_lt (by omega)
  refine ⟨_, .inr ⟨task, hfind, _, congrArg (Option.map _) hfind, ⟨rfl, ?_, ?_, hnodup,
    fun mfn => ?_⟩, rfl, rfl⟩,
    table.malpageReport_eq hfind hmm (hwalk.reports hfresh hlen hserved task.pid)⟩
  · exact hcount
  · simp [Maitland.malpageReport, hcount]
  · rw [table.maps_iff hmm]
    exact hframes mfn

/-- Without an area, or without an `mm`, the walk follows a NULL pointer. -/
theorem malpageReport_invalid (hfind : table.findTask procID = some task)
    (hmm : ∀ space, table.mm task ≠ some (.space space)) (rounds : ℕ) :
    table.malpageReport kzalloc rounds procID domid rets st = .error .invalidPointer := by
  simp only [malpageReport, hfind, malpageGenerateReport]
  by_cases hrep : kzalloc st.heap.fresh sizeofProcessReport = true
  · rw [if_pos hrep]
    cases htask : table.mm task with
    | none => rfl
    | some mm =>
      cases mm with
      | empty mapCount pgd => rfl
      | space space => exact absurd htask (hmm space)
  · rw [if_neg hrep]
    rfl

/-- What a call for a process that ends has passed through, in the end on the heap `h`. -/
structure PassedThrough (kzalloc : Kzalloc) (rounds : ℕ) (st : WalkState) (call : ReportCall)
    (space : AddressSpace ops) (h : PfnHeap) (root : Option ℕ) (rep : GuestReport) : Prop where
  ret : call.ret = 0
  report : call.report = some rep
  served : kzalloc st.heap.fresh sizeofProcessReport = true
  walk : pfnlistVmarea ops kzalloc rounds (some space.toMmStruct) true false st = .ok (h, root)
  pfnList : pfnlistMkarray h kzalloc rounds root rep.pfnListLength = .ok rep.pfnList
  grefList : rep.grefList.length =
    (kzallocArray kzalloc h (4 * rep.pfnListLength.setWidth 64) : List (BitVec 32)).length

theorem exists_walk_of_malpageReport (hfind : table.findTask procID = some task) {rounds : ℕ}
    {call : ReportCall}
    (hcall : table.malpageReport kzalloc rounds procID domid rets st = .ok call) :
    ∃ space h root rep, table.mm task = some (.space space) ∧
      PassedThrough kzalloc rounds st call space h root rep := by
  by_cases hmm : ∃ space, table.mm task = some (.space space)
  · obtain ⟨space, hmm⟩ := hmm
    simp only [malpageReport, hfind, table.map_toMmStruct hmm] at hcall
    obtain ⟨⟨h, rep⟩, hreport, hcall⟩ := bind_ok hcall
    obtain ⟨⟨rep', granted⟩, hloop, hcall⟩ := bind_ok hcall
    obtain rfl := Except.ok.inj hcall
    rw [malpageGenerateReport] at hreport
    by_cases hrep : kzalloc st.heap.fresh sizeofProcessReport = true
    · rw [if_pos hrep] at hreport
      obtain ⟨⟨heap, root⟩, hwalk, hreport⟩ := bind_ok hreport
      obtain ⟨size, -, hreport⟩ := bind_ok hreport
      obtain ⟨array, harray, hreport⟩ := bind_ok hreport
      obtain ⟨rfl, rfl⟩ := Prod.mk.inj (Except.ok.inj hreport)
      obtain ⟨hpfns, hlength, hgrefs⟩ := grantLoop_frame hloop
      exact ⟨space, heap, root, rep', hmm, rfl, rfl, hrep, hwalk,
        by rw [hpfns, hlength]; exact harray, by rw [hgrefs, hlength]⟩
    · rw [if_neg hrep] at hreport
      cases hreport
  · rw [table.malpageReport_invalid hfind (not_exists.mp hmm)] at hcall
    cases hcall

/-- Calls that end hand out a node for each probe that finds a frame. -/
theorem exists_passedThrough (hfind : table.findTask procID = some task) {h : PfnHeap}
    {pfnTail : Option ℕ} {call : ReportCall} {enough : ℕ}
    (hrun : ∀ rounds, enough ≤ rounds →
      table.malpageReport kzalloc rounds procID domid rets ⟨h, none, pfnTail⟩ = .ok call) :
    ∃ space rounds h' root rep, table.mm task = some (.space space) ∧
      PassedThrough kzalloc rounds ⟨h, none, pfnTail⟩ call space h' root rep ∧
      space.NodesServed kzalloc h ∧ h'.fresh = h.fresh + space.walk.length := by
  obtain ⟨space, _, _, _, hmm, hpassed⟩ := table.exists_walk_of_malpageReport hfind
    (hrun (max enough (2 ^ 47)) (Nat.le_max_left ..))
  have hnodes : space.NodesServed kzalloc h :=
    space.nodesServed_of_call (Nat.le_max_right ..) hpassed.walk
  obtain ⟨h', root, _, ⟨-, enough', hcall⟩, hfresh⟩ := space.exists_walkReturns hnodes pfnTail
  -- With enough rounds for the walk its end is known.
  obtain ⟨space', h₁, root₁, rep, hmm', hpassed⟩ := table.exists_walk_of_malpageReport hfind
    (hrun (max enough enough') (Nat.le_max_left ..))
  obtain rfl : space = space' := TaskMm.space.inj (Option.some.inj (hmm.symm.trans hmm'))
  have hend := hpassed.walk
  rw [hcall _ (Nat.le_max_right ..)] at hend
  obtain ⟨rfl, rfl⟩ := Prod.mk.inj (Except.ok.inj hend)
  exact ⟨space, _, h', root, rep, hmm, hpassed, hnodes, hfresh⟩

/-- A call that ends with a complete report counted the frames with an `int`, and all that it
asked for was served. -/
theorem reportable_of_safe (hfind : table.findTask procID = some task) {h : PfnHeap}
    {pfnTail : Option ℕ} (hsafe : table.Safe kzalloc procID domid rets ⟨h, none, pfnTail⟩) :
    table.Reportable kzalloc h task := by
  obtain ⟨call, hcall, enough, hrun⟩ := hsafe
  obtain ⟨space, rounds, h', root, rep, hmm, hpassed, hnodes, hfresh⟩ :=
    table.exists_passedThrough hfind hrun
  rcases hcall with ⟨hneg, -⟩ | ⟨task', hfind', rep', hrep', hcomplete, -⟩
  · rw [hpassed.ret] at hneg
    omega
  obtain rfl := Option.some.inj (hfind.symm.trans hfind')
  obtain rfl := Option.some.inj (hpassed.report.symm.trans hrep')
  obtain ⟨hrange, hpfns⟩ := of_length_pfnlistMkarray hpassed.pfnList hcomplete.length.symm
  have hframes : ∀ mfn, mfn ∈ rep.pfnList ↔ mfn ≠ 0 ∧ space.Maps mfn := fun mfn => by
    rw [hcomplete.frames, table.maps_iff hmm]
  have hcard : rep.pfnList.length = space.frames.card := by
    rw [← List.toFinset_card_of_nodup hcomplete.nodup]
    refine congrArg Finset.card (Finset.ext fun mfn => ?_)
    rw [List.mem_toFinset, hframes, space.mem_frames]
  refine ⟨space, hmm, fun frames hnodup hmaps => ?_, hpassed.served, hnodes, ?_, ?_⟩
  · have hsub : frames ⊆ rep.pfnList := fun mfn hmfn => (hframes mfn).mpr (hmaps mfn hmfn)
    have hle := (List.subperm_of_subset hnodup hsub).length_le
    rw [← hcomplete.length] at hle
    omega
  · rw [← hcard, ← hfresh]
    exact hpfns
  · rw [← hcard, ← hfresh]
    intro hpos
    have hbytes : 4 * rep.pfnListLength.setWidth 64 =
        BitVec.ofNat 64 (4 * rep.pfnList.length) := by
      apply BitVec.eq_of_toNat_eq
      rw [BitVec.toNat_mul, BitVec.toNat_setWidth, BitVec.toNat_ofNat, ← hcomplete.length,
        show (4 : BitVec 64).toNat = 4 from rfl]
      omega
    rw [← hbytes]
    refine served_of_kzallocArray (w := 32) ?_
    rw [← hpassed.grefList, hcomplete.grefs]
    exact hpos

/-- For every process there are contents of the stack that the call does not survive. -/
theorem not_safe_of_garbage (hfind : table.findTask procID = some task) (h : PfnHeap) :
    ¬table.Safe kzalloc procID domid rets ⟨h, some h.fresh, none⟩ := by
  rintro ⟨call, -, enough, hrun⟩
  obtain ⟨space, h', root, rep, -, hpassed⟩ := table.exists_walk_of_malpageReport hfind
    (hrun (max enough (2 ^ 47)) (Nat.le_max_left ..))
  obtain ⟨st, hwalk, rfl, hcells⟩ := space.exists_walk_of_call (Nat.le_max_right ..) hpassed.walk
  by_cases hnil : space.walk = []
  · -- The garbage is returned as it is.
    rw [hnil] at hwalk
    obtain rfl := Except.ok.inj hwalk
    exact hcells h.fresh rfl (h.unallocated _ (Nat.le_refl _))
  · rw [WalkState.addMfns_invalid (Option.some_ne_none _) (fun ⟨t, ht, _⟩ => by cases ht)
      space.walk_ne_zero hnil] at hwalk
    cases hwalk

end ProcessTable

/-- For every table and pid, and whatever `kzalloc` serves: when `pfn_root` holds NULL, a call
is safe unless it finds a task without an area, with too many frames or without memory for its
report; it is safe whatever the stack holds only when it finds no task. -/
theorem report_safe_iff (table : ProcessTable ops) (kzalloc : Kzalloc) (procID : BitVec 32)
    (domid : BitVec 16) (rets : ℕ → BitVec 32) (h : PfnHeap) :
    (∀ pfnTail, table.Safe kzalloc procID domid rets ⟨h, none, pfnTail⟩ ↔
      ∀ task ∈ table.findTask procID, table.Reportable kzalloc h task) ∧
    ((∀ pfnRoot pfnTail, table.Safe kzalloc procID domid rets ⟨h, pfnRoot, pfnTail⟩) ↔
      table.findTask procID = none) := by
  cases hfind : table.findTask procID with
  | none =>
    have hsafe : ∀ st, table.Safe kzalloc procID domid rets st :=
      fun st => table.safe_of_findTask_none hfind
    refine ⟨fun pfnTail => iff_of_true (hsafe _) fun task htask => ?_,
      iff_of_true (fun _ _ => hsafe _) rfl⟩
    cases htask
  | some task =>
    refine ⟨fun pfnTail => ⟨fun hsafe task' htask' => ?_, fun htask => ?_⟩,
      iff_of_false (fun hsafe => ?_) (Option.some_ne_none _)⟩
    · obtain rfl := Option.some.inj htask'
      exact table.reportable_of_safe hfind hsafe
    · exact table.safe_of_reportable hfind (htask task rfl) pfnTail
    · exact table.not_safe_of_garbage hfind h (hsafe _ _)

/-- The zombie of process 7, which has given up its memory. -/
def zombieTable : ProcessTable x86PteOps where
  tasks := [⟨7, 7⟩]
  nodup := List.nodup_singleton _
  leader task htask := by
    rw [List.mem_singleton] at htask ⊢
    rw [htask]
  mm _ := none

/-- Whatever else is the case, a report of it follows a NULL pointer. -/
theorem zombie_not_safe :
    ¬∃ kzalloc domid rets st, zombieTable.Safe kzalloc 7 domid rets st := by
  rintro ⟨kzalloc, domid, rets, st, call, -, enough, hrun⟩
  have hfind : zombieTable.findTask 7 = some ⟨7, 7⟩ := rfl
  have hend := hrun enough (Nat.le_refl _)
  rw [zombieTable.malpageReport_invalid hfind fun space h => by cases h] at hend
  cases hend

end Maitland
