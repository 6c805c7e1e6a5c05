import Maitland.Malpage.Thread
import Maitland.Protocol.ReportHandover
import Maitland.Protocol.Responses
import Maitland.Protocol.VerdictInjection
import Maitland.Protocol.WatchHandover

/-!
# One guest and its monitor

The parts put together: the guest's hooks, its interrupt handler, its reporter thread and its
`MALPAGE_WATCH` ioctls, the nodes in Xenstore, the callbacks of the server, and the driver of
dom0.  Every part moves as it does alone, and what one leaves the next one finds.

The guest has registered, and main.py makes its callbacks one after the other.  The device can
be opened and its ioctls return.  A hook's push is taken as atomic: `malpage_do_page_fault` fills
its slot field by field without a lock that the other hooks take, and what two pushes at once leave
in one slot is not modelled.
-/

namespace Maitland

open Decimal

structure System where
  mon : MonitorState
  /-- The guest's end of the ring. -/
  fring : Ring.Front
  /-- The run of `malpage_irq_handle`, if one is under way. -/
  run : Option HandlerRun
  reports : ReportQueue
  handover : HandoverState
  /-- The table in it is the monitor's. -/
  watch : WatchState
  /-- The report of the callback that has yet to come to its verdict. -/
  judged : Option ProcessReport
  /-- The requests the hooks pushed, the pids of the reports in whose dump grep found something,
  and the signals sent in the guest, so far. -/
  pushed : List Message
  condemned : List (BitVec 32)
  signals : List (Signal × BitVec 32)

inductive SystemAct where
  | hook (h : Hook)
  | monitorIrq (garbage : Message)
  /-- A step of `malpage_irq_handle`. -/
  | handler (a : ResponseAct)
  /-- The next operation of its `REPORT` case. -/
  | reportCase
  /-- The next operation of the thread, among the tasks of that moment.  `frames` and `rets` are
  the frames and the grants of a report. -/
  | thread (table : TaskTable) (frames : Task → List (BitVec 64)) (rets : List (BitVec 32))
  /-- A transaction of a report, or a step of `watch_domain_report`. -/
  | handover (a : HandoverAct) (granted : Ref → Bool)
  /-- The end of that callback. -/
  | verdict (found : Bool) (garbage : Message)
  /-- A `MALPAGE_WATCH` ioctl, or a step of `watch_domain_watchreport`. -/
  | watch (a : WatchAct)

/-- What the handler sees of the system. -/
def System.responses (s : System) (ref : Ref) : ResponseState :=
  ⟨s.mon.page ref, s.fring, s.run, [], [], []⟩

/-- The signals among the effects of the switch. -/
def Effect.sent : Effect → Option (Signal × BitVec 32)
  | .signal sig pid => some (sig, pid)
  | _ => none

/-- The system after a step of the handler.  A `REPORT` goes on to its case. -/
def System.handled (s : System) (ref : Ref) (g : ResponseState) : Option System :=
  let t := { s with
    mon := { s.mon with page := Function.update s.mon.page ref g.sring }
    fring := g.fring
    run := g.run
    signals := s.signals ++ g.effects.filterMap Effect.sent }
  match g.effects with
  | [.report pid] =>
    (reportQueueStep s.reports (.enter 0 pid)).map fun q => { t with reports := q }
  | _ => some t

/-- `malpage_op_process` for the thread. -/
def System.opProcess (s : System) (table : TaskTable) (op pid : BitVec 32) : System :=
  { s with signals := s.signals ++
      (malpageOpProcess (table.forEachProcess.map Task.pid) op pid).toList }

/-- The call that the thread makes at a place. -/
def System.call (s : System) (domid : BitVec 16) (table : TaskTable)
    (frames : Task → List (BitVec 64)) (rets : List (BitVec 32)) : ThreadPc → Option System
  | .halt pid => some (s.opProcess table Op.halt pid)
  | .report pid =>
    match malpageReportPid table pid domid frames rets with
    | some rep => (handoverStep s.handover (.call rep)).map fun h => { s with handover := h }
    | none => some s
  | .resume pid => some (s.opProcess table Op.resume pid)
  | _ => some s

/-- No callback is under way. -/
def System.Idle (s : System) : Prop :=
  s.handover.pc = .idle ∧ s.watch.pc = .idle ∧ s.judged = none

instance (s : System) : Decidable s.Idle := inferInstanceAs (Decidable (_ ∧ _ ∧ _))

/-- The end of `watch_domain_report` from its ioctl on: the driver has the report, and the dump
is next. -/
def System.send (z : Ring.Size) (s : System) (granted : Ref → Bool) (r : Reading) :
    Option System :=
  match packReport r with
  | some rep => (monitorIoctl z s.mon (.report rep granted)).map fun m =>
      { s with mon := m.1, judged := some rep }
  | none => some s

/-- A step between the guest's `MALPAGE_WATCH`es and the row of the domain. -/
def System.watchMoves (s : System) (domid : BitVec 16) (a : WatchAct) : Option System :=
  (watchStep domid { s.watch with domList := s.mon.domList } a).map fun w =>
    { s with watch := w, mon := { s.mon with domList := w.domList } }

/-- `ref` is the page of the guest's ring. -/
def systemStep (z : Ring.Size) (ref : Ref) (s : System) : SystemAct → Option System
  | .hook h =>
    -- from the first field of the slot to the producer index
    let r := h.call z ⟨ref.domid, s.mon.page ref, s.fring⟩
    some { s with
      mon := { s.mon with page := Function.update s.mon.page ref r.1.sring }
      fring := r.1.fring
      pushed := s.pushed ++ r.2.toList }
  | .monitorIrq garbage => (monitorIrq z s.mon 0 garbage).map fun r => { s with mon := r.1 }
  | .handler a =>
    match a with
    | .publish _ | .hook _ _ => none
    | a =>
      -- The case of a `REPORT` ends before the handler goes on.
      if s.reports.handlers = [.idle] then
        (responseStep z (s.responses ref) a).bind (s.handled ref)
      else none
  | .reportCase => (reportQueueStep s.reports (.handler 0)).map fun q => { s with reports := q }
  | .thread table frames rets =>
    -- `malpage_xs_report` ends before the thread goes on.
    if s.handover.queue = [] then
      (reportQueueStep s.reports .thread).bind fun q =>
        ({ s with reports := q } : System).call ref.domid table frames rets s.reports.thread
    else none
  | .handover a granted =>
    match a with
    | .call _ => none
    | .event =>
      if s.Idle then (handoverStep s.handover .event).map fun h => { s with handover := h }
      else none
    | .send =>
      match s.handover.pc with
      | .send r => (handoverStep s.handover .send).bind fun h =>
          ({ s with handover := h } : System).send z granted r
      | _ => none
    | a => (handoverStep s.handover a).map fun h => { s with handover := h }
  | .verdict found garbage =>
    match s.judged with
    | some rep =>
      (monitorIoctl z s.mon (if found then .kill garbage else .resume garbage)).map fun r =>
        { s with
          mon := r.1
          judged := none
          condemned := if found then s.condemned ++ [rep.processId] else s.condemned }
    | none => none
  | .watch a =>
    match a with
    | .event => if s.Idle then s.watchMoves ref.domid .event else none
    | a => s.watchMoves ref.domid a

/-- The guest has just registered. -/
def systemStart (arg : UspaceInfo) (irq : Int) (page : Ref → Ring.Shared Message)
    (ring : ℕ → Message) : System where
  mon := (injectionStart arg irq page ring).mon
  fring := Ring.frontRingInit
  run := none
  reports := reportQueueStart 1
  handover := handoverStart
  watch := watchStart (injectionStart arg irq page ring).mon.domList
  judged := none
  pushed := []
  condemned := []
  signals := []

end Maitland
