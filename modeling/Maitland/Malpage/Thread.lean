import Maitland.Library.Run
import Maitland.Malpage.Irq

/-!
# The reporter thread

`malpage_report_thread` serves the pids that the `REPORT` case of
`malpage_irq_handle` leaves in `report_queue`.  The list is under
`report_queue_lock`; `thread_report_sem` counts what the thread may take.
-/

namespace Maitland

/-- Where a run of the `REPORT` case is: the operation it makes next. -/
inductive CasePc where
  | idle
  | lock (pid : BitVec 32)
  | append (pid : BitVec 32)
  | unlock
  | up
  deriving DecidableEq

/-- Where the thread is: the operation it makes next. -/
inductive ThreadPc where
  | down
  | lock
  | take
  | unlock (pid : BitVec 32)
  | halt (pid : BitVec 32)
  | report (pid : BitVec 32)
  | resume (pid : BitVec 32)
  /-- "report list was empty! Bailing out." -/
  | bailed
  deriving DecidableEq

/-- What the thread calls for a pid. -/
inductive ThreadCall where
  | opProcess (op pid : BitVec 32)
  | report (pid : BitVec 32)
  deriving DecidableEq

inductive Holder where
  | thread
  | handler (i : ℕ)
  deriving DecidableEq

structure ReportQueue where
  queue : List (BitVec 32)
  /-- The count of `thread_report_sem`. -/
  sem : ℕ
  /-- Who holds `report_queue_lock`. -/
  holder : Option Holder
  handlers : List CasePc
  thread : ThreadPc
  /-- The pids appended, the pids taken and the calls of the thread, so far. -/
  enqueued : List (BitVec 32)
  taken : List (BitVec 32)
  calls : List ThreadCall

/-- After the set-up in `malpage_init`, with `n` runs of the handler that may overlap. -/
def reportQueueStart (n : ℕ) : ReportQueue where
  queue := []
  sem := 0
  holder := none
  handlers := List.replicate n .idle
  thread := .down
  enqueued := []
  taken := []
  calls := []

inductive ReportQueueAct where
  /-- Run `i` of the handler reads a `REPORT` for `pid`. -/
  | enter (i : ℕ) (pid : BitVec 32)
  | handler (i : ℕ)
  | thread

/-- The operation at `pc` of run `i` in the `REPORT` case.  A lock that is held is
waited for. -/
def caseStep (s : ReportQueue) (i : ℕ) : CasePc → Option ReportQueue
  | .idle => none
  | .lock pid =>
    if s.holder = none then
      some { s with holder := some (.handler i), handlers := s.handlers.set i (.append pid) }
    else none
  | .append pid =>
    some { s with
      queue := s.queue ++ [pid]
      handlers := s.handlers.set i .unlock
      enqueued := s.enqueued ++ [pid] }
  | .unlock => some { s with holder := none, handlers := s.handlers.set i .up }
  | .up => some { s with sem := s.sem + 1, handlers := s.handlers.set i .idle }

/-- The operation of the thread at a place.  `down_interruptible` waits for the count, as
no signal reaches a kernel thread; the exit on an empty list keeps the lock. -/
def threadStep (s : ReportQueue) : ThreadPc → Option ReportQueue
  | .down => if 0 < s.sem then some { s with sem := s.sem - 1, thread := .lock } else none
  | .lock =>
    if s.holder = none then some { s with holder := some .thread, thread := .take } else none
  | .take =>
    match s.queue with
    | [] => some { s with thread := .bailed }
    | pid :: rest => some { s with queue := rest, taken := s.taken ++ [pid], thread := .unlock pid }
  | .unlock pid => some { s with holder := none, thread := .halt pid }
  | .halt pid =>
    some { s with calls := s.calls ++ [.opProcess Op.halt pid], thread := .report pid }
  | .report pid => some { s with calls := s.calls ++ [.report pid], thread := .resume pid }
  | .resume pid =>
    some { s with calls := s.calls ++ [.opProcess Op.resume pid], thread := .down }
  | .bailed => none

def reportQueueStep (s : ReportQueue) : ReportQueueAct → Option ReportQueue
  | .enter i pid =>
    if s.handlers[i]? = some .idle then some { s with handlers := s.handlers.set i (.lock pid) }
    else none
  | .handler i => s.handlers[i]?.bind (caseStep s i)
  | .thread => threadStep s s.thread

/-- The responses for which the switch comes to the `REPORT` case. -/
theorem report_mem_malpageSwitch (tasks : List (BitVec 32)) (resp : Message)
    (skip pid : BitVec 32) :
    Effect.report pid ∈ (malpageSwitch tasks resp skip).1 ↔
      resp.operation = Op.report ∧ pid = resp.processId := by
  unfold malpageSwitch
  by_cases hr : resp.operation = Op.report
  · have : Op.report ≠ Op.nonop ∧ Op.report ≠ Op.kill ∧ Op.report ≠ Op.resume ∧
        Op.report ≠ Op.halt ∧ Op.report ≠ Op.nx := by decide
    simp [hr, this]
  · split_ifs <;> simp [hr]

-- ════════════════════════════════════════════════════════════════════════
-- One CPU
-- ════════════════════════════════════════════════════════════════════════

/-- The `REPORT` case on the one CPU, with nothing in between: `none` when it waits
for the lock, since nothing else runs that could release it. -/
def reportCase (s : ReportQueue) (pid : BitVec 32) : Option ReportQueue :=
  Lts.run reportQueueStep s [.enter 0 pid, .handler 0, .handler 0, .handler 0, .handler 0]

/-- `malpage_irq_handle` on the responses it reads.  A `REPORT` case that waits for the
lock leaves the handler spinning there; the other cases do not touch the queue. -/
def serveBatch : ReportQueue → List Message → ReportQueue
  | s, [] => s
  | s, resp :: batch =>
    if resp.operation = Op.report then
      match reportCase s resp.processId with
      | some t => serveBatch t batch
      | none => { s with handlers := s.handlers.set 0 (.lock resp.processId) }
    else serveBatch s batch

inductive CpuAct where
  | thread
  /-- An event, at which the handler reads the responses `batch`. -/
  | interrupt (batch : List Message)

/-- One operation of the thread or one run of the handler, which is over before the
thread goes on. -/
def cpuStep (s : ReportQueue) (a : CpuAct) : Option ReportQueue :=
  if s.handlers = [.idle] then
    match a with
    | .thread => threadStep s s.thread
    | .interrupt batch => some (serveBatch s batch)
  else none

/-- The handler waits for a lock which the thread it interrupted holds. -/
def ReportQueue.Spinning (s : ReportQueue) : Prop :=
  (∃ pid, s.handlers = [.lock pid]) ∧ s.holder = some .thread

end Maitland
