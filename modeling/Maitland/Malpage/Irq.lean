import Maitland.Malpage.Hooks

/-!
# The guest's interrupt handler

The switch of `malpage_irq_handle` and what its cases call.
-/

namespace Maitland

inductive Signal where
  | kill
  | cont
  | stop
  deriving DecidableEq

/-- `malpage_kill_process`, `malpage_resume_process` and `malpage_halt_process`
send their signal to any task but the idle one. -/
def malpageSignalProcess (sig : Signal) (task : BitVec 32) : Option (Signal × BitVec 32) :=
  if 0 < task.toInt then some (sig, task) else none

/-- `tasks` are the pids `for_each_process` goes through.  A search that finds
nothing ends on the list head, which is the idle task with pid 0, and not on NULL. -/
def malpageOpProcess (tasks : List (BitVec 32)) (op pid : BitVec 32) :
    Option (Signal × BitVec 32) :=
  let task := (tasks.find? fun task => task = pid).getD 0
  if op = Op.kill then malpageSignalProcess .kill task
  else if op = Op.resume then malpageSignalProcess .cont task
  else if op = Op.halt then malpageSignalProcess .stop task
  else none

/-- What the switch does beyond its flag. -/
inductive Effect where
  | signal (sig : Signal) (pid : BitVec 32)
  /-- `malpage_flipnx_page(ptep, pte)` -/
  | flipnxPage (ptep pte : BitVec 64)
  /-- A pid appended to `report_queue`, and one `up` of `thread_report_sem`. -/
  | report (pid : BitVec 32)
  deriving DecidableEq

/-- The switch on one response: its effects and the value it leaves in `skip`. -/
def malpageSwitch (tasks : List (BitVec 32)) (resp : Message) (skip : BitVec 32) :
    List Effect × BitVec 32 :=
  if resp.operation = Op.nonop then ([], skip)
  else if resp.operation = Op.kill then
    ((malpageOpProcess tasks Op.kill resp.processId).toList.map fun p => .signal p.1 p.2, 0)
  else if resp.operation = Op.resume then ([], 0)
  else if resp.operation = Op.halt then ([], 1)
  else if resp.operation = Op.nx then ([.flipnxPage resp.mmuPtr resp.mmuVal], 1)
  else if resp.operation = Op.report then ([.report resp.processId], 1)
  else ([], skip)

/-- `KILL` and `RESUME` clear the flag, `HALT`, `NX` and `REPORT` set it, the rest
leaves it. -/
def flagOf (resp : Message) : Option Bool :=
  if resp.operation = Op.kill ∨ resp.operation = Op.resume then some false
  else if resp.operation = Op.halt ∨ resp.operation = Op.nx ∨ resp.operation = Op.report then
    some true
  else none

/-- The last response of the batch that touches the flag clears it; with none, the
uninitialised flag happened to be 0. -/
def ClearsFlag (garbage : BitVec 32) (batch : List Message) : Prop :=
  match (batch.filterMap flagOf).getLast? with
  | some set => set = false
  | none => garbage = 0

instance (garbage : BitVec 32) (batch : List Message) : Decidable (ClearsFlag garbage batch) :=
  match h : (batch.filterMap flagOf).getLast? with
  | some set => decidable_of_iff (set = false) (by rw [ClearsFlag, h])
  | none => decidable_of_iff (garbage = 0) (by rw [ClearsFlag, h])

/-- What the effects of a response are does not depend on the flag. -/
theorem malpageSwitch_effects (tasks : List (BitVec 32)) (resp : Message)
    (skip skip' : BitVec 32) :
    (malpageSwitch tasks resp skip).1 = (malpageSwitch tasks resp skip').1 := by
  unfold malpageSwitch
  split_ifs <;> rfl

theorem malpageSwitch_skip (tasks : List (BitVec 32)) (resp : Message) (skip : BitVec 32) :
    (malpageSwitch tasks resp skip).2 = match flagOf resp with
      | some true => 1
      | some false => 0
      | none => skip := by
  unfold malpageSwitch flagOf
  by_cases hn : resp.operation = Op.nonop
  · have : Op.nonop ≠ Op.kill ∧ Op.nonop ≠ Op.resume ∧ Op.nonop ≠ Op.halt ∧ Op.nonop ≠ Op.nx ∧
        Op.nonop ≠ Op.report := by decide
    simp [hn, this]
  by_cases hk : resp.operation = Op.kill
  · simp [hk, show Op.kill ≠ Op.nonop by decide]
  by_cases hr : resp.operation = Op.resume
  · simp [hr, show Op.resume ≠ Op.nonop by decide, show Op.resume ≠ Op.kill by decide]
  simp only [if_neg hn, hk, hr, or_self, if_false]
  by_cases hh : resp.operation = Op.halt
  · simp [hh]
  by_cases hx : resp.operation = Op.nx
  · simp [hx, show Op.nx ≠ Op.halt by decide]
  by_cases hp : resp.operation = Op.report
  · simp [hp, show Op.report ≠ Op.halt by decide, show Op.report ≠ Op.nx by decide]
  simp [hh, hx, hp]

/-- One more response and the flag still is 0 exactly when the batch clears it. -/
theorem clearsFlag_snoc {garbage skip : BitVec 32} {batch : List Message}
    (h : skip = 0 ↔ ClearsFlag garbage batch) (tasks : List (BitVec 32)) (resp : Message) :
    (malpageSwitch tasks resp skip).2 = 0 ↔ ClearsFlag garbage (batch ++ [resp]) := by
  rw [malpageSwitch_skip, ClearsFlag, List.filterMap_append]
  cases hf : flagOf resp with
  | none => simpa [hf, ClearsFlag] using h
  | some set => cases set <;> simp [hf]

end Maitland
