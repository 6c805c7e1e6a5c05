import Maitland.Malpage.Irq
import Maitland.Malpage.PfnList

/-!
# Operations on processes

`malpage_op_process` over the circular list of `task_struct`s that `for_each_process` goes
through.  The list is read only, so a call is a function of it.
-/

namespace Maitland

open LinkedList

/-- The tasks as the links lead from `init_task` back to it.  `init_task` has pid 0, the
others have distinct positive pids. -/
structure ProcessList where
  heap : Heap (BitVec 32)
  initTask : ℕ
  procs : List (ℕ × BitVec 32)
  circular : Segment heap (some initTask) ((initTask, 0) :: procs) (some initTask)
  initTask_notMem : initTask ∉ procs.map Prod.fst
  positive : ∀ x ∈ procs, 0 < x.2.toInt
  nodup : (procs.map Prod.snd).Nodup

namespace ProcessList

variable (l : ProcessList)

/-- `*task` -/
def task (p : Option ℕ) : Except NoResult (Cell (BitVec 32)) := valid (p.bind l.heap.cells)

/-- `for_each_process(task) { if(task->pid == (pid_t)pid) break; }`, which steps to the next
task before it tests for `init_task`. -/
def forEachProcess (pid : BitVec 32) : ℕ → Option ℕ → Except NoResult (Option ℕ)
  | 0, _ => .error .rounds
  | n + 1, p => do
    let node ← l.task p
    let next := node.next
    if next = some l.initTask then .ok next
    else do
      let node ← l.task next
      if node.val = pid then .ok next else forEachProcess pid n next

/-- The guard and the `force_sig` of the three functions that follow. -/
def signalProcess (sig : Signal) (p : Option ℕ) : Except NoResult (List (Signal × Option ℕ)) := do
  let node ← l.task p
  .ok (if 0 < node.val.toInt then [(sig, p)] else [])

def malpageHaltProcess : Option ℕ → Except NoResult (List (Signal × Option ℕ)) :=
  l.signalProcess .stop

def malpageResumeProcess : Option ℕ → Except NoResult (List (Signal × Option ℕ)) :=
  l.signalProcess .cont

def malpageKillProcess : Option ℕ → Except NoResult (List (Signal × Option ℕ)) :=
  l.signalProcess .kill

/-- The value that is returned, and the signals sent. -/
def malpageOpProcess (rounds : ℕ) (op pid : BitVec 32) :
    Except NoResult (ℤ × List (Signal × Option ℕ)) := do
  let p ← l.forEachProcess pid rounds (some l.initTask)
  if p = none then .ok (-1, [])
  else if op = Op.kill then do
    let sent ← l.malpageKillProcess p
    .ok (1, sent)
  else if op = Op.resume then do
    let sent ← l.malpageResumeProcess p
    .ok (1, sent)
  else if op = Op.halt then do
    let sent ← l.malpageHaltProcess p
    .ok (1, sent)
  else .ok (-1, [])

end ProcessList

/-- The signal of an operation on processes. -/
def signalOf (op : BitVec 32) : Option Signal :=
  if op = Op.kill then some .kill
  else if op = Op.resume then some .cont
  else if op = Op.halt then some .stop
  else none

namespace ProcessList

variable {l : ProcessList} {pid : BitVec 32}

theorem task_some {a : ℕ} {c : Cell (BitVec 32)} (hc : l.heap.cells a = some c) :
    l.task (some a) = .ok c := by
  simp only [task, Option.bind_some, hc, valid]

/-- From a task on, the first with the pid, or `init_task` again. -/
theorem forEachProcess_from {a : ℕ} {v : BitVec 32} {next : Option ℕ} {xs : List (ℕ × BitVec 32)}
    (ha : l.heap.cells a = some ⟨v, next⟩) (hs : Segment l.heap next xs (some l.initTask))
    (hxs : l.initTask ∉ xs.map Prod.fst) {rounds : ℕ} (hrounds : xs.length < rounds) :
    l.forEachProcess pid rounds (some a) =
      .ok (some ((xs.find? (·.2 = pid)).elim l.initTask Prod.fst)) := by
  induction xs generalizing a v next rounds with
  | nil =>
    obtain ⟨n, rfl⟩ := Nat.exists_eq_add_one.mpr hrounds
    obtain rfl := hs
    rw [forEachProcess, task_some ha]
    simp only [bind, Except.bind, if_true, List.find?_nil, Option.elim_none]
  | cons x xs ih =>
    obtain ⟨n, rfl⟩ := Nat.exists_eq_add_one.mpr (Nat.zero_lt_of_lt hrounds)
    obtain ⟨rfl, next, hx, hs⟩ := hs
    rw [List.map_cons, List.mem_cons, not_or] at hxs
    have hne : some x.1 ≠ some l.initTask := fun h => hxs.1 (Option.some.inj h).symm
    rw [forEachProcess, task_some ha]
    simp only [bind, Except.bind, if_neg hne, task_some hx]
    by_cases hpid : x.2 = pid
    · rw [if_pos hpid, List.find?_cons_of_pos (by simpa using hpid), Option.elim_some]
    · rw [if_neg hpid, List.find?_cons_of_neg (by simpa using hpid)]
      exact ih hx hs hxs.2 (Nat.lt_of_succ_lt_succ hrounds)

/-- The search of the whole list. -/
theorem forEachProcess_eq (l : ProcessList) (pid : BitVec 32) {rounds : ℕ}
    (hrounds : l.procs.length < rounds) :
    l.forEachProcess pid rounds (some l.initTask) =
      .ok (some ((l.procs.find? (·.2 = pid)).elim l.initTask Prod.fst)) := by
  obtain ⟨_, next, hinit, hs⟩ := l.circular
  exact forEachProcess_from hinit hs l.initTask_notMem hrounds

/-- A search that fails ends on `init_task`, which the guard spares. -/
theorem signalProcess_eq (l : ProcessList) (pid : BitVec 32) (sig : Signal) :
    l.signalProcess sig (some ((l.procs.find? (·.2 = pid)).elim l.initTask Prod.fst)) =
      .ok ((l.procs.find? (·.2 = pid)).toList.map fun x => (sig, some x.1)) := by
  obtain ⟨_, next, hinit, hs⟩ := l.circular
  cases hfind : l.procs.find? (·.2 = pid) with
  | none =>
    rw [Option.elim_none, signalProcess, task_some hinit]
    rfl
  | some x =>
    have hx := List.mem_of_find?_eq_some hfind
    obtain ⟨next, hcell⟩ := hs.cells hx
    rw [Option.elim_some, signalProcess, task_some hcell]
    simp only [bind, Except.bind, if_pos (l.positive x hx), Option.toList_some, List.map_cons,
      List.map_nil]

/-- The value depends on the operation alone, whether a process is found or not. -/
theorem malpageOpProcess_eq (l : ProcessList) (op pid : BitVec 32) {rounds : ℕ}
    (hrounds : l.procs.length < rounds) :
    l.malpageOpProcess rounds op pid = .ok (match signalOf op with
      | none => (-1, [])
      | some sig => (1, (l.procs.find? (·.2 = pid)).toList.map fun x => (sig, some x.1))) := by
  rw [malpageOpProcess, l.forEachProcess_eq pid hrounds]
  simp only [bind, Except.bind, reduceCtorEq, if_false, malpageKillProcess, malpageResumeProcess,
    malpageHaltProcess, l.signalProcess_eq, signalOf]
  split_ifs <;> rfl

/-- Over the pids alone, `malpageOpProcess` gives the signal of the process that is found. -/
theorem malpageOpProcess_pids (l : ProcessList) (op pid : BitVec 32) :
    Maitland.malpageOpProcess (l.procs.map Prod.snd) op pid =
      (signalOf op).bind fun sig => (l.procs.find? (·.2 = pid)).map fun x => (sig, x.2) := by
  have hsignal (sig : Signal) : malpageSignalProcess sig
      (((l.procs.map Prod.snd).find? fun task => task = pid).getD 0) =
        (l.procs.find? (·.2 = pid)).map fun x => (sig, x.2) := by
    rw [List.find?_map]
    cases hfind : l.procs.find? ((fun task => decide (task = pid)) ∘ Prod.snd) with
    | none => exact congrArg (Option.map _) hfind.symm
    | some x =>
      have hpos := l.positive x (List.mem_of_find?_eq_some hfind)
      refine Eq.trans ?_ (congrArg (Option.map fun x => (sig, x.2)) hfind.symm)
      exact if_pos hpos
  simp only [Maitland.malpageOpProcess, hsignal, signalOf]
  split_ifs <;> rfl

/-- The signals go where `malpageOpProcess` over the pids says. -/
theorem malpageOpProcess_refines (l : ProcessList) (op pid : BitVec 32) {rounds : ℕ}
    (hrounds : l.procs.length < rounds) :
    ∃ ret sent, l.malpageOpProcess rounds op pid = .ok (ret, sent) ∧
      sent.map (fun s => (s.1, (l.task s.2).map Cell.val)) =
        (Maitland.malpageOpProcess (l.procs.map Prod.snd) op pid).toList.map
          fun s => (s.1, .ok s.2) := by
  obtain ⟨_, _, _, hs⟩ := l.circular
  refine ⟨_, _, l.malpageOpProcess_eq op pid hrounds, ?_⟩
  rw [malpageOpProcess_pids]
  cases signalOf op with
  | none => rfl
  | some sig =>
    cases hfind : l.procs.find? (·.2 = pid) with
    | none => rfl
    | some x =>
      obtain ⟨next, hcell⟩ := hs.cells (List.mem_of_find?_eq_some hfind)
      simp [task_some hcell, Except.map]

end ProcessList

end Maitland
