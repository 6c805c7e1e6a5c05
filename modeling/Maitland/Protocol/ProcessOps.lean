import Maitland.Malpage.Process

/-!
# Operations on the named process

A signal reaches the process with the pid and no other.  The value that is returned tells
whether the operation is known, and not whether the process was found.
-/

namespace Maitland

open LinkedList

/-- The call ends.  A known operation on a process of the list sends its signal to that
process only and returns 1; any other call sends nothing and returns -1. -/
def HitsNamedProcess (l : ProcessList) (op pid : BitVec 32) : Prop :=
  ∃ ret sent enough,
    (∀ rounds, enough ≤ rounds → l.malpageOpProcess rounds op pid = .ok (ret, sent)) ∧
    (∀ a sig, (a, pid) ∈ l.procs → signalOf op = some sig → ret = 1 ∧ sent = [(sig, some a)]) ∧
    (pid ∉ l.procs.map Prod.snd ∨ signalOf op = none → ret = -1 ∧ sent = [])

/-- The process with a pid of the list is the one that is found. -/
theorem ProcessList.find?_eq_some {l : ProcessList} {a : ℕ} {pid : BitVec 32}
    (h : (a, pid) ∈ l.procs) : l.procs.find? (·.2 = pid) = some (a, pid) := by
  cases hfind : l.procs.find? (·.2 = pid) with
  | none =>
    have hne := List.find?_eq_none.mp hfind _ h
    simp at hne
  | some x =>
    have hx : x.2 = pid := by simpa using List.find?_some hfind
    exact congrArg some (List.inj_on_of_nodup_map l.nodup (List.mem_of_find?_eq_some hfind) h hx)

theorem ProcessList.find?_eq_none {l : ProcessList} {pid : BitVec 32}
    (h : pid ∉ l.procs.map Prod.snd) : l.procs.find? (·.2 = pid) = none := by
  refine List.find?_eq_none.mpr fun x hx hpid => h ?_
  rw [← of_decide_eq_true hpid]
  exact List.mem_map_of_mem hx

/-- The search ends on `init_task`, and the call returns 1 all the same. -/
theorem not_hitsNamedProcess {l : ProcessList} {op pid : BitVec 32}
    (hpid : pid ∉ l.procs.map Prod.snd) (hop : signalOf op ≠ none) :
    ¬HitsNamedProcess l op pid := by
  rintro ⟨ret, sent, enough, hends, -, hnone⟩
  obtain ⟨sig, hsig⟩ := Option.ne_none_iff_exists'.mp hop
  have hret := hends (max enough (l.procs.length + 1)) (Nat.le_max_left _ _)
  rw [l.malpageOpProcess_eq op pid (Nat.le_max_right _ _), hsig] at hret
  obtain ⟨rfl, -⟩ := Prod.mk.inj (Except.ok.inj hret)
  exact absurd (hnone (.inl hpid)).1 (by decide)

/-- For every list, operation and pid: what is claimed of the call holds exactly when the
pid is in the list or the operation is none of the three. -/
theorem hits_named_process_iff (l : ProcessList) (op pid : BitVec 32) :
    HitsNamedProcess l op pid ↔ pid ∈ l.procs.map Prod.snd ∨ signalOf op = none := by
  constructor
  · intro h
    by_contra hnot
    rw [not_or] at hnot
    exact not_hitsNamedProcess hnot.1 hnot.2 h
  · intro h
    refine ⟨_, _, l.procs.length + 1, fun rounds hrounds => l.malpageOpProcess_eq op pid hrounds,
      fun a sig hmem hsig => ?_, fun hnot => ?_⟩
    · rw [hsig, ProcessList.find?_eq_some hmem]
      exact ⟨rfl, rfl⟩
    · have hop : signalOf op = none := hnot.elim (fun hpid => h.resolve_left hpid) id
      rw [hop]
      exact ⟨rfl, rfl⟩

/-- `init_task` and one process, with pid 7. -/
def oneProcess : ProcessList where
  heap :=
    { cells := fun a => [some ⟨0, some 1⟩, some ⟨7, some 0⟩][a]?.getD none
      fresh := 2
      freed := []
      unallocated := fun a ha => by rw [List.getElem?_eq_none ha, Option.getD_none] }
  initTask := 0
  procs := [(1, 7)]
  circular := ⟨rfl, _, rfl, rfl, _, rfl, rfl⟩
  initTask_notMem := by decide
  positive := by decide
  nodup := by decide

/-- A kill of pid 5 kills nobody and returns 1. -/
theorem missing_process_reported_as_hit :
    oneProcess.malpageOpProcess 2 Op.kill 5 = .ok (1, []) ∧
      ¬HitsNamedProcess oneProcess Op.kill 5 := by
  exact ⟨rfl, not_hitsNamedProcess (by decide) (by decide)⟩

end Maitland
