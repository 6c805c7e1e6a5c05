import Maitland.Malpage.Thread

/-!
# The report queue and its semaphore

The handler appends before it ups and the thread downs before it takes, so what is
queued is what the semaphore counts and what the two have still to account for.
-/

namespace Maitland

/-- The handler has appended and not yet upped. -/
def CasePc.owesUp : CasePc → Bool
  | .unlock | .up => true
  | _ => false

/-- The thread has downed and not yet taken. -/
def ThreadPc.owesTake : ThreadPc → Bool
  | .lock | .take => true
  | _ => false

/-- All that the thread calls for a pid. -/
def serve (pid : BitVec 32) : List ThreadCall :=
  [.opProcess Op.halt pid, .report pid, .opProcess Op.resume pid]

/-- The calls that are left for the pid the thread is at. -/
def ThreadPc.left : ThreadPc → List ThreadCall
  | .unlock pid | .halt pid => serve pid
  | .report pid => [.report pid, .opProcess Op.resume pid]
  | .resume pid => [.opProcess Op.resume pid]
  | _ => []

namespace ReportQueue

def owedUps (s : ReportQueue) : ℕ := s.handlers.countP CasePc.owesUp

def owedTakes (s : ReportQueue) : ℕ := s.thread.owesTake.toNat

/-- The pids that were halted, reported and resumed, in the order of the calls. -/
def halted (s : ReportQueue) : List (BitVec 32) :=
  s.calls.filterMap fun
    | .opProcess op pid => if op = Op.halt then some pid else none
    | .report _ => none

def reported (s : ReportQueue) : List (BitVec 32) :=
  s.calls.filterMap fun
    | .report pid => some pid
    | .opProcess _ _ => none

def resumed (s : ReportQueue) : List (BitVec 32) :=
  s.calls.filterMap fun
    | .opProcess op pid => if op = Op.resume then some pid else none
    | .report _ => none

/-- The queue is what the semaphore counts and what is owed on either side, and the
calls of the thread are those for the pids it has taken. -/
structure InStep (s : ReportQueue) : Prop where
  count : s.queue.length = s.sem + s.owedUps + s.owedTakes
  order : s.taken ++ s.queue = s.enqueued
  served : s.calls ++ s.thread.left = s.taken.flatMap serve
  running : s.thread ≠ .bailed

variable {s t : ReportQueue}

theorem InStep.start (n : ℕ) : (reportQueueStart n).InStep where
  count := by simp [reportQueueStart, owedUps, owedTakes, ThreadPc.owesTake, List.countP_replicate,
    CasePc.owesUp]
  order := rfl
  served := rfl
  running := by simp [reportQueueStart]

/-- A run of the handler that moves between places with the same debt. -/
theorem owedUps_move {i : ℕ} {pc : CasePc} (h : s.handlers[i]? = some pc) (pc' : CasePc) :
    (s.handlers.set i pc').countP CasePc.owesUp + pc.owesUp.toNat =
      s.owedUps + pc'.owesUp.toNat :=
  Lts.countP_move h CasePc.owesUp pc'

/-- Taking up a `REPORT` changes neither the queue nor what is owed. -/
theorem InStep.enter (h : s.InStep) {i : ℕ} {pid : BitVec 32}
    (ht : reportQueueStep s (.enter i pid) = some t) : t.InStep := by
  rw [reportQueueStep] at ht
  split at ht
  · next hi =>
    cases ht
    have hm := owedUps_move hi (.lock pid)
    refine ⟨?_, h.order, h.served, h.running⟩
    exact h.count.trans (congrArg (s.sem + · + s.owedTakes) hm.symm)
  · cases ht

theorem InStep.caseStep (h : s.InStep) {i : ℕ} {pc : CasePc} (hi : s.handlers[i]? = some pc)
    (ht : Maitland.caseStep s i pc = some t) : t.InStep := by
  have hcount := h.count
  cases pc with
  | idle => cases ht
  | lock pid =>
    rw [Maitland.caseStep] at ht
    split at ht
    · cases ht
      have hm := owedUps_move hi (.append pid)
      refine ⟨?_, h.order, h.served, h.running⟩
      exact h.count.trans (congrArg (s.sem + · + s.owedTakes) hm.symm)
    · cases ht
  | append pid =>
    -- the append lengthens the queue and leaves an `up` to come
    cases ht
    have hm := owedUps_move hi .unlock
    refine ⟨?_, by simp [← h.order], h.served, h.running⟩
    simp only [List.length_append, List.length_singleton, hcount]
    simp only [owedUps, owedTakes, CasePc.owesUp, Bool.toNat_false, Bool.toNat_true] at hm ⊢
    omega
  | unlock =>
    cases ht
    have hm := owedUps_move hi .up
    refine ⟨?_, h.order, h.served, h.running⟩
    exact h.count.trans (congrArg (s.sem + · + s.owedTakes) (Nat.add_right_cancel hm).symm)
  | up =>
    cases ht
    have hm := owedUps_move hi .idle
    refine ⟨?_, h.order, h.served, h.running⟩
    simp only [owedUps, owedTakes, CasePc.owesUp, Bool.toNat_false, Bool.toNat_true] at hcount hm ⊢
    omega

/-- A thread at its `take` has a pid to take: the count it has downed is in the queue. -/
theorem InStep.queue_ne_nil (h : s.InStep) (ht : s.thread = .take) : s.queue ≠ [] := by
  intro hq
  have hcount := h.count
  rw [hq, owedTakes, ht] at hcount
  simp [ThreadPc.owesTake] at hcount

/-- The thread moves on without touching the queue or the semaphore. -/
theorem InStep.move (h : s.InStep) {pc : ThreadPc} (holder : Option Holder)
    {calls : List ThreadCall} (howes : pc.owesTake = s.thread.owesTake)
    (hleft : calls ++ pc.left = s.calls ++ s.thread.left) (hpc : pc ≠ .bailed) :
    InStep { s with holder := holder, calls := calls, thread := pc } where
  count := h.count.trans (congrArg (s.sem + s.owedUps + Bool.toNat ·) howes.symm)
  order := h.order
  served := hleft.trans h.served
  running := hpc

theorem InStep.threadStep (h : s.InStep) {pc : ThreadPc} (hpc : s.thread = pc)
    (ht : Maitland.threadStep s pc = some t) : t.InStep := by
  cases pc with
  | down =>
    rw [Maitland.threadStep] at ht
    split at ht
    · cases ht
      have hcount := h.count
      refine ⟨?_, h.order, by simpa [hpc, ThreadPc.left] using h.served, by simp⟩
      simp only [owedUps, owedTakes, hpc, ThreadPc.owesTake, Bool.toNat_false,
        Bool.toNat_true] at hcount ⊢
      omega
    · cases ht
  | lock =>
    rw [Maitland.threadStep] at ht
    split at ht
    · cases ht
      exact h.move _ (by simp [hpc, ThreadPc.owesTake]) (by simp [hpc, ThreadPc.left]) (by simp)
    · cases ht
  | take =>
    rw [Maitland.threadStep] at ht
    split at ht
    · next hq => exact absurd hq (h.queue_ne_nil hpc)
    · next pid rest hq =>
      cases ht
      have hcount := h.count
      have horder := h.order
      have hserved := h.served
      rw [hq] at hcount horder
      rw [hpc] at hserved
      refine ⟨?_, by simp [← horder], ?_, by simp⟩
      · simp only [owedUps, owedTakes, hpc, ThreadPc.owesTake, Bool.toNat_false,
          Bool.toNat_true, List.length_cons] at hcount ⊢
        omega
      · simp only [ThreadPc.left, List.append_nil] at hserved
        simp [ThreadPc.left, hserved]
  | unlock pid =>
    cases ht
    exact h.move _ (by simp [hpc, ThreadPc.owesTake]) (by simp [hpc, ThreadPc.left]) (by simp)
  | halt pid =>
    cases ht
    exact h.move _ (by simp [hpc, ThreadPc.owesTake]) (by simp [hpc, ThreadPc.left, serve])
      (by simp)
  | report pid =>
    cases ht
    exact h.move _ (by simp [hpc, ThreadPc.owesTake]) (by simp [hpc, ThreadPc.left]) (by simp)
  | resume pid =>
    cases ht
    exact h.move _ (by simp [hpc, ThreadPc.owesTake]) (by simp [hpc, ThreadPc.left]) (by simp)
  | bailed => cases ht

theorem InStep.step (h : s.InStep) {a : ReportQueueAct} (ht : reportQueueStep s a = some t) :
    t.InStep := by
  cases a with
  | enter i pid => exact h.enter ht
  | handler i =>
    obtain ⟨pc, hi, ht⟩ := Option.bind_eq_some_iff.mp ht
    exact h.caseStep hi ht
  | thread => exact h.threadStep rfl ht

/-- Whatever picks the pid out of the calls for it picks the pids in their order. -/
theorem filterMap_flatMap_serve {f : ThreadCall → Option (BitVec 32)}
    (hf : ∀ pid, (serve pid).filterMap f = [pid]) (pids : List (BitVec 32)) :
    (pids.flatMap serve).filterMap f = pids := by
  induction pids with
  | nil => rfl
  | cons pid pids ih => rw [List.flatMap_cons, List.filterMap_append, hf, ih]; rfl

theorem InStep.calls_prefix (h : s.InStep) : s.calls <+: s.enqueued.flatMap serve := by
  rw [← h.order, List.flatMap_append, ← h.served, List.append_assoc]
  exact List.prefix_append _ _

/-- So do the calls made so far, up to where they are. -/
theorem InStep.filterMap_calls (h : s.InStep) {f : ThreadCall → Option (BitVec 32)}
    (hf : ∀ pid, (serve pid).filterMap f = [pid]) : s.calls.filterMap f <+: s.enqueued := by
  have hpre := h.calls_prefix.filterMap f
  rwa [filterMap_flatMap_serve hf] at hpre

end ReportQueue

open ReportQueue

/-- In every reachable state the queue, the semaphore and what is owed agree, the
exit on an empty list has not been taken, and the pids served are the first of those
that were enqueued. -/
theorem report_queue_in_step (n : ℕ) (as : List ReportQueueAct) (s : ReportQueue)
    (hr : Lts.run reportQueueStep (reportQueueStart n) as = some s) :
    s.queue.length = s.sem + s.owedUps + s.owedTakes ∧
    s.thread ≠ .bailed ∧
    (s.halted <+: s.enqueued ∧ s.reported <+: s.enqueued ∧ s.resumed <+: s.enqueued) ∧
    s.taken ++ s.queue = s.enqueued ∧
    s.calls ++ s.thread.left = s.taken.flatMap serve := by
  have h : s.InStep := Lts.invariant (fun _ _ _ h ht => h.step ht) hr (.start n)
  refine ⟨h.count, h.running, ⟨?_, ?_, ?_⟩, h.order, h.served⟩
  · exact h.filterMap_calls fun pid => rfl
  · exact h.filterMap_calls fun pid => rfl
  · exact h.filterMap_calls fun pid => rfl

/-- Two overlapping runs of the handler, one pid served and the other taken. -/
def twoReports : List ReportQueueAct :=
  [.enter 0 7, .enter 1 9, .handler 1, .handler 1, .handler 1, .handler 0, .handler 1,
    .thread, .handler 0, .handler 0, .thread, .thread, .handler 0, .thread, .thread, .thread,
    .thread, .thread, .thread, .thread, .thread]

theorem report_queue_in_step_twoReports :
    ∃ s, Lts.run reportQueueStep (reportQueueStart 2) twoReports = some s ∧
      s.enqueued = [9, 7] ∧ s.resumed = [9] ∧ s.thread = .halt 7 ∧
      s.queue.length = s.sem + s.owedUps + s.owedTakes :=
  ⟨_, rfl, rfl, rfl, rfl, (report_queue_in_step 2 twoReports _ rfl).1⟩

-- ════════════════════════════════════════════════════════════════════════
-- One CPU
-- ════════════════════════════════════════════════════════════════════════

/-- The thread is past its `spin_lock` and not past its `spin_unlock`. -/
def ThreadPc.holdsLock : ThreadPc → Bool
  | .take | .unlock _ | .bailed => true
  | _ => false

/-- No run of the handler is under way, and the lock is the thread's or free. -/
structure ReportQueue.Returned (s : ReportQueue) : Prop where
  handlers : s.handlers = [.idle]
  holder : s.holder = if s.thread.holdsLock then some .thread else none

/-- The pids of the `REPORT`s in a batch. -/
def reportPids (batch : List Message) : List (BitVec 32) :=
  (batch.filter fun resp => resp.operation = Op.report).map Message.processId

/-- After a whole `REPORT` case for each of `pids`. -/
def ReportQueue.append (s : ReportQueue) (pids : List (BitVec 32)) : ReportQueue :=
  { s with
    queue := s.queue ++ pids
    sem := s.sem + pids.length
    enqueued := s.enqueued ++ pids }

variable {s t : ReportQueue}

theorem reportCase_free (hh : s.handlers = [.idle]) (hl : s.holder = none) (pid : BitVec 32) :
    reportCase s pid = some (s.append [pid]) := by
  obtain ⟨queue, sem, holder, handlers, thread, enqueued, taken, calls⟩ := s
  cases hh
  cases hl
  rfl

theorem reportCase_held (hh : s.handlers = [.idle]) {x : Holder} (hl : s.holder = some x)
    (pid : BitVec 32) : reportCase s pid = none := by
  obtain ⟨queue, sem, holder, handlers, thread, enqueued, taken, calls⟩ := s
  cases hh
  cases hl
  rfl

/-- With the lock free the handler serves its whole batch. -/
theorem serveBatch_free (hh : s.handlers = [.idle]) (hl : s.holder = none)
    (batch : List Message) : serveBatch s batch = s.append (reportPids batch) := by
  induction batch generalizing s with
  | nil => simp [serveBatch, reportPids, ReportQueue.append]
  | cons resp batch ih =>
    rw [serveBatch]
    by_cases hr : resp.operation = Op.report
    · have hnext : serveBatch (s.append [resp.processId]) batch =
          (s.append [resp.processId]).append (reportPids batch) := ih hh hl
      simp only [if_pos hr, reportCase_free hh hl, hnext]
      simp [ReportQueue.append, reportPids, hr, Nat.add_assoc, Nat.add_comm 1]
    · rw [if_neg hr, ih hh hl]
      simp [reportPids, hr]

/-- With the lock held by the thread, the handler spins at the first `REPORT`. -/
theorem serveBatch_held (hh : s.handlers = [.idle]) (hl : s.holder = some .thread)
    (batch : List Message) :
    ((∀ resp ∈ batch, resp.operation ≠ Op.report) ∧ serveBatch s batch = s) ∨
      ((∃ resp ∈ batch, resp.operation = Op.report) ∧ (serveBatch s batch).Spinning) := by
  induction batch with
  | nil => exact .inl ⟨by simp, rfl⟩
  | cons resp batch ih =>
    rw [serveBatch]
    by_cases hr : resp.operation = Op.report
    · rw [if_pos hr, reportCase_held hh hl]
      exact .inr ⟨⟨resp, by simp, hr⟩, ⟨resp.processId, by simp [hh]⟩, hl⟩
    · rw [if_neg hr]
      rcases ih with ⟨hnone, hs⟩ | ⟨⟨resp', hmem, hr'⟩, hs⟩
      · exact .inl ⟨by simpa [hr] using hnone, hs⟩
      · exact .inr ⟨⟨resp', by simp [hmem], hr'⟩, hs⟩

theorem ReportQueue.Returned.not_spinning (h : s.Returned) : ¬ s.Spinning := by
  rintro ⟨⟨pid, hp⟩, _⟩
  rw [h.handlers] at hp
  cases hp

/-- The thread takes and releases the lock around its `take`. -/
theorem ReportQueue.Returned.threadStep (h : s.Returned) {pc : ThreadPc} (hpc : s.thread = pc)
    (ht : Maitland.threadStep s pc = some t) : t.Returned := by
  have hholder := h.holder
  rw [hpc] at hholder
  cases pc with
  | down =>
    rw [Maitland.threadStep] at ht
    split at ht
    · cases ht
      exact ⟨h.handlers, hholder⟩
    · cases ht
  | lock =>
    rw [Maitland.threadStep] at ht
    split at ht
    · cases ht
      exact ⟨h.handlers, rfl⟩
    · cases ht
  | take =>
    rw [Maitland.threadStep] at ht
    split at ht <;> cases ht <;> exact ⟨h.handlers, hholder⟩
  | unlock pid =>
    cases ht
    exact ⟨h.handlers, rfl⟩
  | bailed => cases ht
  | halt pid | report pid | resume pid =>
    cases ht
    exact ⟨h.handlers, hholder⟩

/-- An event is not delivered while the thread is between `spin_lock` and
`spin_unlock`, or none of the responses read at it is a `REPORT`. -/
def NoReportUnderLock (s : ReportQueue) : CpuAct → Prop
  | .thread => True
  | .interrupt batch =>
    s.thread.holdsLock = true → ∀ resp ∈ batch, resp.operation ≠ Op.report

theorem cpuStep_spinning_iff (h : s.Returned) {a : CpuAct} (ht : cpuStep s a = some t) :
    (¬ t.Spinning ↔ NoReportUnderLock s a) ∧ (NoReportUnderLock s a → t.Returned) := by
  unfold cpuStep at ht
  rw [if_pos h.handlers] at ht
  cases a with
  | thread =>
    have hret := h.threadStep rfl ht
    exact ⟨iff_of_true hret.not_spinning trivial, fun _ => hret⟩
  | interrupt batch =>
    cases ht
    have hholder := h.holder
    cases hl : s.thread.holdsLock with
    | false =>
      rw [hl, if_neg Bool.false_ne_true] at hholder
      have hret : (serveBatch s batch).Returned := by
        rw [serveBatch_free h.handlers hholder]
        exact ⟨h.handlers, h.holder⟩
      refine ⟨iff_of_true hret.not_spinning ?_, fun _ => hret⟩
      intro hlock
      rw [hl] at hlock
      cases hlock
    | true =>
      rw [hl, if_pos rfl] at hholder
      rcases serveBatch_held h.handlers hholder batch with ⟨hnone, hs⟩ | ⟨⟨resp, hmem, hr⟩, hspin⟩
      · rw [hs]
        exact ⟨iff_of_true h.not_spinning fun _ => hnone, fun _ => h⟩
      · refine ⟨iff_of_false (not_not_intro hspin) ?_, ?_⟩
        · exact fun hno => hno hl resp hmem hr
        · exact fun hno => absurd hr (hno hl resp hmem)

/-- On one CPU the handler never spins on a lock of the thread it interrupted in exactly
the runs in which no `REPORT` is read while the thread is between `spin_lock` and
`spin_unlock`. -/
theorem handler_never_spins_iff (as : List CpuAct) :
    Lts.Along cpuStep (fun _ _ t => ¬ t.Spinning) (reportQueueStart 1) as ↔
      Lts.Along cpuStep (fun s a _ => NoReportUnderLock s a) (reportQueueStart 1) as := by
  have hstart : (reportQueueStart 1).Returned := ⟨rfl, rfl⟩
  refine Lts.along_iff ?_ ?_ hstart as
  · exact fun _ _ _ h ht => (cpuStep_spinning_iff h ht).1
  · exact fun _ _ _ h ht => (cpuStep_spinning_iff h ht).2

/-- A response to the request of process `pid`. -/
def reportResponse (pid : BitVec 32) : Message := { (default : Message) with
  operation := Op.report
  processId := pid }

/-- A second `REPORT` comes in when the thread has just locked the queue for the first:
the handler spins, and no operation on this CPU can be made any more. -/
theorem handler_spins_on_the_thread :
    ∃ s, Lts.run cpuStep (reportQueueStart 1)
        [.interrupt [reportResponse 7], .thread, .thread, .interrupt [reportResponse 9]] = some s ∧
      s.Spinning ∧ ∀ a, cpuStep s a = none :=
  ⟨_, rfl, ⟨⟨9, rfl⟩, rfl⟩, fun _ => rfl⟩

/-- A run of the handler on the one CPU is one of the interleavings. -/
theorem serveBatch_run (batch : List Message) (hh : s.handlers = [.idle]) :
    ∃ as, Lts.run reportQueueStep s as = some (serveBatch s batch) := by
  induction batch generalizing s with
  | nil => exact ⟨[], rfl⟩
  | cons resp batch ih =>
    rw [serveBatch]
    by_cases hr : resp.operation = Op.report
    · rw [if_pos hr]
      cases hl : s.holder with
      | none =>
        have hcase := reportCase_free hh hl resp.processId
        obtain ⟨as, has⟩ := ih (s := s.append [resp.processId]) hh
        rw [hcase]
        exact ⟨_, (Lts.run_append_eq_some _).mpr ⟨_, hcase, has⟩⟩
      | some x =>
        rw [reportCase_held hh hl]
        exact ⟨[.enter 0 resp.processId], by simp [Lts.run, reportQueueStep, hh, hl]⟩
    · rw [if_neg hr]
      exact ih hh

theorem cpuStep_run {a : CpuAct} (ht : cpuStep s a = some t) :
    ∃ as, Lts.run reportQueueStep s as = some t := by
  unfold cpuStep at ht
  split at ht
  · next hh =>
    cases a with
    | thread => exact ⟨[.thread], by simp [Lts.run, reportQueueStep, ht]⟩
    | interrupt batch =>
      cases ht
      exact serveBatch_run batch hh
  · cases ht

/-- So what holds of all interleavings holds on one CPU, also of a handler that spins. -/
theorem cpu_in_step {as : List CpuAct} (hr : Lts.run cpuStep (reportQueueStart 1) as = some s) :
    s.InStep := by
  refine Lts.invariant ?_ hr (ReportQueue.InStep.start 1)
  intro s a t h ht
  obtain ⟨bs, hbs⟩ := cpuStep_run ht
  exact Lts.invariant (fun _ _ _ h ht => h.step ht) hbs h

end Maitland
