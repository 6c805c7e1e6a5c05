import Maitland.Protocol.System

/-!
# Where the pids come from

The queue of the thread, the two nodes in Xenstore and the ring, each by itself: on none of
them does a pid appear that was not put in.
-/

namespace Maitland

open Decimal

-- ════════════════════════════════════════════════════════════════════════
-- The queue of the thread
-- ════════════════════════════════════════════════════════════════════════

def CasePc.pids : CasePc → List (BitVec 32)
  | .lock pid | .append pid => [pid]
  | .idle | .unlock | .up => []

def ThreadPc.pids : ThreadPc → List (BitVec 32)
  | .unlock pid | .halt pid | .report pid | .resume pid => [pid]
  | .down | .lock | .take | .bailed => []

/-- The property holds of all pids that are on their way through the queue. -/
structure ReportQueue.All (P : BitVec 32 → Prop) (s : ReportQueue) : Prop where
  queue : ∀ pid ∈ s.queue, P pid
  handlers : ∀ pc ∈ s.handlers, ∀ pid ∈ pc.pids, P pid
  thread : ∀ pid ∈ s.thread.pids, P pid

namespace ReportQueue.All

variable {P Q : BitVec 32 → Prop} {s t : ReportQueue}

theorem start (P : BitVec 32 → Prop) (n : ℕ) : (reportQueueStart n).All P where
  queue := by simp [reportQueueStart]
  handlers pc hpc := by
    obtain rfl := List.eq_of_mem_replicate hpc
    simp [CasePc.pids]
  thread := by simp [reportQueueStart, ThreadPc.pids]

theorem imp (h : s.All P) (himp : ∀ pid, P pid → Q pid) : s.All Q where
  queue pid hpid := himp pid (h.queue pid hpid)
  handlers pc hpc pid hpid := himp pid (h.handlers pc hpc pid hpid)
  thread pid hpid := himp pid (h.thread pid hpid)

/-- A run of the case moves on, with no other pid than before. -/
theorem move (h : s.All P) (i : ℕ) {pc : CasePc} (hpc : ∀ pid ∈ pc.pids, P pid) :
    ∀ pc' ∈ s.handlers.set i pc, ∀ pid ∈ pc'.pids, P pid :=
  Lts.forall_mem_set h.handlers hpc i

theorem enter (h : s.All P) {i : ℕ} {pid : BitVec 32} (hpid : P pid)
    (ht : reportQueueStep s (.enter i pid) = some t) : t.All P := by
  rw [reportQueueStep] at ht
  split at ht
  · cases ht
    exact ⟨h.queue, h.move i (by simpa [CasePc.pids] using hpid), h.thread⟩
  · cases ht

theorem handler (h : s.All P) {i : ℕ} (ht : reportQueueStep s (.handler i) = some t) :
    t.All P := by
  obtain ⟨pc, hi, ht⟩ := Option.bind_eq_some_iff.mp ht
  have hpc := h.handlers pc (List.mem_of_getElem? hi)
  cases pc with
  | idle => cases ht
  | lock pid =>
    rw [caseStep] at ht
    split at ht
    · cases ht
      exact ⟨h.queue, h.move i hpc, h.thread⟩
    · cases ht
  | append pid =>
    cases ht
    refine ⟨?_, h.move i (by simp [CasePc.pids]), h.thread⟩
    intro p hp
    rcases List.mem_append.mp hp with hp | hp
    · exact h.queue p hp
    · exact hpc p hp
  | unlock =>
    cases ht
    exact ⟨h.queue, h.move i (by simp [CasePc.pids]), h.thread⟩
  | up =>
    cases ht
    exact ⟨h.queue, h.move i (by simp [CasePc.pids]), h.thread⟩

theorem threadStep (h : s.All P) (ht : reportQueueStep s .thread = some t) : t.All P := by
  have hthread := h.thread
  rw [reportQueueStep] at ht
  cases hpc : s.thread with
  | down =>
    rw [hpc, Maitland.threadStep] at ht
    split at ht
    · cases ht
      exact ⟨h.queue, h.handlers, by simp [ThreadPc.pids]⟩
    · cases ht
  | lock =>
    rw [hpc, Maitland.threadStep] at ht
    split at ht
    · cases ht
      exact ⟨h.queue, h.handlers, by simp [ThreadPc.pids]⟩
    · cases ht
  | take =>
    rw [hpc, Maitland.threadStep] at ht
    have hqueue := h.queue
    split at ht
    · cases ht
      exact ⟨h.queue, h.handlers, by simp [ThreadPc.pids]⟩
    · next pid rest hq =>
      cases ht
      rw [hq, List.forall_mem_cons] at hqueue
      exact ⟨hqueue.2, h.handlers, by simpa [ThreadPc.pids] using hqueue.1⟩
  | unlock pid | halt pid | report pid =>
    rw [hpc] at ht hthread
    cases ht
    exact ⟨h.queue, h.handlers, hthread⟩
  | resume pid =>
    rw [hpc] at ht
    cases ht
    exact ⟨h.queue, h.handlers, by simp [ThreadPc.pids]⟩
  | bailed =>
    rw [hpc] at ht
    cases ht

end ReportQueue.All

-- ════════════════════════════════════════════════════════════════════════
-- The report node
-- ════════════════════════════════════════════════════════════════════════

/-- Every pid in or on its way to or from the node is that of a call. -/
structure HandoverState.Traced (s : HandoverState) : Prop where
  queue : ∀ domid pid, ReportTxn.announce domid pid ∈ s.queue →
    ∃ rep ∈ s.calls, pid = print rep.processId.toNat
  node : ∀ pid, s.node.pid = some pid → ∃ rep ∈ s.calls, pid = print rep.processId.toNat
  pc : ∀ r, s.pc = .nuke r ∨ s.pc = .send r → ∃ rep ∈ s.calls, r.pid = rep.processId.toNat

namespace HandoverState.Traced

variable {s t : HandoverState}

theorem start : handoverStart.Traced where
  queue := by simp [handoverStart]
  node := by simp [handoverStart, ReportNode.empty]
  pc := by simp [handoverStart]

theorem announce_mem_malpageXsReport {rep : GuestReport} {domid pid : Text}
    (h : ReportTxn.announce domid pid ∈ malpageXsReport rep) :
    pid = print rep.processId.toNat := by
  simp only [malpageXsReport, List.cons_append, List.mem_cons, List.mem_append, List.mem_map,
    reduceCtorEq, and_false, exists_false, false_or, ReportTxn.announce.injEq, List.not_mem_nil,
    or_false] at h
  exact h.2

theorem call (h : s.Traced) {rep : GuestReport} (ht : handoverStep s (.call rep) = some t) :
    t.Traced ∧ t.calls = s.calls ++ [rep] := by
  rw [handoverStep] at ht
  split at ht
  · cases ht
    refine ⟨⟨?_, ?_, ?_⟩, rfl⟩
    · intro domid pid hmem
      exact ⟨rep, by simp, announce_mem_malpageXsReport hmem⟩
    · intro pid hpid
      obtain ⟨call, hmem, heq⟩ := h.node pid hpid
      exact ⟨call, List.mem_append_left _ hmem, heq⟩
    · intro r hr
      obtain ⟨call, hmem, heq⟩ := h.pc r hr
      exact ⟨call, List.mem_append_left _ hmem, heq⟩
  · cases ht

theorem txn (h : s.Traced) {commit : Bool} (ht : handoverStep s (.txn commit) = some t) :
    t.Traced ∧ t.calls = s.calls := by
  rw [handoverStep] at ht
  split at ht
  · cases ht
  · next x queue hqueue =>
    have hx := h.queue
    rw [hqueue] at hx
    have hrest domid pid (hmem : ReportTxn.announce domid pid ∈ queue) :=
      hx domid pid (List.mem_cons_of_mem _ hmem)
    split at ht
    · cases ht
      refine ⟨⟨hrest, ?_, h.pc⟩, rfl⟩
      intro pid hpid
      cases x with
      | mkdir => exact h.node pid hpid
      | gref key value => exact h.node pid hpid
      | announce domid pid' =>
        obtain rfl := Option.some.inj hpid
        exact hx domid _ (by simp)
    · cases ht
      exact ⟨⟨hrest, h.node, h.pc⟩, rfl⟩

theorem event (h : s.Traced) (ht : handoverStep s .event = some t) :
    t.Traced ∧ t.calls = s.calls := by
  rw [handoverStep] at ht
  split at ht
  · cases ht
    refine ⟨⟨h.queue, h.node, ?_⟩, rfl⟩
    intro r hr
    split at hr <;> simp at hr
  · cases ht

theorem list (h : s.Traced) {dirs : List Text} (ht : handoverStep s (.list dirs) = some t) :
    t.Traced ∧ t.calls = s.calls := by
  rw [handoverStep] at ht
  split at ht
  · split at ht
    · split at ht
      · cases ht
        exact ⟨⟨h.queue, h.node, by simp⟩, rfl⟩
      · cases ht
    · cases ht
      exact ⟨⟨h.queue, h.node, by simp⟩, rfl⟩
  · cases ht

/-- The pid that is read is the one in the node. -/
theorem read (h : s.Traced) (ht : handoverStep s .read = some t) :
    t.Traced ∧ t.calls = s.calls := by
  rw [handoverStep] at ht
  split at ht
  · next dirs hpc =>
    split at ht
    · next r hr =>
      cases ht
      refine ⟨⟨h.queue, h.node, ?_⟩, rfl⟩
      rintro r' (hr' | hr') <;> cases hr'
      simp only [readReport, Option.bind_eq_bind, Option.bind_eq_some_iff, Option.some.injEq] at hr
      obtain ⟨_, _, _, _, pid, ⟨text, htext, hint⟩, rfl⟩ := hr
      obtain ⟨rep, hmem, rfl⟩ := h.node text htext
      rw [int_print, Option.some.injEq] at hint
      exact ⟨rep, hmem, hint.symm⟩
    · cases ht
      exact ⟨⟨h.queue, h.node, by simp⟩, rfl⟩
  · cases ht

theorem nuke (h : s.Traced) {commit : Bool} (ht : handoverStep s (.nuke commit) = some t) :
    t.Traced ∧ t.calls = s.calls := by
  rw [handoverStep] at ht
  split at ht
  · next r hpc =>
    have hr := h.pc r (.inl hpc)
    have hsend (r' : Reading) (hr' : ReportPc.send r = .nuke r' ∨ ReportPc.send r = .send r') :
        ∃ rep ∈ s.calls, r'.pid = rep.processId.toNat := by
      rcases hr' with hr' | hr' <;> cases hr'
      exact hr
    split at ht
    · cases ht
      exact ⟨⟨h.queue, by simp [ReportNode.empty], hsend⟩, rfl⟩
    · cases ht
      exact ⟨⟨h.queue, h.node, hsend⟩, rfl⟩
  · cases ht

theorem send (h : s.Traced) (ht : handoverStep s .send = some t) :
    t.Traced ∧ t.calls = s.calls := by
  rw [handoverStep] at ht
  split at ht
  · cases ht
    exact ⟨⟨h.queue, h.node, by simp⟩, rfl⟩
  · cases ht

/-- What is packed for the driver has the pid of a call. -/
theorem packed (h : s.Traced) {r : Reading} (hpc : s.pc = .send r) {rep : ProcessReport}
    (hrep : packReport r = some rep) : ∃ call ∈ s.calls, call.processId = rep.processId := by
  obtain ⟨call, hmem, hpid⟩ := h.pc r (.inr hpc)
  simp only [packReport, Option.bind_eq_bind, Option.bind_eq_some_iff, Option.some.injEq] at hrep
  obtain ⟨_, _, _, _, pid, hpack, _, _, _, _, rfl⟩ := hrep
  rw [hpid, pack_toNat, Option.some.injEq] at hpack
  exact ⟨call, hmem, hpack⟩

end HandoverState.Traced

-- ════════════════════════════════════════════════════════════════════════
-- The watch node
-- ════════════════════════════════════════════════════════════════════════

/-- Every pid in the node, on its way from it or marked in a row was asked for. -/
structure WatchState.Traced (s : WatchState) : Prop where
  node : ∀ n pid, s.node = some n → n.pid = some pid → ∃ p ∈ s.requested, pid = print p.toNat
  pc : ∀ domid pid, s.pc = .remove domid pid ∨ s.pc = .send domid pid →
    ∃ p ∈ s.requested, pid = p.toNat
  marks : ∀ e row, s.domList e = some row → ∀ p : BitVec 32, row p.toNat ≠ 0 → p ∈ s.requested

namespace WatchState.Traced

variable {domid : BitVec 16} {s t : WatchState}

theorem watch (h : s.Traced) {pid : BitVec 32} (ht : watchStep domid s (.watch pid) = some t) :
    t.Traced ∧ s.requested ⊆ t.requested := by
  have hsub : s.requested ⊆ s.requested ++ [pid] := List.subset_append_left _ _
  have hpc domid' pid' (hpc : s.pc = .remove domid' pid' ∨ s.pc = .send domid' pid') :
      ∃ p ∈ s.requested ++ [pid], pid' = p.toNat := by
    obtain ⟨p, hp, heq⟩ := h.pc domid' pid' hpc
    exact ⟨p, hsub hp, heq⟩
  have hmarks e row (hrow : s.domList e = some row) (p : BitVec 32) (hp : row p.toNat ≠ 0) :=
    hsub (h.marks e row hrow p hp)
  rw [watchStep] at ht
  split at ht
  · split at ht
    · cases ht
      refine ⟨⟨?_, hpc, hmarks⟩, hsub⟩
      rintro n text hn htext
      cases hn
      cases htext
      exact ⟨pid, by simp, rfl⟩
    · next hnode =>
      cases ht
      refine ⟨⟨?_, hpc, hmarks⟩, hsub⟩
      intro n text hn
      rw [hnode] at hn
      cases hn
  · cases ht

theorem event (h : s.Traced) (ht : watchStep domid s .event = some t) :
    t.Traced ∧ s.requested ⊆ t.requested := by
  rw [watchStep] at ht
  split at ht
  · cases ht
    refine ⟨⟨h.node, ?_, h.marks⟩, List.Subset.refl _⟩
    intro domid' pid hpc
    split at hpc <;> simp at hpc
  · cases ht

theorem read (h : s.Traced) (ht : watchStep domid s .read = some t) :
    t.Traced ∧ s.requested ⊆ t.requested := by
  rw [watchStep] at ht
  split at ht
  · split at ht
    · next domid' pid hread =>
      cases ht
      refine ⟨⟨h.node, ?_, h.marks⟩, List.Subset.refl _⟩
      rintro _ _ (hpc | hpc) <;> cases hpc
      simp only [readWatch, Option.bind_eq_bind, Option.bind_eq_some_iff, Option.some.injEq,
        Prod.mk.injEq] at hread
      obtain ⟨_, _, pid, ⟨text, ⟨n, hn, htext⟩, hint⟩, _, rfl⟩ := hread
      obtain ⟨p, hp, rfl⟩ := h.node n text hn htext
      rw [int_print, Option.some.injEq] at hint
      exact ⟨p, hp, hint.symm⟩
    · cases ht
      exact ⟨⟨h.node, by simp, h.marks⟩, List.Subset.refl _⟩
  · cases ht

theorem remove (h : s.Traced) (ht : watchStep domid s .remove = some t) :
    t.Traced ∧ s.requested ⊆ t.requested := by
  rw [watchStep] at ht
  split at ht
  · next domid' pid hpc =>
    cases ht
    refine ⟨⟨by simp, ?_, h.marks⟩, List.Subset.refl _⟩
    rintro _ _ (hpc' | hpc') <;> cases hpc'
    exact h.pc domid' pid (.inl hpc)
  · cases ht

/-- The mark that is set has the pid that was read. -/
theorem send (h : s.Traced) (ht : watchStep domid s .send = some t) :
    t.Traced ∧ s.requested ⊆ t.requested := by
  rw [watchStep] at ht
  split at ht
  · next domid' pid hpc =>
    split at ht
    · next rep hrep =>
      obtain ⟨r, hwatch, rfl⟩ := Option.map_eq_some_iff.mp ht
      refine ⟨⟨h.node, by simp, ?_⟩, List.Subset.refl _⟩
      intro e row hrow p hp
      simp only [monitorWatch_row hwatch] at hrow
      split at hrow
      · obtain ⟨row', hrow', rfl⟩ := Option.map_eq_some_iff.mp hrow
        by_cases hpid : p = rep.processId
        · obtain ⟨q, hq, rfl⟩ := h.pc domid' pid (.inr hpc)
          simp only [packWatch, pack_toNat, Option.bind_eq_bind, Option.bind_some,
            Option.bind_eq_some_iff, Option.some.injEq] at hrep
          obtain ⟨_, _, rfl⟩ := hrep
          rw [hpid]
          exact hq
        · refine h.marks e row' hrow' p ?_
          rwa [Function.update_of_ne fun he => hpid (BitVec.eq_of_toNat_eq he)] at hp
      · exact h.marks e row hrow p hp
    · cases ht
      exact ⟨⟨h.node, by simp, h.marks⟩, List.Subset.refl _⟩
  · cases ht

theorem step (h : s.Traced) {a : WatchAct} (ht : watchStep domid s a = some t) :
    t.Traced ∧ s.requested ⊆ t.requested := by
  cases a with
  | watch pid => exact h.watch ht
  | event => exact h.event ht
  | read => exact h.read ht
  | remove => exact h.remove ht
  | send => exact h.send ht

end WatchState.Traced

-- ════════════════════════════════════════════════════════════════════════
-- The ring
-- ════════════════════════════════════════════════════════════════════════

/-- The property holds of all messages that either end may yet read: of the slots of the `n`
requests and of the `p` responses so far.  The guest's handler goes through responses. -/
structure RingTraced (z : Ring.Size) (P : Message → Prop) (n p : ℕ) (sring : Ring.Shared Message)
    (fring : Ring.Front) (bring : Ring.Back) (run : Option HandlerRun) : Prop where
  reqProdPvt : fring.reqProdPvt = BitVec.ofNat 32 n
  reqProd : sring.reqProd = BitVec.ofNat 32 n
  reqCons : ∃ c ≤ n, bring.reqCons = BitVec.ofNat 32 c
  requests : Ring.Filled z sring.ring n P
  rspProdPvt : bring.rspProdPvt = BitVec.ofNat 32 p
  rspProd : sring.rspProd = BitVec.ofNat 32 p
  rspCons : ∃ c ≤ p, fring.rspCons = BitVec.ofNat 32 c
  responses : Ring.Filled z sring.ring p P
  handler : ∀ r ∈ run, ∃ i j, r.rc = BitVec.ofNat 32 i ∧ r.rp = BitVec.ofNat 32 j ∧ i ≤ j ∧ j ≤ p

/-- The same between two rounds of `monitor_irq_handle`. -/
structure IrqFrame.Traced (z : Ring.Size) (P : Message → Prop) (n p : ℕ) (f : IrqFrame) :
    Prop where
  rc : ∃ c ≤ n, f.rc = BitVec.ofNat 32 c
  rp : f.rp = BitVec.ofNat 32 n
  reqCons : f.bring.reqCons = f.rc
  reqProd : f.sring.reqProd = BitVec.ofNat 32 n
  requests : Ring.Filled z f.sring.ring n P
  rspProdPvt : f.bring.rspProdPvt = BitVec.ofNat 32 p
  rspProd : f.sring.rspProd = BitVec.ofNat 32 p
  responses : Ring.Filled z f.sring.ring p P

section Ring

variable {z : Ring.Size} {P Q : Message → Prop} {n p : ℕ} {l : DomList} {rip : BitVec 32}

/-- A round answers a message with the property by one with it. -/
theorem IrqFrame.Traced.iterate {f : IrqFrame} (h : f.Traced z P n p) (hne : f.rc ≠ f.rp)
    (hans : ∀ req resp, P req → P (monitorAnswer l rip req resp)) :
    (irqIterate z l rip f).Traced z P n (p + 1) := by
  obtain ⟨c, hc, hrc⟩ := h.rc
  have hlt : c < n := by
    refine Nat.lt_of_le_of_ne hc ?_
    rintro rfl
    exact hne (hrc.trans h.rp.symm)
  have hreq : P (f.sring.get z f.rc) := by
    rw [Ring.Shared.get, hrc, Ring.slot_ofNat]
    exact h.requests c hlt
  have hresp := hans _ f.resp hreq
  constructor
  · exact ⟨c + 1, hlt, by simp only [irqIterate, hrc, Ring.ofNat_succ]⟩
  · exact h.rp
  · rfl
  · exact h.reqProd
  · exact h.requests.update hresp _
  · simp only [irqIterate, h.rspProdPvt, Ring.ofNat_succ]
  · simp only [irqIterate, Ring.pushResponses, h.rspProdPvt, Ring.ofNat_succ]
  · simp only [irqIterate, Ring.pushResponses, Ring.Shared.put, h.rspProdPvt, Ring.slot_ofNat]
    exact h.responses.push hresp

theorem IrqFrame.Traced.loop (hans : ∀ req resp, P req → P (monitorAnswer l rip req resp)) (k : ℕ)
    {f : IrqFrame} (h : f.Traced z P n p) :
    ∃ p', p ≤ p' ∧ (irqLoop z l rip k f).Traced z P n p' := by
  induction k generalizing f p with
  | zero => exact ⟨p, Nat.le_refl _, h⟩
  | succ k ih =>
    rw [irqLoop]
    split
    · exact ⟨p, Nat.le_refl _, h⟩
    · next hne =>
      split
      · exact ⟨p, Nat.le_refl _, h⟩
      · obtain ⟨p', hle, h'⟩ := ih (h.iterate hne hans)
        exact ⟨p', Nat.le_of_succ_le hle, h'⟩

namespace RingTraced

variable {sring : Ring.Shared Message} {fring : Ring.Front} {bring : Ring.Back}
  {run : Option HandlerRun}

theorem imp (h : RingTraced z P n p sring fring bring run) (himp : ∀ m, P m → Q m) :
    RingTraced z Q n p sring fring bring run :=
  { h with requests := h.requests.imp himp, responses := h.responses.imp himp }

/-- A hook pushes a request with the property. -/
theorem push (h : RingTraced z P n p sring fring bring run) (domid : BitVec 16)
    {fill : Message → Message} (hfill : P (fill (sring.get z fring.reqProdPvt))) :
    RingTraced z P (n + 1) p (FrontEnd.push z ⟨domid, sring, fring⟩ fill).1.sring
      (FrontEnd.push z ⟨domid, sring, fring⟩ fill).1.fring bring run := by
  obtain ⟨c, hc, hcons⟩ := h.reqCons
  rw [h.reqProdPvt] at hfill
  simp only [FrontEnd.push, Ring.pushRequests, Ring.Shared.put, h.reqProdPvt, Ring.slot_ofNat,
    Ring.ofNat_succ]
  exact { h with
    reqProdPvt := rfl
    reqProd := rfl
    reqCons := ⟨c, Nat.le_succ_of_le hc, hcons⟩
    requests := h.requests.push hfill
    responses := h.responses.update hfill _ }

theorem irq (h : RingTraced z P n p sring fring bring run)
    (hans : ∀ req resp, P req → P (monitorAnswer l rip req resp)) (garbage : Message) :
    ∃ p', RingTraced z P n p' (monitorIrqHandle z l rip sring bring garbage).sring fring
      (monitorIrqHandle z l rip sring bring garbage).bring run := by
  have henter : (irqEnter sring bring garbage).Traced z P n p :=
    ⟨h.reqCons, h.reqProd, rfl, h.reqProd, h.requests, h.rspProdPvt, h.rspProd, h.responses⟩
  obtain ⟨p', hle, hf⟩ := henter.loop hans (sring.reqProd - bring.reqCons).toNat
  obtain ⟨c, hc, hrc⟩ := hf.rc
  obtain ⟨q, hq, hcons⟩ := h.rspCons
  refine ⟨p', ?_⟩
  exact { h with
    reqProd := hf.reqProd
    reqCons := ⟨c, hc, hf.reqCons.trans hrc⟩
    requests := hf.requests
    rspProdPvt := hf.rspProdPvt
    rspProd := hf.rspProd
    rspCons := ⟨q, hq.trans hle, hcons⟩
    responses := hf.responses
    handler := fun r hr => by
      obtain ⟨i, j, hi, hj, hij, hjp⟩ := h.handler r hr
      exact ⟨i, j, hi, hj, hij, hjp.trans hle⟩ }

/-- A verdict with the property is pushed. -/
theorem verdict (h : RingTraced z P n p sring fring bring run) {resp : Message} (hresp : P resp) :
    RingTraced z P n (p + 1)
      { sring.put z bring.rspProdPvt resp with rspProd := bring.rspProdPvt + 1 } fring
      { bring with rspProdPvt := bring.rspProdPvt + 1 } run := by
  obtain ⟨q, hq, hcons⟩ := h.rspCons
  simp only [Ring.Shared.put, h.rspProdPvt, Ring.slot_ofNat, Ring.ofNat_succ]
  exact { h with
    requests := h.requests.update hresp _
    rspProdPvt := rfl
    rspProd := rfl
    rspCons := ⟨q, Nat.le_succ_of_le hq, hcons⟩
    responses := h.responses.push hresp
    handler := fun r hr => by
      obtain ⟨i, j, hi, hj, hij, hjp⟩ := h.handler r hr
      exact ⟨i, j, hi, hj, hij, Nat.le_succ_of_le hjp⟩ }

/-- A pass of the handler begins: it will not read past the responses there are. -/
theorem again (h : RingTraced z P n p sring fring bring run) (g : ResponseState)
    (hsring : g.sring = sring) (hfring : g.fring = fring) (r : HandlerRun) :
    RingTraced z P n p (g.again r).sring (g.again r).fring bring (g.again r).run := by
  subst hsring hfring
  obtain ⟨q, hq, hcons⟩ := h.rspCons
  refine { h with handler := ?_ }
  rintro r' hr'
  cases hr'
  exact ⟨q, p, hcons, h.rspProd, hq, Nat.le_refl _⟩

/-- The end of a pass. -/
theorem finish {g : ResponseState} (h : RingTraced z P n p g.sring g.fring bring g.run)
    {r : HandlerRun} (hr : g.run = some r) :
    RingTraced z P n p (g.finish r).sring (g.finish r).fring bring (g.finish r).run := by
  obtain ⟨i, j, hi, hj, hij, hjp⟩ := h.handler r hr
  have hcons : ∃ c ≤ p, r.rc = BitVec.ofNat 32 c := ⟨i, hij.trans hjp, hi⟩
  have hnone : ∀ r' ∈ (none : Option HandlerRun), ∃ i j, r'.rc = BitVec.ofNat 32 i ∧
      r'.rp = BitVec.ofNat 32 j ∧ i ≤ j ∧ j ≤ p := by simp
  have hstop : RingTraced z P n p g.sring { g.fring with rspCons := r.rc } bring g.run :=
    { h with rspCons := hcons }
  unfold ResponseState.finish
  split
  · exact { h with handler := hnone }
  · dsimp only
    split
    · split
      · exact hstop.again { g with fring := { g.fring with rspCons := r.rc } } rfl rfl r
      · refine { hstop with handler := ?_ }
        rintro r' hr'
        cases hr'
        exact ⟨i, j, hi, hj, hij, hjp⟩
    · exact { hstop with handler := hnone }

end RingTraced

theorem ResponseState.finish_effects (s : ResponseState) (r : HandlerRun) :
    (s.finish r).effects = s.effects := by
  unfold ResponseState.finish ResponseState.again
  dsimp only
  split_ifs <;> rfl

/-- The steps of the handler itself. -/
def ResponseAct.OfHandler : ResponseAct → Prop
  | .publish _ | .hook _ _ => False
  | .irq _ | .iterate _ | .finish | .recheck => True

/-- The handler has its effects from responses with the property. -/
theorem RingTraced.handlerStep {s t : ResponseState} {bring : Ring.Back}
    (h : RingTraced z P n p s.sring s.fring bring s.run) {a : ResponseAct} (ha : a.OfHandler)
    (ht : responseStep z s a = some t) :
    RingTraced z P n p t.sring t.fring bring t.run ∧
      (t.effects = s.effects ∨ ∃ tasks resp skip, P resp ∧
        t.effects = s.effects ++ (malpageSwitch tasks resp skip).1) := by
  cases responseStep_taken ht with
  | publish => cases ha
  | hook => cases ha
  | irq => exact ⟨h.again s rfl rfl _, .inl rfl⟩
  | @iterate tasks r hr hpc hne =>
    obtain ⟨i, j, hi, hj, hij, hjp⟩ := h.handler r hr
    have hlt : i < j := by
      refine Nat.lt_of_le_of_ne hij ?_
      rintro rfl
      exact hne (hi.trans hj.symm)
    have hresp : P (s.sring.get z r.rc) := by
      rw [Ring.Shared.get, hi, Ring.slot_ofNat]
      exact h.responses i (Nat.lt_of_lt_of_le hlt hjp)
    refine ⟨{ h with handler := ?_ }, .inr ⟨tasks, _, r.skip, hresp, rfl⟩⟩
    rintro r' hr'
    cases hr'
    exact ⟨i + 1, j, by rw [hi, Ring.ofNat_succ], hj, hlt, hjp⟩
  | @finish r hr =>
    exact ⟨h.finish hr, .inl (s.finish_effects r)⟩
  | goOn => exact ⟨h.again s rfl rfl _, .inl rfl⟩
  | leave => exact ⟨{ h with handler := by simp }, .inl rfl⟩

/-- The one share info of the monitor works on the guest's ring, with the property. -/
def MonitorState.ServesRing (z : Ring.Size) (ref : Ref) (P : Message → Prop) (mon : MonitorState)
    (fring : Ring.Front) (run : Option HandlerRun) : Prop :=
  ∃ info a n p, mon.infos = [info] ∧ mon.shareInfo = some 0 ∧ info.sring = some a ∧
    a < mon.areas ∧ mon.mapped a = some ref ∧
      RingTraced z P n p (mon.page ref) fring info.bring run

namespace MonitorState.ServesRing

variable {ref : Ref} {mon mon' : MonitorState} {fring : Ring.Front} {run : Option HandlerRun}

theorem imp (h : mon.ServesRing z ref P fring run) (himp : ∀ m, P m → Q m) :
    mon.ServesRing z ref Q fring run := by
  obtain ⟨info, a, n, p, hinfos, hshare, hsring, ha, hmapped, hring⟩ := h
  exact ⟨info, a, n, p, hinfos, hshare, hsring, ha, hmapped, hring.imp himp⟩

/-- The guest writes to its page. -/
theorem page (h : mon.ServesRing z ref P fring run) {sring : Ring.Shared Message}
    {fring' : Ring.Front} {run' : Option HandlerRun}
    (hpage : ∀ n p bring, RingTraced z P n p (mon.page ref) fring bring run →
      ∃ n' p', RingTraced z P n' p' sring fring' bring run') :
    ({ mon with page := Function.update mon.page ref sring } : MonitorState).ServesRing z ref P
      fring' run' := by
  obtain ⟨info, a, n, p, hinfos, hshare, hsring, ha, hmapped, hring⟩ := h
  obtain ⟨n', p', hring'⟩ := hpage n p info.bring hring
  refine ⟨info, a, n', p', hinfos, hshare, hsring, ha, hmapped, ?_⟩
  simp only [Function.update_self]
  exact hring'

theorem irq (h : mon.ServesRing z ref P fring run)
    (hans : ∀ req resp, P req → P (monitorAnswer mon.domList mon.reportInProgress req resp))
    {garbage : Message} {r : MonitorState × List Exchange}
    (ht : monitorIrq z mon 0 garbage = some r) :
    r.1.ServesRing z ref P fring run ∧ r.1.domList = mon.domList ∧
      r.1.currProc = mon.currProc := by
  obtain ⟨info, a, n, p, hinfos, hshare, hsring, ha, hmapped, hring⟩ := h
  have hget : mon.infos[0]? = some info := by rw [hinfos]; rfl
  obtain ⟨p', hring'⟩ := hring.irq hans garbage
  simp only [monitorIrq_eq hget (ringOf_eq hsring hmapped), hinfos, List.set_cons_zero,
    Option.some.injEq] at ht
  subst ht
  refine ⟨⟨_, a, n, p', rfl, hshare, hsring, ha, hmapped, ?_⟩, rfl, rfl⟩
  simp only [Function.update_self]
  exact hring'

theorem verdict (h : mon.ServesRing z ref P fring run) {op : BitVec 32} {garbage : Message}
    (hresp : mon.currProc ≠ 0 → P { garbage with operation := op, processId := mon.currProc })
    {r : MonitorState × Int} (ht : monitorVerdict z mon op garbage = some r) :
    r.1.ServesRing z ref P fring run := by
  by_cases hc : mon.currProc = 0
  · rw [monitorVerdict_idle hc, Option.some.injEq] at ht
    subst ht
    exact h
  · obtain ⟨info, a, n, p, hinfos, hshare, hsring, ha, hmapped, hring⟩ := h
    have hget : mon.infos[0]? = some info := by rw [hinfos]; rfl
    simp only [monitorVerdict_eq hc hshare hget (ringOf_eq hsring hmapped), push, hinfos,
      List.set_cons_zero, Option.some.injEq] at ht
    subst ht
    refine ⟨_, a, n, p + 1, rfl, hshare, hsring, ha, hmapped, ?_⟩
    simp only [Function.update_self]
    exact hring.verdict (hresp hc)

/-- Mapping further pages does not touch the ring. -/
theorem mapsOnly (h : mon.ServesRing z ref P fring run) (hm : mon.MapsOnly mon') :
    mon'.ServesRing z ref P fring run := by
  obtain ⟨info, a, n, p, hinfos, hshare, hsring, ha, hmapped, hring⟩ := h
  refine ⟨info, a, n, p, hm.infos.trans hinfos, hm.shareInfo.trans hshare, hsring,
    Nat.lt_of_lt_of_le ha hm.areas, (hm.mapped a ha).trans hmapped, ?_⟩
  rw [hm.page]
  exact hring

end MonitorState.ServesRing

end Ring

end Maitland
