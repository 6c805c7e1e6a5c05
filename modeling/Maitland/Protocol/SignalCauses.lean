import Maitland.Malpage.Process
import Maitland.Protocol.Tracing

/-!
# What is behind a signal

A pid comes a long way from the ioctl that asks for it to be watched to the signal that ends
it: through Xenstore to the row of the monitor, with a request of the hooks through the ring,
with the response into the queue of the thread, with the report through Xenstore again, and
with the verdict back through the ring.  The whole way it was put in at every one of these
places before it could come out.
-/

namespace Maitland

-- ════════════════════════════════════════════════════════════════════════
-- What the messages stand for
-- ════════════════════════════════════════════════════════════════════════

/-- The process ran on a page without the right to. -/
def Faulted (pushed : List Message) (pid : BitVec 32) : Prop :=
  ∃ req ∈ pushed, req.operation = Op.nxviolation ∧ req.processId = pid

/-- What is behind a message on the ring of guest `domid`. -/
structure Message.Backed (requested : List (BitVec 32)) (pushed : List Message)
    (condemned : List (BitVec 32)) (domid : BitVec 16) (m : Message) : Prop where
  nxviolation : m.operation = Op.nxviolation →
    m.domid = domid.setWidth 32 ∧ Faulted pushed m.processId
  report : m.operation = Op.report → m.processId ∈ requested ∧ Faulted pushed m.processId
  kill : m.operation = Op.kill → m.processId ∈ condemned

/-- Somebody asked for the process to be watched, and it did what the watch is for. -/
def System.Caused (s : System) (pid : BitVec 32) : Prop :=
  pid ∈ s.watch.requested ∧ Faulted s.pushed pid

def System.Backed (s : System) (domid : BitVec 16) (m : Message) : Prop :=
  m.Backed s.watch.requested s.pushed s.condemned domid

/-- What has happened stays so. -/
structure System.Grows (s t : System) : Prop where
  requested : s.watch.requested ⊆ t.watch.requested
  pushed : s.pushed ⊆ t.pushed
  condemned : s.condemned ⊆ t.condemned

section Messages

variable {s t : System} {domid : BitVec 16} {pid : BitVec 32}

theorem System.Grows.caused (h : s.Grows t) (hpid : s.Caused pid) : t.Caused pid := by
  obtain ⟨hreq, req, hmem, hop⟩ := hpid
  exact ⟨h.requested hreq, req, h.pushed hmem, hop⟩

theorem System.Grows.backed (h : s.Grows t) {m : Message} (hm : s.Backed domid m) :
    t.Backed domid m := by
  constructor
  · intro ho
    obtain ⟨hdomid, req, hmem, hop⟩ := hm.nxviolation ho
    exact ⟨hdomid, req, h.pushed hmem, hop⟩
  · exact fun ho => h.caused (hm.report ho)
  · exact fun ho => h.condemned (hm.kill ho)

/-- Only a fault of a watched process is answered with a report of it. -/
theorem monitorAnswer_eq_report {l : DomList} {rip : BitVec 32} {req resp : Message}
    (h : (monitorAnswer l rip req resp).operation = Op.report) :
    req.operation = Op.nxviolation ∧ Eligible l req ∧
      (monitorAnswer l rip req resp).processId = req.processId := by
  by_cases hreq : (req.operation = Op.mmuupdate ∨ req.operation = Op.nxviolation) ∧ Eligible l req
  · obtain ⟨ho | ho, he⟩ := hreq
    · have hx : Op.nx ≠ Op.report := by decide
      rw [monitorAnswer_nx ho he] at h
      exact absurd h hx
    · refine ⟨ho, he, ?_⟩
      by_cases hrip : rip = 0
      · rw [hrip, monitorAnswer_report ho he]
      · have hr : Op.nxviolation ≠ Op.report ∧ Op.nxviolation ≠ Op.mmuupdate := by decide
        simp only [monitorAnswer, ho, hr, hrip, false_and, if_false, ite_self] at h
        exact absurd h (by decide)
  · rw [monitorAnswer_nonop rip resp hreq] at h
    exact absurd h (by decide)

/-- The monitor answers what is backed by what is backed. -/
theorem System.backed_answer {l : DomList} (rip : BitVec 32)
    (hmarks : ∀ e row, l e = some row → ∀ p : BitVec 32, row p.toNat ≠ 0 → p ∈ s.watch.requested)
    {req : Message} (hreq : s.Backed domid req) (resp : Message) :
    s.Backed domid (monitorAnswer l rip req resp) := by
  constructor
  · intro ho
    rcases monitorAnswer_operation l rip req resp with h | h | h <;>
      exact absurd (h.symm.trans ho) (by decide)
  · intro ho
    obtain ⟨hop, ⟨_, row, hrow, hmark, _⟩, hpid⟩ := monitorAnswer_eq_report ho
    rw [hpid]
    exact ⟨hmarks _ row hrow _ hmark, (hreq.nxviolation hop).2⟩
  · intro ho
    rcases monitorAnswer_operation l rip req resp with h | h | h <;>
      exact absurd (h.symm.trans ho) (by decide)

/-- A hook pushes a request with its own pid in it, or nothing. -/
theorem Hook.call_fills (z : Ring.Size) (fe : FrontEnd) (h : Hook) :
    h.call z fe = (fe, none) ∨ ∃ fill, h.call z fe = fe.push z fill ∧
      ∀ m, (fill m).domid = fe.domid.setWidth 32 ∧
        ((fill m).operation = Op.mmuupdate ∨ (fill m).operation = Op.nxviolation) := by
  cases h with
  | multiMmuUpdate dirty maddr ptep pte pid =>
    simp only [Hook.call, malpageMultiMmuUpdate]
    split
    · split
      · exact .inr ⟨_, rfl, fun m => ⟨rfl, .inl rfl⟩⟩
      · exact .inl rfl
    · exact .inl rfl
  | doPageFault pid address errorCode =>
    simp only [Hook.call, malpageDoPageFault]
    split
    · exact .inr ⟨_, rfl, fun m => ⟨rfl, .inr rfl⟩⟩
    · exact .inl rfl

/-- `malpage_op_process` sends a signal to the process it was told, if to any. -/
theorem malpageOpProcess_eq_some {tasks : List (BitVec 32)} {op : BitVec 32}
    {x : Signal × BitVec 32} (h : malpageOpProcess tasks op pid = some x) :
    x.2 = pid ∧ signalOf op = some x.1 := by
  have hsignal (sig : Signal)
      (h : malpageSignalProcess sig ((tasks.find? fun task => task = pid).getD 0) = some x) :
      x.2 = pid ∧ sig = x.1 := by
    rw [malpageSignalProcess] at h
    split at h
    · next hpos =>
      cases hfind : tasks.find? fun task => task = pid with
      | none =>
        rw [hfind] at hpos
        exact absurd hpos (by decide)
      | some task =>
        rw [hfind] at h
        cases h
        exact ⟨by simpa using List.find?_some hfind, rfl⟩
    · cases h
  unfold malpageOpProcess at h
  unfold signalOf
  split_ifs at h with hk hr hh
  · obtain ⟨hpid, hsig⟩ := hsignal _ h
    exact ⟨hpid, by rw [if_pos hk, hsig]⟩
  · obtain ⟨hpid, hsig⟩ := hsignal _ h
    exact ⟨hpid, by rw [if_neg hk, if_pos hr, hsig]⟩
  · obtain ⟨hpid, hsig⟩ := hsignal _ h
    exact ⟨hpid, by rw [if_neg hk, if_neg hr, if_pos hh, hsig]⟩

/-- The handler sends no signal but SIGKILL, and that to the process of a `KILL`. -/
theorem signal_mem_malpageSwitch {tasks : List (BitVec 32)} {resp : Message} {skip : BitVec 32}
    {x : Signal × BitVec 32}
    (h : x ∈ (malpageSwitch tasks resp skip).1.filterMap Effect.sent) :
    resp.operation = Op.kill ∧ x = (.kill, resp.processId) := by
  by_cases hk : resp.operation = Op.kill
  · have hn : Op.kill ≠ Op.nonop := by decide
    simp only [malpageSwitch, hk, hn, if_false, if_true] at h
    obtain ⟨e, he, hsent⟩ := List.mem_filterMap.mp h
    obtain ⟨y, hy, rfl⟩ := List.mem_map.mp he
    obtain ⟨hpid, hsig⟩ := malpageOpProcess_eq_some (Option.mem_toList.mp hy)
    obtain rfl := Option.some.inj hsent
    exact ⟨hk, Prod.ext (Option.some.inj hsig).symm hpid⟩
  · unfold malpageSwitch at h
    split_ifs at h <;> simp [Effect.sent] at h

end Messages

-- ════════════════════════════════════════════════════════════════════════
-- The whole way
-- ════════════════════════════════════════════════════════════════════════

/-- Every signal so far went to a watched process that had faulted, and every SIGKILL to one
that the guest had reported and in whose dump something was found. -/
def System.SignalsCaused (s : System) : Prop :=
  ∀ sig pid, (sig, pid) ∈ s.signals → s.Caused pid ∧
    (sig = .kill → pid ∈ s.condemned ∧ ∃ rep ∈ s.handover.calls, rep.processId = pid)

/-- What is on its way between the parts is backed by what came before. -/
structure System.Traced (z : Ring.Size) (ref : Ref) (s : System) : Prop where
  ring : s.mon.ServesRing z ref (s.Backed ref.domid) s.fring s.run
  watch : WatchState.Traced { s.watch with domList := s.mon.domList }
  reports : s.reports.All s.Caused
  handover : s.handover.Traced
  calls : ∀ rep ∈ s.handover.calls, s.Caused rep.processId
  judged : ∀ rep ∈ s.judged, s.mon.currProc = rep.processId ∧
    ∃ call ∈ s.handover.calls, call.processId = rep.processId
  condemned : ∀ pid ∈ s.condemned, ∃ call ∈ s.handover.calls, call.processId = pid
  signals : ∀ x ∈ s.signals, s.Caused x.2 ∧ (x.1 = .kill → x.2 ∈ s.condemned)

namespace System.Traced

variable {z : Ring.Size} {ref : Ref} {s t : System}

theorem start (arg : UspaceInfo) (irq : Int) (page : Ref → Ring.Shared Message)
    (ring : ℕ → Message) : (systemStart arg irq page ring).Traced z arg.ref where
  ring := by
    refine ⟨_, 0, 0, 0, rfl, rfl, rfl, Nat.zero_lt_one, rfl, ?_⟩
    have hpage : (systemStart arg irq page ring).mon.page arg.ref = Ring.sharedRingInit ring := by
      simp only [systemStart, injectionStart, MonitorState.registered, monitorInit,
        Function.update_self]
    rw [hpage]
    exact ⟨rfl, rfl, ⟨0, Nat.le_refl _, rfl⟩, .zero _ _, rfl, rfl, ⟨0, Nat.le_refl _, rfl⟩,
      .zero _ _, by simp [systemStart]⟩
  watch := by
    refine ⟨?_, by simp [systemStart, watchStart], ?_⟩
    · rintro n pid hn hpid
      cases hn
      cases hpid
    · intro e row hrow p hp
      simp only [systemStart, injectionStart, MonitorState.registered, monitorInit] at hrow
      by_cases he : e = (arg.domid.setWidth 16).toNat
      · rw [he, Function.update_self, Option.some.injEq] at hrow
        subst hrow
        exact absurd rfl hp
      · rw [Function.update_of_ne he] at hrow
        cases hrow
  reports := ReportQueue.All.start _ 1
  handover := HandoverState.Traced.start
  calls := by simp [systemStart, handoverStart]
  judged := by simp [systemStart]
  condemned := by simp [systemStart]
  signals := by simp [systemStart]

theorem signals_grow (h : s.Traced z ref) (hg : s.Grows t) :
    ∀ x ∈ s.signals, t.Caused x.2 ∧ (x.1 = .kill → x.2 ∈ t.condemned) := by
  intro x hx
  obtain ⟨hcaused, hkill⟩ := h.signals x hx
  exact ⟨hg.caused hcaused, fun hk => hg.condemned (hkill hk)⟩

theorem hook (h : s.Traced z ref) {k : Hook} (ht : systemStep z ref s (.hook k) = some t) :
    t.Traced z ref := by
  simp only [systemStep, Option.some.injEq] at ht
  rcases k.call_fills z ⟨ref.domid, s.mon.page ref, s.fring⟩ with hc | ⟨fill, hc, hfill⟩
  · obtain rfl : s = t := by simpa [hc] using ht
    exact h
  · rw [hc] at ht
    have hg : s.Grows t := by
      subst ht
      exact ⟨List.Subset.refl _, List.subset_append_left _ _, List.Subset.refl _⟩
    -- The new request speaks for itself.
    have hreq : t.Backed ref.domid (fill ((s.mon.page ref).get z s.fring.reqProdPvt)) := by
      obtain ⟨hdomid, hop⟩ := hfill ((s.mon.page ref).get z s.fring.reqProdPvt)
      subst ht
      constructor
      · intro ho
        exact ⟨hdomid, _, List.mem_append_right _ (List.mem_singleton_self _), ho, rfl⟩
      · intro ho
        rcases hop with hop | hop <;> exact absurd (hop.symm.trans ho) (by decide)
      · intro ho
        rcases hop with hop | hop <;> exact absurd (hop.symm.trans ho) (by decide)
    subst ht
    exact {
      ring := (h.ring.imp fun m => hg.backed).page fun n p bring hring =>
        ⟨n + 1, p, hring.push ref.domid hreq⟩
      watch := h.watch
      reports := h.reports.imp fun pid => hg.caused
      handover := h.handover
      calls := fun rep hrep => hg.caused (h.calls rep hrep)
      judged := h.judged
      condemned := h.condemned
      signals := h.signals_grow hg }

theorem monitorIrq (h : s.Traced z ref) {garbage : Message}
    (ht : systemStep z ref s (.monitorIrq garbage) = some t) : t.Traced z ref := by
  simp only [systemStep] at ht
  obtain ⟨r, hr, rfl⟩ := Option.map_eq_some_iff.mp ht
  obtain ⟨hring, hdom, hcurr⟩ :=
    h.ring.irq (fun _ resp hreq => backed_answer _ h.watch.marks hreq resp) hr
  exact { h with
    ring := hring
    watch := ⟨h.watch.node, h.watch.pc, by rw [hdom]; exact h.watch.marks⟩
    judged := fun rep hrep => by rw [hcurr]; exact h.judged rep hrep }

/-- What the handler does, it does on responses that are backed. -/
theorem handled (h : s.Traced z ref) {g : ResponseState}
    (hring : ({ s.mon with page := Function.update s.mon.page ref g.sring } :
      MonitorState).ServesRing z ref (s.Backed ref.domid) g.fring g.run)
    (heffects : g.effects = [] ∨ ∃ tasks resp skip, s.Backed ref.domid resp ∧
      g.effects = (malpageSwitch tasks resp skip).1)
    (ht : s.handled ref g = some t) : t.Traced z ref := by
  have hsent : ∀ x ∈ s.signals ++ g.effects.filterMap Effect.sent,
      s.Caused x.2 ∧ (x.1 = .kill → x.2 ∈ s.condemned) := by
    intro x hx
    rcases List.mem_append.mp hx with hx | hx
    · exact h.signals x hx
    · rcases heffects with he | ⟨tasks, resp, skip, hresp, he⟩
      · rw [he] at hx
        cases hx
      · rw [he] at hx
        obtain ⟨hop, rfl⟩ := signal_mem_malpageSwitch hx
        have hcond := hresp.kill hop
        obtain ⟨call, hcall, hpid⟩ := h.condemned _ hcond
        exact ⟨hpid ▸ h.calls call hcall, fun _ => hcond⟩
  simp only [System.handled] at ht
  split at ht
  · next pid he =>
    obtain ⟨q, hq, rfl⟩ := Option.map_eq_some_iff.mp ht
    have hpid : s.Caused pid := by
      rcases heffects with he' | ⟨tasks, resp, skip, hresp, he'⟩
      · rw [he'] at he
        cases he
      · have hmem : Effect.report pid ∈ (malpageSwitch tasks resp skip).1 := by
          rw [← he', he]
          exact List.mem_singleton_self _
        obtain ⟨hop, rfl⟩ := (report_mem_malpageSwitch _ _ _ _).mp hmem
        exact hresp.report hop
    exact { h with ring := hring, reports := h.reports.enter hpid hq, signals := hsent }
  · obtain rfl := Option.some.inj ht
    exact { h with ring := hring, signals := hsent }

theorem handlerStep (h : s.Traced z ref) {a : ResponseAct} (ha : a.OfHandler)
    (ht : (responseStep z (s.responses ref) a).bind (s.handled ref) = some t) :
    t.Traced z ref := by
  obtain ⟨g, hg, ht⟩ := Option.bind_eq_some_iff.mp ht
  refine h.handled (h.ring.page fun n p bring hring => ?_) ?_ ht
  · have hring : RingTraced z (s.Backed ref.domid) n p (s.responses ref).sring
      (s.responses ref).fring bring (s.responses ref).run := hring
    exact ⟨n, p, (hring.handlerStep ha hg).1⟩
  · obtain ⟨info, _, n, p, _, _, _, _, _, hring⟩ := h.ring
    have hring : RingTraced z (s.Backed ref.domid) n p (s.responses ref).sring
      (s.responses ref).fring info.bring (s.responses ref).run := hring
    exact (hring.handlerStep ha hg).2

theorem handler (h : s.Traced z ref) {a : ResponseAct}
    (ht : systemStep z ref s (.handler a) = some t) : t.Traced z ref := by
  cases a with
  | publish resp | hook domid k => cases ht
  | irq garbage | iterate tasks | finish | recheck =>
    simp only [systemStep] at ht
    split at ht
    · exact h.handlerStep (by trivial) ht
    · cases ht

theorem reportCase (h : s.Traced z ref) (ht : systemStep z ref s .reportCase = some t) :
    t.Traced z ref := by
  simp only [systemStep] at ht
  obtain ⟨q, hq, rfl⟩ := Option.map_eq_some_iff.mp ht
  exact { h with reports := h.reports.handler hq }

/-- The thread stops and continues the process it reports. -/
theorem opProcess (h : s.Traced z ref) {op pid : BitVec 32} (hpid : s.Caused pid)
    (hop : signalOf op ≠ some .kill) (table : TaskTable) :
    (s.opProcess table op pid).Traced z ref := by
  refine { h with signals := ?_ }
  intro x hx
  rcases List.mem_append.mp hx with hx | hx
  · exact h.signals x hx
  · obtain ⟨heq, hsig⟩ := malpageOpProcess_eq_some (Option.mem_toList.mp hx)
    refine ⟨heq ▸ hpid, fun hk => ?_⟩
    rw [hk] at hsig
    exact absurd hsig hop

/-- The node moves on, with no call but those there are. -/
theorem handoverMoves (h : s.Traced z ref) {x : HandoverState}
    (hx : x.Traced ∧ x.calls = s.handover.calls) :
    ({ s with handover := x } : System).Traced z ref := by
  obtain ⟨htraced, hcalls⟩ := hx
  exact { h with
    handover := htraced
    calls := by rw [hcalls]; exact h.calls
    judged := by rw [hcalls]; exact h.judged
    condemned := by rw [hcalls]; exact h.condemned }

theorem call (h : s.Traced z ref) {pc : ThreadPc} (hpid : ∀ pid ∈ pc.pids, s.Caused pid)
    {domid : BitVec 16} {table : TaskTable} {frames : Task → List (BitVec 64)}
    {rets : List (BitVec 32)} (ht : s.call domid table frames rets pc = some t) :
    t.Traced z ref := by
  cases pc with
  | halt pid =>
    obtain rfl := Option.some.inj ht
    exact h.opProcess (hpid pid (by simp [ThreadPc.pids])) (by decide) table
  | resume pid =>
    obtain rfl := Option.some.inj ht
    exact h.opProcess (hpid pid (by simp [ThreadPc.pids])) (by decide) table
  | report pid =>
    simp only [System.call] at ht
    split at ht
    · next rep hrep =>
      obtain ⟨x, hx, rfl⟩ := Option.map_eq_some_iff.mp ht
      obtain ⟨htraced, hcalls⟩ := h.handover.call hx
      obtain ⟨task, htask, rfl⟩ := Option.map_eq_some_iff.mp hrep
      have hfound : task.pid = pid := by simpa using List.find?_some htask
      have hmem {p : BitVec 32} (hp : ∃ call ∈ s.handover.calls, call.processId = p) :
          ∃ call ∈ x.calls, call.processId = p := by
        obtain ⟨call, hcall, heq⟩ := hp
        exact ⟨call, by rw [hcalls]; exact List.mem_append_left _ hcall, heq⟩
      refine { h with handover := htraced, calls := ?_, judged := ?_, condemned := ?_ }
      · intro rep hrep
        rw [hcalls] at hrep
        rcases List.mem_append.mp hrep with hrep | hrep
        · exact h.calls rep hrep
        · obtain rfl := List.mem_singleton.mp hrep
          exact hfound ▸ hpid pid (by simp [ThreadPc.pids])
      · exact fun rep hrep => ⟨(h.judged rep hrep).1, hmem (h.judged rep hrep).2⟩
      · exact fun p hp => hmem (h.condemned p hp)
    · obtain rfl := Option.some.inj ht
      exact h
  | down | lock | take | unlock | bailed =>
    obtain rfl := Option.some.inj ht
    exact h

theorem thread (h : s.Traced z ref) {table : TaskTable} {frames : Task → List (BitVec 64)}
    {rets : List (BitVec 32)} (ht : systemStep z ref s (.thread table frames rets) = some t) :
    t.Traced z ref := by
  simp only [systemStep] at ht
  split at ht
  · obtain ⟨q, hq, ht⟩ := Option.bind_eq_some_iff.mp ht
    have hmoved : ({ s with reports := q } : System).Traced z ref :=
      { h with reports := h.reports.threadStep hq }
    exact hmoved.call h.reports.thread ht
  · cases ht

/-- The driver gets the report of a call, and keeps its pid for the verdict. -/
theorem send (h : s.Traced z ref) {granted : Ref → Bool} {r : Reading} {x : HandoverState}
    (hpc : s.handover.pc = .send r) (hx : handoverStep s.handover .send = some x)
    (ht : ({ s with handover := x } : System).send z granted r = some t) : t.Traced z ref := by
  have hmoved := h.handoverMoves (h.handover.send hx)
  simp only [System.send] at ht
  split at ht
  · next rep hrep =>
    obtain ⟨m, hm, rfl⟩ := Option.map_eq_some_iff.mp ht
    obtain rfl := Option.some.inj hm
    obtain ⟨call, hcall, hpid⟩ := h.handover.packed hpc hrep
    have hmaps := monitorReport_mapsOnly granted s.mon (monitorPopulateReport rep)
    refine { hmoved with
      ring := h.ring.mapsOnly hmaps
      watch := ⟨h.watch.node, h.watch.pc, by rw [hmaps.domList]; exact h.watch.marks⟩
      judged := ?_ }
    rintro _ ⟨⟩
    exact ⟨rfl, call, by rw [(h.handover.send hx).2]; exact hcall, hpid⟩
  · obtain rfl := Option.some.inj ht
    exact hmoved

theorem handoverStep (h : s.Traced z ref) {a : HandoverAct} {granted : Ref → Bool}
    (ht : systemStep z ref s (.handover a granted) = some t) : t.Traced z ref := by
  cases a with
  | call rep => cases ht
  | txn commit =>
    obtain ⟨x, hx, rfl⟩ := Option.map_eq_some_iff.mp ht
    exact h.handoverMoves (h.handover.txn hx)
  | event =>
    simp only [systemStep] at ht
    split at ht
    · obtain ⟨x, hx, rfl⟩ := Option.map_eq_some_iff.mp ht
      exact h.handoverMoves (h.handover.event hx)
    · cases ht
  | list dirs =>
    obtain ⟨x, hx, rfl⟩ := Option.map_eq_some_iff.mp ht
    exact h.handoverMoves (h.handover.list hx)
  | read =>
    obtain ⟨x, hx, rfl⟩ := Option.map_eq_some_iff.mp ht
    exact h.handoverMoves (h.handover.read hx)
  | nuke commit =>
    obtain ⟨x, hx, rfl⟩ := Option.map_eq_some_iff.mp ht
    exact h.handoverMoves (h.handover.nuke hx)
  | send =>
    simp only [systemStep] at ht
    split at ht
    · next r hpc =>
      obtain ⟨x, hx, ht⟩ := Option.bind_eq_some_iff.mp ht
      exact h.send hpc hx ht
    · cases ht

/-- The process of the verdict is that of the report. -/
theorem verdict (h : s.Traced z ref) {found : Bool} {garbage : Message}
    (ht : systemStep z ref s (.verdict found garbage) = some t) : t.Traced z ref := by
  simp only [systemStep] at ht
  split at ht
  · next rep hrep =>
    obtain ⟨r, hr, rfl⟩ := Option.map_eq_some_iff.mp ht
    obtain ⟨hcurr, call, hcall, hpid⟩ := h.judged rep hrep
    set condemned := if found then s.condemned ++ [rep.processId] else s.condemned with hcond
    have hg : s.Grows { s with mon := r.1, judged := none, condemned := condemned } := by
      refine ⟨List.Subset.refl _, List.Subset.refl _, ?_⟩
      rw [hcond]
      split
      · exact List.subset_append_left _ _
      · exact List.Subset.refl _
    have hring := h.ring.imp fun m => hg.backed
    obtain ⟨op, hop, hr⟩ : ∃ op, (op = Op.kill ∧ found = true ∨ op = Op.resume) ∧
        monitorVerdict z s.mon op garbage = some r := by
      cases found
      · exact ⟨Op.resume, .inr rfl, hr⟩
      · exact ⟨Op.kill, .inl ⟨rfl, rfl⟩, hr⟩
    exact {
      ring := by
        refine hring.verdict (fun _ => ⟨?_, ?_, ?_⟩) hr
        · rintro rfl
          rcases hop with ⟨hop, -⟩ | hop <;> exact absurd hop (by decide)
        · rintro rfl
          rcases hop with ⟨hop, -⟩ | hop <;> exact absurd hop (by decide)
        · rintro rfl
          rcases hop with ⟨_, rfl⟩ | hop
          · rw [hcurr]
            exact List.mem_append_right _ (List.mem_singleton_self _)
          · exact absurd hop (by decide)
      watch := ⟨h.watch.node, h.watch.pc, by
        rw [(monitorVerdict_frame hr).1]
        exact h.watch.marks⟩
      reports := h.reports
      handover := h.handover
      calls := h.calls
      judged := by simp
      condemned := by
        intro pid hmem
        simp only [hcond] at hmem
        split at hmem
        · rcases List.mem_append.mp hmem with hmem | hmem
          · exact h.condemned pid hmem
          · exact ⟨call, hcall, hpid.trans (List.mem_singleton.mp hmem).symm⟩
        · exact h.condemned pid hmem
      signals := h.signals_grow hg }
  · cases ht

theorem watchMoves (h : s.Traced z ref) {a : WatchAct}
    (ht : s.watchMoves ref.domid a = some t) : t.Traced z ref := by
  obtain ⟨w, hw, rfl⟩ := Option.map_eq_some_iff.mp ht
  obtain ⟨htraced, hsub⟩ := h.watch.step hw
  have hg : s.Grows { s with watch := w, mon := { s.mon with domList := w.domList } } :=
    ⟨hsub, List.Subset.refl _, List.Subset.refl _⟩
  exact {
    ring := h.ring.imp fun m => hg.backed
    watch := htraced
    reports := h.reports.imp fun pid => hg.caused
    handover := h.handover
    calls := fun rep hrep => hg.caused (h.calls rep hrep)
    judged := h.judged
    condemned := h.condemned
    signals := h.signals_grow hg }

theorem watchStep (h : s.Traced z ref) {a : WatchAct}
    (ht : systemStep z ref s (.watch a) = some t) : t.Traced z ref := by
  cases a with
  | event =>
    simp only [systemStep] at ht
    split at ht
    · exact h.watchMoves ht
    · cases ht
  | watch pid => exact h.watchMoves ht
  | read => exact h.watchMoves ht
  | remove => exact h.watchMoves ht
  | send => exact h.watchMoves ht

theorem step (h : s.Traced z ref) {a : SystemAct} (ht : systemStep z ref s a = some t) :
    t.Traced z ref := by
  cases a with
  | hook k => exact h.hook ht
  | monitorIrq garbage => exact h.monitorIrq ht
  | handler a => exact h.handler ht
  | reportCase => exact h.reportCase ht
  | thread table frames rets => exact h.thread ht
  | handover a granted => exact h.handoverStep ht
  | verdict found garbage => exact h.verdict ht
  | watch a => exact h.watchStep ht

theorem signalsCaused (h : s.Traced z ref) : s.SignalsCaused := by
  intro sig pid hmem
  obtain ⟨hcaused, hkill⟩ := h.signals _ hmem
  exact ⟨hcaused, fun hk => ⟨hkill hk, h.condemned pid (hkill hk)⟩⟩

end System.Traced

def sevenAlone : List Task := [⟨7, 7⟩]

theorem sevenAlone_nodup : (sevenAlone.map Task.pid).Nodup := List.nodup_singleton _

theorem sevenAlone_leader : ∀ task ∈ sevenAlone, ⟨task.tgid, task.tgid⟩ ∈ sevenAlone := by
  intro task h
  obtain rfl := List.mem_singleton.mp h
  exact List.mem_singleton_self _

/-- The one process of the guest, with no pages. -/
def lonelyProcess : TaskTable := ⟨sevenAlone, sevenAlone_nodup, sevenAlone_leader⟩

def threadMoves : SystemAct := .thread lonelyProcess (fun _ => []) []

/-- Process 7 asks to be watched, faults, is reported, and the dump of it has the signature. -/
def watchedFault : List SystemAct :=
  [.watch (.watch 7), .watch .event, .watch .read, .watch .remove, .watch .send,
    .hook (.doPageFault 7 0x1000 0x14), .monitorIrq default,
    .handler (.irq 0), .handler (.iterate [7]), .reportCase, .reportCase, .reportCase, .reportCase,
    .handler .finish,
    threadMoves, threadMoves, threadMoves, threadMoves, threadMoves, threadMoves,
    .handover (.txn true) default, .handover (.txn true) default,
    .handover .event default, .handover (.list []) default, .handover .read default,
    .handover (.nuke true) default, .handover .send default, .verdict true default, threadMoves,
    -- The handler has kept the `REPORT` and reads it again before the verdict.
    .handler (.irq 0), .handler (.iterate [7]), .reportCase, .reportCase, .reportCase, .reportCase,
    .handler (.iterate [7])]

end Maitland
