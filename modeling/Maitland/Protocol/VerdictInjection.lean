import Maitland.Library.Run
import Maitland.Monitor.Driver
import Maitland.Protocol.Queue

/-!
# Verdicts on the ring of one domain

A run of the monitor for one registered domain: pushes of the guest's hooks that
leave at most `RING_SIZE` requests unanswered, runs of `monitor_irq_handle`, and
the report and verdict ioctls.  A verdict is a response that answers no request.
-/

namespace Maitland

structure InjectionState where
  mon : MonitorState
  fring : Ring.Front
  pushed : List Message
  log : List Exchange

inductive InjectionAct where
  | hook (h : Hook)
  | irq (garbage : Message)
  | report (rep : ProcessReport) (granted : Ref → Bool)
  | resume (garbage : Message)
  | kill (garbage : Message)

/-- The private ring of the one registered domain. -/
def InjectionState.bring (s : InjectionState) : Ring.Back :=
  match s.mon.infos with
  | info :: _ => info.bring
  | [] => Ring.backRingInit

/-- `ref` is the page of the guest's ring. -/
def injectionStep (z : Ring.Size) (ref : Ref) (s : InjectionState) :
    InjectionAct → Option InjectionState
  | .hook h =>
    let r := h.call z ⟨ref.domid, s.mon.page ref, s.fring⟩
    let pushed := s.pushed ++ r.2.toList
    if pushed.length - s.log.length ≤ z.entries then
      some { s with
        mon := { s.mon with page := Function.update s.mon.page ref r.1.sring }
        fring := r.1.fring
        pushed := pushed }
    else none
  | .irq garbage =>
    (monitorIrq z s.mon 0 garbage).map fun r => { s with mon := r.1, log := s.log ++ r.2 }
  | .report rep granted =>
    (monitorIoctl z s.mon (.report rep granted)).map fun r => { s with mon := r.1 }
  | .resume garbage =>
    (monitorIoctl z s.mon (.resume garbage)).map fun r => { s with mon := r.1 }
  | .kill garbage =>
    (monitorIoctl z s.mon (.kill garbage)).map fun r => { s with mon := r.1 }

/-- The page the guest named in its registration. -/
def UspaceInfo.ref (arg : UspaceInfo) : Ref := ⟨arg.domid.setWidth 16, arg.gref⟩

/-- The domain has just registered (`monitorIoctl_register_ok`), with a ring fresh
from `malpage_setup_ring`. -/
def injectionStart (arg : UspaceInfo) (irq : Int) (page : Ref → Ring.Shared Message)
    (ring : ℕ → Message) : InjectionState where
  mon := (monitorInit (Function.update page arg.ref (Ring.sharedRingInit ring))).registered arg irq
  fring := Ring.frontRingInit
  pushed := []
  log := []

/-- What the ring protocol asks of a step: the private indices stay within one ring
of each other, a run of the handler takes and answers all that was published, and a
verdict is not written over a request that was not read. -/
def KeepsRingProtocol (z : Ring.Size) (ref : Ref) (s : InjectionState) (a : InjectionAct)
    (t : InjectionState) : Prop :=
  (t.bring.reqCons - t.bring.rspProdPvt).toNat ≤ z.entries ∧
  match a with
  | .irq _ => t.bring.reqCons = (s.mon.page ref).reqProd ∧ t.log.map Exchange.req = s.pushed
  | .resume _ | .kill _ => s.mon.currProc ≠ 0 → ∀ k, s.log.length ≤ k → k < s.pushed.length →
      Ring.slot z (BitVec.ofNat 32 k) ≠ Ring.slot z s.bring.rspProdPvt
  | _ => True

/-- No verdict is given on a reported process: `curr_proc` is NULL when it comes. -/
def NoVerdictPushed (s : InjectionState) (a : InjectionAct) (_ : InjectionState) : Prop :=
  match a with
  | .resume _ | .kill _ => s.mon.currProc = 0
  | _ => True

-- ════════════════════════════════════════════════════════════════════════
-- The invariant of runs without verdicts
-- ════════════════════════════════════════════════════════════════════════

/-- One share info, whose ring is the guest's page and a bounded queue; both its
private indices stand at the number of answered requests. -/
structure InjectionState.Sound (z : Ring.Size) (ref : Ref) (s : InjectionState) : Prop where
  single : ∃ info a, s.mon.infos = [info] ∧ info.sring = some a ∧ a < s.mon.areas ∧
    s.mon.mapped a = some ref ∧
    info.bring = ⟨BitVec.ofNat 32 s.log.length, BitVec.ofNat 32 s.log.length⟩
  shareInfo : s.mon.shareInfo = some 0
  queue : RingQueue z (s.mon.page ref) s.fring s.pushed s.log

namespace InjectionState.Sound

variable {z : Ring.Size} {ref : Ref} {s t : InjectionState}

theorem start (arg : UspaceInfo) (irq : Int) (page : Ref → Ring.Shared Message)
    (ring : ℕ → Message) : (injectionStart arg irq page ring).Sound z arg.ref where
  single := ⟨_, 0, rfl, rfl, Nat.zero_lt_one, rfl, rfl⟩
  shareInfo := rfl
  queue := by
    simp only [injectionStart, MonitorState.registered, monitorInit, Function.update_self]
    exact .init z ring

theorem bring_eq (h : s.Sound z ref) :
    s.bring = ⟨BitVec.ofNat 32 s.log.length, BitVec.ofNat 32 s.log.length⟩ := by
  obtain ⟨info, a, hinfos, _, _, _, hb⟩ := h.single
  rw [bring, hinfos]
  exact hb

theorem bring_distance (h : s.Sound z ref) :
    (s.bring.reqCons - s.bring.rspProdPvt).toNat ≤ z.entries := by
  rw [h.bring_eq, BitVec.sub_self]
  exact Nat.zero_le _

theorem hook (h : s.Sound z ref) {k : Hook} (ht : injectionStep z ref s (.hook k) = some t) :
    t.Sound z ref := by
  simp only [injectionStep] at ht
  split at ht
  · next hfit =>
    rw [Option.some.injEq] at ht
    subst ht
    refine ⟨h.single, h.shareInfo, ?_⟩
    have hq : RingQueue z (FrontEnd.mk ref.domid (s.mon.page ref) s.fring).sring
        (FrontEnd.mk ref.domid (s.mon.page ref) s.fring).fring s.pushed s.log := h.queue
    simp only [Function.update_self]
    exact hq.hook k hfit
  · cases ht

/-- A run of the handler empties the queue. -/
theorem irq (h : s.Sound z ref) {garbage : Message}
    (ht : injectionStep z ref s (.irq garbage) = some t) :
    t.Sound z ref ∧ t.bring.reqCons = (s.mon.page ref).reqProd ∧
      t.log.map Exchange.req = s.pushed := by
  obtain ⟨info, a, hinfos, hsring, ha, hmapped, hb⟩ := h.single
  have hget : s.mon.infos[0]? = some info := by rw [hinfos]; rfl
  have hring := MonitorState.ringOf_eq hsring hmapped
  simp only [injectionStep, monitorIrq_eq hget hring, hb, hinfos, List.set_cons_zero,
    Option.map_some, Option.some.injEq] at ht
  subst ht
  obtain ⟨hqueue, hlen, hbring, htaken⟩ :=
    h.queue.handle s.mon.domList s.mon.reportInProgress garbage
  refine ⟨⟨⟨_, a, rfl, hsring, ha, hmapped, ?_⟩, h.shareInfo, ?_⟩, ?_, htaken⟩
  · simp only [hbring, hlen]
  · simp only [Function.update_self]
    exact hqueue
  · simp only [bring, hbring]
    exact h.queue.reqProd.symm

theorem report (h : s.Sound z ref) {rep : ProcessReport} {granted : Ref → Bool}
    (ht : injectionStep z ref s (.report rep granted) = some t) : t.Sound z ref := by
  simp only [injectionStep, monitorIoctl, Option.map_some, Option.some.injEq] at ht
  subst ht
  have hm := monitorReport_mapsOnly granted s.mon (monitorPopulateReport rep)
  obtain ⟨info, a, hinfos, hsring, ha, hmapped, hb⟩ := h.single
  refine ⟨⟨info, a, hm.infos.trans hinfos, hsring, Nat.lt_of_lt_of_le ha hm.areas,
    (hm.mapped a ha).trans hmapped, hb⟩, hm.shareInfo.trans h.shareInfo, ?_⟩
  rw [hm.page]
  exact h.queue

/-- A pushed verdict moves the response index past the request index. -/
theorem verdict_overtakes (h : s.Sound z ref) (hc : s.mon.currProc ≠ 0) {op : BitVec 32}
    {garbage : Message} {mon : MonitorState} {r : Int}
    (ht : monitorVerdict z s.mon op garbage = some (mon, r)) :
    ¬((({ s with mon := mon } : InjectionState).bring.reqCons -
      ({ s with mon := mon } : InjectionState).bring.rspProdPvt).toNat ≤ z.entries) := by
  obtain ⟨info, a, hinfos, hsring, ha, hmapped, hb⟩ := h.single
  have hget : s.mon.infos[0]? = some info := by rw [hinfos]; rfl
  have hring := MonitorState.ringOf_eq hsring hmapped
  rw [monitorVerdict_eq hc h.shareInfo hget hring] at ht
  obtain ⟨rfl, rfl⟩ := Prod.mk.inj (Option.some.inj ht)
  simp only [bring, MonitorState.push, hinfos, List.set_cons_zero, hb]
  have hd : (BitVec.ofNat 32 s.log.length - (BitVec.ofNat 32 s.log.length + 1)).toNat =
      2 ^ 32 - 1 := by
    rw [← BitVec.sub_sub, BitVec.sub_self]
    rfl
  rw [hd]
  have hlog := z.log_lt
  have : z.entries ≤ 2 ^ 31 := Nat.pow_le_pow_right (by omega) (by omega)
  omega

/-- While the invariant holds, the protocol is kept exactly by the steps that push
no verdict. -/
theorem keeps_iff (h : s.Sound z ref) {a : InjectionAct}
    (ht : injectionStep z ref s a = some t) :
    (KeepsRingProtocol z ref s a t ↔ NoVerdictPushed s a t) ∧
      (NoVerdictPushed s a t → t.Sound z ref) := by
  have verdict : ∀ op garbage mon r, monitorVerdict z s.mon op garbage = some (mon, r) →
      t = { s with mon := mon } →
      ((t.bring.reqCons - t.bring.rspProdPvt).toNat ≤ z.entries ↔ s.mon.currProc = 0) ∧
        (s.mon.currProc = 0 → t.Sound z ref) := by
    intro op garbage mon r hv hst
    subst hst
    by_cases hc : s.mon.currProc = 0
    · rw [monitorVerdict_idle hc] at hv
      obtain ⟨rfl, rfl⟩ := Prod.mk.inj (Option.some.inj hv)
      exact ⟨iff_of_true h.bring_distance hc, fun _ => h⟩
    · exact ⟨iff_of_false (h.verdict_overtakes hc hv) hc, fun hz => absurd hz hc⟩
  cases a with
  | hook k =>
    have hs := h.hook ht
    exact ⟨iff_of_true ⟨hs.bring_distance, trivial⟩ trivial, fun _ => hs⟩
  | irq garbage =>
    obtain ⟨hs, hcons, htaken⟩ := h.irq ht
    exact ⟨iff_of_true ⟨hs.bring_distance, hcons, htaken⟩ trivial, fun _ => hs⟩
  | report rep granted =>
    have hs := h.report ht
    exact ⟨iff_of_true ⟨hs.bring_distance, trivial⟩ trivial, fun _ => hs⟩
  | resume garbage =>
    obtain ⟨⟨mon, r⟩, hv, rfl⟩ := Option.map_eq_some_iff.mp ht
    obtain ⟨hiff, hs⟩ := verdict _ garbage mon r hv rfl
    exact ⟨⟨fun hk => hiff.mp hk.1, fun hc => ⟨hiff.mpr hc, fun hn => absurd hc hn⟩⟩, hs⟩
  | kill garbage =>
    obtain ⟨⟨mon, r⟩, hv, rfl⟩ := Option.map_eq_some_iff.mp ht
    obtain ⟨hiff, hs⟩ := verdict _ garbage mon r hv rfl
    exact ⟨⟨fun hk => hiff.mp hk.1, fun hc => ⟨hiff.mpr hc, fun hn => absurd hc hn⟩⟩, hs⟩

end InjectionState.Sound

/-- Over every run for one registered domain, in every order of pushes, interrupts,
reports and verdicts: the ring protocol is kept at every step exactly when no
verdict of the run finds a reported process. -/
theorem ring_protocol_kept_iff (z : Ring.Size) (arg : UspaceInfo) (irq : Int)
    (page : Ref → Ring.Shared Message) (ring : ℕ → Message) (as : List InjectionAct) :
    Lts.Along (injectionStep z arg.ref) (KeepsRingProtocol z arg.ref)
        (injectionStart arg irq page ring) as ↔
      Lts.Along (injectionStep z arg.ref) NoVerdictPushed
        (injectionStart arg irq page ring) as :=
  Lts.along_iff (fun _ _ _ h ht => (h.keeps_iff ht).1) (fun _ _ _ h ht => (h.keeps_iff ht).2)
    (InjectionState.Sound.start arg irq page ring) as

/-- The registration of domain 1 and a report on its process 7. -/
def domainOne : UspaceInfo := ⟨1, 8, 5⟩

def reportSeven : ProcessReport := ⟨7, 1, 0, [], [], 0⟩

/-- One kill verdict leaves the indices `2 ^ 32 - 1` apart, and the next interrupt
finds a request and takes none. -/
theorem verdict_stalls_the_ring :
    (¬Lts.Along (injectionStep ringSize domainOne.ref) (KeepsRingProtocol ringSize domainOne.ref)
      (injectionStart domainOne 40 (fun _ => Ring.sharedRingInit default) default)
      [.report reportSeven fun _ => true, .kill default]) ∧
    ¬Lts.Along (injectionStep ringSize domainOne.ref)
      (fun s a t => ∀ garbage, a = .irq garbage →
        t.bring.reqCons = (s.mon.page domainOne.ref).reqProd)
      (injectionStart domainOne 40 (fun _ => Ring.sharedRingInit default) default)
      [.report reportSeven fun _ => true, .kill default, .hook (.doPageFault 7 0x1000 0x14),
        .irq default] := by
  constructor
  · intro h
    obtain ⟨_, h⟩ := h _ rfl
    obtain ⟨⟨hd, _⟩, _⟩ := h _ rfl
    exact absurd hd (by decide)
  · intro h
    obtain ⟨_, h⟩ := h _ rfl
    obtain ⟨_, h⟩ := h _ rfl
    obtain ⟨_, h⟩ := h _ rfl
    obtain ⟨h, _⟩ := h _ rfl
    exact absurd (h default rfl) (by decide)

end Maitland
