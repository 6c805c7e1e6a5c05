import Maitland.Library.Run
import Maitland.Protocol.Queue

/-!
# The request path

The guest's hooks and the monitor's request loop on one ring, interleaved at
every push and at every round of the loop.  `pushed` and `log` are histories: the
requests as the hooks left them in their slots, and the rounds of the loop.
-/

namespace Maitland

/-- The locals of a run of `monitor_irq_handle` that is under way. -/
structure IrqLocals where
  rc : Ring.Idx
  rp : Ring.Idx
  resp : Message
  /-- How many requests had been pushed when the run read `req_prod`. -/
  published : ℕ

structure RequestState where
  front : FrontEnd
  /-- The monitor's private ring, from the registration of the domain on. -/
  bring : Option Ring.Back
  irq : Option IrqLocals
  pushed : List Message
  log : List Exchange

inductive RequestAct where
  | hook (h : Hook)
  | register
  | enter (resp : Message)
  | iterate (l : DomList) (reportInProgress : BitVec 32)
  | leave

def RequestState.frame (s : RequestState) (b : Ring.Back) (i : IrqLocals) : IrqFrame :=
  ⟨s.front.sring, b, i.rc, i.rp, i.resp, s.log⟩

/-- The loop test and the overflow test of the request loop. -/
def LoopEnds (z : Ring.Size) (b : Ring.Back) (i : IrqLocals) : Prop :=
  i.rc = i.rp ∨ Ring.RequestConsOverflow z b i.rc

instance (z : Ring.Size) (b : Ring.Back) (i : IrqLocals) : Decidable (LoopEnds z b i) :=
  inferInstanceAs (Decidable (_ ∨ _))

def requestStep (z : Ring.Size) (s : RequestState) : RequestAct → Option RequestState
  | .hook h =>
    let r := h.call z s.front
    some { s with front := r.1, pushed := s.pushed ++ r.2.toList }
  | .register =>
    match s.bring with
    | none => some { s with bring := some Ring.backRingInit }
    | some _ => none
  | .enter resp =>
    match s.bring, s.irq with
    | some b, none =>
      let f := irqEnter s.front.sring b resp
      some { s with irq := some ⟨f.rc, f.rp, f.resp, s.pushed.length⟩ }
    | _, _ => none
  | .iterate l rip =>
    match s.bring, s.irq with
    | some b, some i =>
      if LoopEnds z b i then none
      else
        let f := irqIterate z l rip (s.frame b i)
        some { s with
          front := { s.front with sring := f.sring }
          bring := some f.bring
          irq := some ⟨f.rc, f.rp, f.resp, i.published⟩
          log := f.log }
    | _, _ => none
  | .leave =>
    match s.bring, s.irq with
    | some b, some i => if LoopEnds z b i then some { s with irq := none } else none
    | _, _ => none

/-- The guest has set up its ring; the monitor knows nothing of it yet. -/
def requestStart (domid : BitVec 16) (ring : ℕ → Message) : RequestState :=
  ⟨malpageSetupRing domid ring, none, none, [], []⟩

/-- A call of a hook leaves at most `RING_SIZE` requests unanswered. -/
def PushFits (z : Ring.Size) (_ : RequestState) (a : RequestAct) (t : RequestState) : Prop :=
  match a with
  | .hook _ => t.pushed.length - t.log.length ≤ z.entries
  | _ => True

instance (z : Ring.Size) (s : RequestState) (a : RequestAct) (t : RequestState) :
    Decidable (PushFits z s a t) :=
  match a with
  | .hook _ => inferInstanceAs (Decidable (_ ≤ _))
  | .register | .enter _ | .iterate _ _ | .leave => isTrue trivial

section Steps

variable {z : Ring.Size} {s t : RequestState}

theorem requestStep_register (h : requestStep z s .register = some t) :
    s.bring = none ∧ t = { s with bring := some Ring.backRingInit } := by
  simp only [requestStep] at h
  split at h
  · next hb => exact ⟨hb, by simpa using h.symm⟩
  · cases h

theorem requestStep_enter {resp : Message} (h : requestStep z s (.enter resp) = some t) :
    ∃ b, s.bring = some b ∧ s.irq = none ∧ t = { s with
      irq := some ⟨b.reqCons, s.front.sring.reqProd, resp, s.pushed.length⟩ } := by
  simp only [requestStep] at h
  split at h
  · next b hb hi => exact ⟨b, hb, hi, by simpa [irqEnter] using h.symm⟩
  · cases h

theorem requestStep_iterate {l : DomList} {rip : BitVec 32}
    (h : requestStep z s (.iterate l rip) = some t) :
    ∃ b i, s.bring = some b ∧ s.irq = some i ∧ ¬LoopEnds z b i ∧ t = { s with
      front := { s.front with sring := (irqIterate z l rip (s.frame b i)).sring }
      bring := some (irqIterate z l rip (s.frame b i)).bring
      irq := some ⟨(irqIterate z l rip (s.frame b i)).rc, (irqIterate z l rip (s.frame b i)).rp,
        (irqIterate z l rip (s.frame b i)).resp, i.published⟩
      log := (irqIterate z l rip (s.frame b i)).log } := by
  simp only [requestStep] at h
  split at h
  · next b i hb hi =>
    split at h
    · cases h
    · next hl => exact ⟨b, i, hb, hi, hl, by simpa using h.symm⟩
  · cases h

theorem requestStep_leave (h : requestStep z s .leave = some t) :
    ∃ b i, s.bring = some b ∧ s.irq = some i ∧ LoopEnds z b i ∧ t = { s with irq := none } := by
  simp only [requestStep] at h
  split at h
  · next b i hb hi =>
    split at h
    · next hl => exact ⟨b, i, hb, hi, hl, by simpa using h.symm⟩
    · cases h
  · cases h

end Steps

/-- The ring is a bounded queue, the monitor's private indices stand at the number
of answered requests, and a run under way stops at what was published. -/
structure RequestState.Queued (z : Ring.Size) (s : RequestState) : Prop where
  queue : RingQueue z s.front.sring s.front.fring s.pushed s.log
  rspProd : s.front.sring.rspProd = BitVec.ofNat 32 s.log.length
  inPlace : AnsweredInPlace z 0 s.log
  back : ∀ b, s.bring = some b →
    b = ⟨BitVec.ofNat 32 s.log.length, BitVec.ofNat 32 s.log.length⟩
  unregistered : s.bring = none → s.log = [] ∧ s.irq = none
  irq : ∀ i, s.irq = some i → i.rc = BitVec.ofNat 32 s.log.length ∧
    i.rp = BitVec.ofNat 32 i.published ∧ s.log.length ≤ i.published ∧
    i.published ≤ s.pushed.length

namespace RequestState.Queued

variable {z : Ring.Size} {s t : RequestState}

theorem start (domid : BitVec 16) (ring : ℕ → Message) : (requestStart domid ring).Queued z where
  queue := .init z ring
  rspProd := rfl
  inPlace := rfl
  back := fun b hb => by cases hb
  unregistered := fun _ => ⟨rfl, rfl⟩
  irq := fun i hi => by cases hi

theorem frame_at (h : s.Queued z) {b : Ring.Back} {i : IrqLocals} (hb : s.bring = some b)
    (hi : s.irq = some i) :
    (s.frame b i).At z s.log.length i.published (s.pushed.drop s.log.length) := by
  obtain ⟨hrc, hrp, hle, hpub⟩ := h.irq i hi
  exact RingQueue.frame_at (f := s.frame b i) h.queue (h.back b hb) hrc hrp hle hpub

/-- The loop stops exactly when everything published at the entry is taken. -/
theorem loopEnds_iff (h : s.Queued z) {b : Ring.Back} {i : IrqLocals} (hb : s.bring = some b)
    (hi : s.irq = some i) : LoopEnds z b i ↔ s.log.length = i.published := by
  have hat := h.frame_at hb hi
  constructor
  · rintro (heq | hov)
    · exact hat.rc_eq_rp_iff.mp heq
    · exact absurd hov hat.not_overflow
  · intro heq
    exact .inl (hat.rc_eq_rp_iff.mpr heq)

theorem hook (h : s.Queued z) {k : Hook} (ht : requestStep z s (.hook k) = some t)
    (hfit : t.pushed.length - t.log.length ≤ z.entries) : t.Queued z := by
  simp only [requestStep, Option.some.injEq] at ht
  subst ht
  have hrsp : (k.call z s.front).1.sring.rspProd = s.front.sring.rspProd := by
    rcases k.call_cases z s.front with hc | ⟨fill, hc⟩
    · rw [hc]
    · rw [hc]
      rfl
  refine ⟨h.queue.hook k hfit, hrsp.trans h.rspProd, h.inPlace, h.back, h.unregistered, ?_⟩
  intro i hi
  obtain ⟨hrc, hrp, hl, hp⟩ := h.irq i hi
  exact ⟨hrc, hrp, hl, by simp only [List.length_append]; omega⟩

theorem register (h : s.Queued z) (ht : requestStep z s .register = some t) : t.Queued z := by
  obtain ⟨hb, rfl⟩ := requestStep_register ht
  obtain ⟨hlog, hirq⟩ := h.unregistered hb
  refine { h with back := ?_, unregistered := ?_ }
  · intro b hb'
    cases hb'
    rw [hlog]
    rfl
  · intro hn
    cases hn

theorem enter (h : s.Queued z) {resp : Message} (ht : requestStep z s (.enter resp) = some t) :
    t.Queued z := by
  obtain ⟨b, hb, hi, rfl⟩ := requestStep_enter ht
  refine { h with unregistered := ?_, irq := ?_ }
  · intro hn
    rw [hb] at hn
    cases hn
  · rintro i ⟨rfl⟩
    exact ⟨by rw [h.back b hb], h.queue.reqProd, h.queue.le, Nat.le_refl _⟩

theorem iterate (h : s.Queued z) {l : DomList} {rip : BitVec 32}
    (ht : requestStep z s (.iterate l rip) = some t) : t.Queued z := by
  obtain ⟨b, i, hb, hi, hl, rfl⟩ := requestStep_iterate ht
  have hat := h.frame_at hb hi
  obtain ⟨_, _, hle, hpub⟩ := h.irq i hi
  have hlt : s.log.length < i.published :=
    Nat.lt_of_le_of_ne hle fun heq => hl ((h.loopEnds_iff hb hi).mpr heq)
  obtain ⟨hqueue, hlen, hat'⟩ :=
    RingQueue.iterate (f := s.frame b i) h.queue hat hlt hpub l rip
  refine ⟨hqueue, ?_, ?_, ?_, ?_, ?_⟩
  · exact hat'.rspProdPvt
  · refine h.inPlace.snoc ?_
    simp only [frame, h.back b hb, Ring.slot_ofNat, Nat.zero_add]
  · rintro b' ⟨rfl⟩
    exact Ring.Back.ext hat'.rspProdPvt hat'.reqCons
  · intro hn
    cases hn
  · rintro i' ⟨rfl⟩
    exact ⟨hat'.rc, hat'.rp, hat'.le, hpub⟩

theorem leave (h : s.Queued z) (ht : requestStep z s .leave = some t) : t.Queued z := by
  obtain ⟨b, i, hb, hi, _, rfl⟩ := requestStep_leave ht
  refine { h with unregistered := ?_, irq := ?_ }
  · intro hn
    rw [hb] at hn
    cases hn
  · intro i' hi'
    cases hi'

theorem step (h : s.Queued z) {a : RequestAct} (ht : requestStep z s a = some t)
    (hfit : PushFits z s a t) : t.Queued z := by
  cases a with
  | hook k => exact h.hook ht hfit
  | register => exact h.register ht
  | enter resp => exact h.enter ht
  | iterate l rip => exact h.iterate ht
  | leave => exact h.leave ht

end RequestState.Queued

/-- In every run that keeps the unanswered requests within the ring the ring is a
bounded queue. -/
theorem requests_queued {z : Ring.Size} {domid : BitVec 16} {ring : ℕ → Message}
    {as : List RequestAct} {s : RequestState}
    (hfit : Lts.Along (requestStep z) (PushFits z) (requestStart domid ring) as)
    (hr : Lts.run (requestStep z) (requestStart domid ring) as = some s) : s.Queued z :=
  Lts.Along.invariant (fun _ _ _ h ht hc => h.step ht hc) hfit hr (.start domid ring)

/-- A round of the loop takes the next request as it was pushed and writes one
response, into that request's slot; no other step takes or answers anything. -/
def RoundAnswersNext (z : Ring.Size) (s : RequestState) (a : RequestAct) (t : RequestState) :
    Prop :=
  match a with
  | .iterate _ _ =>
    (∃ e, t.log = s.log ++ [e] ∧ s.pushed[s.log.length]? = some e.req ∧
      e.slot = Ring.slot z (BitVec.ofNat 32 s.log.length) ∧
      t.front.sring.get z (BitVec.ofNat 32 s.log.length) = e.resp) ∧
    ∃ b, t.bring = some b ∧ b.rspProdPvt = b.reqCons
  | _ => t.log = s.log

/-- What holds of the ring between any two steps. -/
structure Corresponds (z : Ring.Size) (s : RequestState) : Prop where
  /-- The requests taken are those pushed, field for field and in order. -/
  taken : s.log.map Exchange.req = s.pushed.take s.log.length
  /-- The `k`-th response went into the slot of the `k`-th request. -/
  inPlace : s.log.map Exchange.slot =
    (List.range s.log.length).map fun k => Ring.slot z (BitVec.ofNat 32 k)
  /-- As many responses as requests, on both private indices and on the shared one. -/
  balanced : ∀ b, s.bring = some b → b.rspProdPvt = b.reqCons ∧
    b.reqCons = BitVec.ofNat 32 s.log.length ∧ s.front.sring.rspProd = b.rspProdPvt
  /-- The overflow break of the loop is not taken. -/
  noBreak : ∀ b i, s.bring = some b → s.irq = some i → ¬Ring.RequestConsOverflow z b i.rc
  /-- Every request not yet read is still in its slot. -/
  intact : ∀ k req, s.log.length ≤ k → s.pushed[k]? = some req →
    s.front.sring.get z (BitVec.ofNat 32 k) = req

theorem RequestState.Queued.corresponds {z : Ring.Size} {s : RequestState} (h : s.Queued z) :
    Corresponds z s where
  taken := h.queue.taken
  inPlace := by
    have := h.inPlace
    simpa only [AnsweredInPlace, Nat.zero_add, ← Ring.slot_ofNat] using this
  balanced b hb := by
    rw [h.back b hb, h.rspProd]
    exact ⟨rfl, rfl, rfl⟩
  noBreak b i hb hi := (h.frame_at hb hi).not_overflow
  intact k req hk hreq := by
    obtain ⟨j, rfl⟩ := Nat.exists_eq_add_of_le hk
    rw [Ring.Shared.get, Ring.slot_ofNat]
    exact h.queue.holds j req (by rw [List.getElem?_drop]; exact hreq)

theorem RequestState.Queued.roundAnswersNext {z : Ring.Size} {s t : RequestState}
    (h : s.Queued z) {a : RequestAct} (ht : requestStep z s a = some t) :
    RoundAnswersNext z s a t := by
  cases a with
  | hook k =>
    simp only [requestStep, Option.some.injEq] at ht
    subst ht
    rfl
  | register =>
    obtain ⟨_, rfl⟩ := requestStep_register ht
    rfl
  | enter resp =>
    obtain ⟨b, _, _, rfl⟩ := requestStep_enter ht
    rfl
  | leave =>
    obtain ⟨b, i, _, _, _, rfl⟩ := requestStep_leave ht
    rfl
  | iterate l rip =>
    have hq := h.iterate ht
    obtain ⟨b, i, hb, hi, hl, rfl⟩ := requestStep_iterate ht
    have hback := h.back b hb
    obtain ⟨hrc, _, hle, hpub⟩ := h.irq i hi
    have hlt : s.log.length < s.pushed.length := by
      have := mt (h.loopEnds_iff hb hi).mpr hl
      omega
    refine ⟨⟨_, rfl, ?_, ?_, ?_⟩, _, rfl, (hq.corresponds.balanced _ rfl).1⟩
    · have := h.queue.holds 0 s.pushed[s.log.length] (by simp [hlt])
      simp only [Nat.add_zero] at this
      simp only [frame, hrc, Ring.Shared.get, Ring.slot_ofNat, this]
      exact List.getElem?_eq_getElem hlt
    · simp only [frame, hback]
    · simp only [irqIterate, frame, hback, Ring.Shared.get, Ring.pushResponses, Ring.Shared.put,
        Function.update_self]

/-- Any run of pushes and of rounds of `monitor_irq_handle`, of any length, with at
most `RING_SIZE` unanswered requests at each push: the ring carries every request
to the monitor unchanged and in order, and every response back in its slot. -/
theorem request_response_correspondence (z : Ring.Size) (domid : BitVec 16) (ring : ℕ → Message)
    (as : List RequestAct)
    (hfit : Lts.Along (requestStep z) (PushFits z) (requestStart domid ring) as) :
    Lts.Along (requestStep z) (RoundAnswersNext z) (requestStart domid ring) as ∧
      ∀ s, Lts.run (requestStep z) (requestStart domid ring) as = some s → Corresponds z s := by
  constructor
  · exact Lts.Along.of_invariant (fun s a t h ht hc => ⟨h.roundAnswersNext ht, h.step ht hc⟩)
      (RequestState.Queued.start (z := z) domid ring) hfit
  · intro s hr
    exact (requests_queued hfit hr).corresponds

/-- A registration, an instruction-fetch fault and one run of the handler. -/
def oneFault : List RequestAct :=
  [.register, .hook (.doPageFault 7 0x1000 0x14), .enter default, .iterate DomList.init 0, .leave]

theorem run_oneFault :
    ∃ s, Lts.run (requestStep ringSize) (requestStart 1 default) oneFault = some s ∧
      s.log.length = 1 := by
  have hlog : (Lts.run (requestStep ringSize) (requestStart 1 default) oneFault).map
      (fun s => s.log.length) = some 1 := by decide
  exact Option.map_eq_some_iff.mp hlog

theorem request_response_correspondence_oneFault :
    Lts.Along (requestStep ringSize) (PushFits ringSize) (requestStart 1 default) oneFault ∧
    Lts.Along (requestStep ringSize) (RoundAnswersNext ringSize) (requestStart 1 default) oneFault ∧
    ∃ s, Lts.run (requestStep ringSize) (requestStart 1 default) oneFault = some s ∧
      s.log.length = 1 ∧ Corresponds ringSize s := by
  have hfits : Lts.Along (requestStep ringSize) (PushFits ringSize) (requestStart 1 default)
    oneFault := by decide
  obtain ⟨hround, hruns⟩ := request_response_correspondence ringSize 1 default oneFault hfits
  obtain ⟨s, hrun, hlog⟩ := run_oneFault
  exact ⟨hfits, hround, s, hrun, hlog, hruns s hrun⟩

end Maitland
