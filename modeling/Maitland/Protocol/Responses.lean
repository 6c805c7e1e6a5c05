import Maitland.Library.Run
import Maitland.Malpage.Irq

/-!
# Responses in the guest

The monitor publishes responses, one or a batch at a time, and interrupts make
the guest's handler go through them.  The handler runs here in its own steps, so
that a publication may fall anywhere in a run: between two responses, before the
final check or between the two tests of that check.
-/

namespace Maitland

inductive HandlerPc where
  | loop
  | recheck
  deriving DecidableEq

/-- A run of `malpage_irq_handle`. -/
structure HandlerRun where
  pc : HandlerPc
  rc : Ring.Idx
  rp : Ring.Idx
  skip : BitVec 32
  /-- What `skip` held before its first assignment. -/
  garbage : BitVec 32
  /-- The responses this run has gone through, over all its passes. -/
  batch : List Message
  /-- How many responses were out when `rp` was read. -/
  seen : ℕ

/-- One execution of the switch, among the processes of that moment. -/
structure Handling where
  tasks : List (BitVec 32)
  resp : Message

def Handling.effects (h : Handling) : List Effect := (malpageSwitch h.tasks h.resp 0).1

structure ResponseState where
  sring : Ring.Shared Message
  fring : Ring.Front
  run : Option HandlerRun
  published : List Message
  handled : List Handling
  effects : List Effect

inductive ResponseAct where
  | publish (resp : Message)
  | hook (domid : BitVec 16) (h : Hook)
  | irq (garbage : BitVec 32)
  | iterate (tasks : List (BitVec 32))
  | finish
  | recheck

/-- A pass of the handler begins: `rp` is read, `rc` starts at `rsp_cons`. -/
def ResponseState.again (s : ResponseState) (r : HandlerRun) : ResponseState :=
  { s with run := some { r with
      pc := .loop
      rc := s.fring.rspCons
      rp := s.sring.rspProd
      seen := s.published.length } }

/-- The end of a pass, up to the store of the final check. -/
def ResponseState.finish (s : ResponseState) (r : HandlerRun) : ResponseState :=
  if r.skip ≠ 0 then { s with run := none }
  else
    let s := { s with fring := { s.fring with rspCons := r.rc } }
    if r.rc ≠ s.fring.reqProdPvt then
      if Ring.hasUnconsumedResponses s.sring s.fring then s.again r
      else { s with
        sring := Ring.awaitResponses s.sring s.fring
        run := some { r with pc := .recheck } }
    else { s with sring := { s.sring with rspEvent := r.rc + 1 }, run := none }

/-- A publication finds room on the ring, and a hook's request goes to a slot that
holds no unconsumed response. -/
def responseStep (z : Ring.Size) (s : ResponseState) : ResponseAct → Option ResponseState
  | .publish resp =>
    if (s.sring.rspProd - s.fring.rspCons).toNat < z.entries then
      some { s with
        sring := { s.sring.put z s.sring.rspProd resp with rspProd := s.sring.rspProd + 1 }
        published := s.published ++ [resp] }
    else none
  | .hook domid h =>
    if ∀ k, k < (s.sring.rspProd - s.fring.rspCons).toNat →
        Ring.slot z s.fring.reqProdPvt ≠ Ring.slot z (s.fring.rspCons + BitVec.ofNat 32 k) then
      let r := h.call z ⟨domid, s.sring, s.fring⟩
      some { s with sring := r.1.sring, fring := r.1.fring }
    else none
  | .irq garbage =>
    match s.run with
    | none => some (s.again ⟨.loop, 0, 0, garbage, garbage, [], 0⟩)
    | some _ => none
  | .iterate tasks =>
    match s.run with
    | some r =>
      if r.pc = .loop ∧ r.rc ≠ r.rp then
        let resp := s.sring.get z r.rc
        let e := malpageSwitch tasks resp r.skip
        some { s with
          run := some { r with rc := r.rc + 1, skip := e.2, batch := r.batch ++ [resp] }
          handled := s.handled ++ [⟨tasks, resp⟩]
          effects := s.effects ++ e.1 }
      else none
    | none => none
  | .finish =>
    match s.run with
    | some r => if r.pc = .loop ∧ r.rc = r.rp then some (s.finish r) else none
    | none => none
  | .recheck =>
    match s.run with
    | some r =>
      if r.pc = .recheck then
        if Ring.hasUnconsumedResponses s.sring s.fring then some (s.again r)
        else some { s with run := none }
      else none
    | none => none

/-- The ring as `malpage_setup_ring` leaves it. -/
def responseStart (ring : ℕ → Message) : ResponseState where
  sring := Ring.sharedRingInit ring
  fring := Ring.frontRingInit
  run := none
  published := []
  handled := []
  effects := []

/-- What exactly-once handling asks of a step: the switch has gone through a prefix
of the publications with the effects of each, and a run of the handler that ends
here has gone through all it saw and leaves `rsp_cons` at the `rsp_prod` it read. -/
def HandledOnce (s : ResponseState) (_ : ResponseAct) (t : ResponseState) : Prop :=
  t.handled.map Handling.resp <+: t.published ∧
  t.effects = t.handled.flatMap Handling.effects ∧
  ∀ r ∈ s.run, t.run = none →
    t.fring.rspCons = r.rp ∧ t.handled.map Handling.resp = t.published.take r.seen

instance (s : ResponseState) (a : ResponseAct) (t : ResponseState) :
    Decidable (HandledOnce s a t) :=
  inferInstanceAs (Decidable (_ ∧ _ ∧ _))

/-- A pass that ends here found nothing to read, or the responses of this run leave
the flag cleared. -/
def ConsumesBatch (s : ResponseState) (a : ResponseAct) (_ : ResponseState) : Prop :=
  match a with
  | .finish => ∀ r, s.run = some r → s.fring.rspCons = r.rp ∨ ClearsFlag r.garbage r.batch
  | _ => True

/-- What a step does, one case for each way past the guards. -/
inductive ResponseTaken (z : Ring.Size) (s : ResponseState) : ResponseAct → ResponseState → Prop
  | publish {resp : Message} : (s.sring.rspProd - s.fring.rspCons).toNat < z.entries →
      ResponseTaken z s (.publish resp) { s with
        sring := { s.sring.put z s.sring.rspProd resp with rspProd := s.sring.rspProd + 1 }
        published := s.published ++ [resp] }
  | hook {domid : BitVec 16} {h : Hook} {fe : FrontEnd} :
      (∀ k, k < (s.sring.rspProd - s.fring.rspCons).toNat →
        Ring.slot z s.fring.reqProdPvt ≠ Ring.slot z (s.fring.rspCons + BitVec.ofNat 32 k)) →
      (h.call z ⟨domid, s.sring, s.fring⟩).1 = fe →
      ResponseTaken z s (.hook domid h) { s with sring := fe.sring, fring := fe.fring }
  | irq {garbage : BitVec 32} : s.run = none →
      ResponseTaken z s (.irq garbage) (s.again ⟨.loop, 0, 0, garbage, garbage, [], 0⟩)
  | iterate {tasks : List (BitVec 32)} {r : HandlerRun} : s.run = some r → r.pc = .loop →
      r.rc ≠ r.rp → ResponseTaken z s (.iterate tasks) { s with
        run := some { r with
          rc := r.rc + 1
          skip := (malpageSwitch tasks (s.sring.get z r.rc) r.skip).2
          batch := r.batch ++ [s.sring.get z r.rc] }
        handled := s.handled ++ [⟨tasks, s.sring.get z r.rc⟩]
        effects := s.effects ++ (malpageSwitch tasks (s.sring.get z r.rc) r.skip).1 }
  | finish {r : HandlerRun} : s.run = some r → r.pc = .loop → r.rc = r.rp →
      ResponseTaken z s .finish (s.finish r)
  | goOn {r : HandlerRun} : s.run = some r → r.pc = .recheck →
      Ring.hasUnconsumedResponses s.sring s.fring → ResponseTaken z s .recheck (s.again r)
  | leave {r : HandlerRun} : s.run = some r → r.pc = .recheck →
      ¬Ring.hasUnconsumedResponses s.sring s.fring →
      ResponseTaken z s .recheck { s with run := none }

theorem responseStep_taken {z : Ring.Size} {s t : ResponseState} {a : ResponseAct}
    (ht : responseStep z s a = some t) : ResponseTaken z s a t := by
  cases a with
  | publish resp =>
    simp only [responseStep] at ht
    split at ht
    · next hroom =>
      cases ht
      exact .publish hroom
    · cases ht
  | hook domid h =>
    simp only [responseStep] at ht
    split at ht
    · next hfree =>
      cases ht
      exact .hook hfree rfl
    · cases ht
  | irq garbage =>
    simp only [responseStep] at ht
    split at ht
    · next hidle =>
      cases ht
      exact .irq hidle
    · cases ht
  | iterate tasks =>
    simp only [responseStep] at ht
    split at ht
    · next r hr =>
      split at ht
      · next hpc =>
        cases ht
        exact .iterate hr hpc.1 hpc.2
      · cases ht
    · cases ht
  | finish =>
    simp only [responseStep] at ht
    split at ht
    · next r hr =>
      split at ht
      · next hpc =>
        cases ht
        exact .finish hr hpc.1 hpc.2
      · cases ht
    · cases ht
  | recheck =>
    simp only [responseStep] at ht
    split at ht
    · next r hr =>
      split at ht
      · next hpc =>
        split at ht
        · next hmore =>
          cases ht
          exact .goOn hr hpc hmore
        · next hdone =>
          cases ht
          exact .leave hr hpc hdone
      · cases ht
    · cases ht

theorem ResponseState.finish_handled (s : ResponseState) (r : HandlerRun) :
    (s.finish r).handled = s.handled := by
  unfold ResponseState.finish
  dsimp only
  split_ifs <;> rfl

/-- A handler run at response `h` of `n`, with `rsp_cons` at `c`. -/
structure HandlerRun.InStep (r : HandlerRun) (c h n : ℕ) : Prop where
  rc : r.rc = BitVec.ofNat 32 h
  rp : r.rp = BitVec.ofNat 32 r.seen
  le : h ≤ r.seen
  seen_le : r.seen ≤ n
  flag : r.skip = 0 ↔ ClearsFlag r.garbage r.batch
  recheck : r.pc = .recheck → c = h ∧ r.seen = h

/-- The first `handled.length` publications have been handled in order, `rsp_cons`
stands at `c`, and the ring still holds everything from there on. -/
structure ResponseState.InStep (z : Ring.Size) (s : ResponseState) (c : ℕ) : Prop where
  rspProd : s.sring.rspProd = BitVec.ofNat 32 s.published.length
  rspCons : s.fring.rspCons = BitVec.ofNat 32 c
  le : c ≤ s.handled.length
  handled_le : s.handled.length ≤ s.published.length
  room : s.published.length ≤ c + z.entries
  handled : s.handled.map Handling.resp = s.published.take s.handled.length
  effects : s.effects = s.handled.flatMap Handling.effects
  holds : Ring.Holds z s.sring.ring c (s.published.drop c)
  idle : s.run = none → c = s.handled.length
  run : ∀ r, s.run = some r → r.InStep c s.handled.length s.published.length

def ResponseState.Sound (z : Ring.Size) (s : ResponseState) : Prop := ∃ c, s.InStep z c

namespace ResponseState.InStep

variable {z : Ring.Size} {s t : ResponseState} {c : ℕ}

theorem start (ring : ℕ → Message) : (responseStart ring).InStep z 0 where
  rspProd := rfl
  rspCons := rfl
  le := Nat.le_refl _
  handled_le := Nat.le_refl _
  room := Nat.zero_le _
  handled := rfl
  effects := rfl
  holds := Ring.Holds.nil _ _
  idle _ := rfl
  run _ h := by cases h

theorem distance (h : s.InStep z c) :
    (s.sring.rspProd - s.fring.rspCons).toNat = s.published.length - c := by
  have := h.le
  have := h.handled_le
  have := h.room
  have := z.entries_lt
  rw [h.rspProd, h.rspCons]
  exact Ring.toNat_sub_ofNat (by omega) (by omega)

theorem publish (h : s.InStep z c) {resp : Message}
    (ht : responseStep z s (.publish resp) = some t) : t.InStep z c := by
  cases responseStep_taken ht with
  | publish hroom =>
    rw [h.distance] at hroom
    have hle := h.handled_le
    have hc := h.le
    have hlen : (s.published.drop c).length = s.published.length - c := List.length_drop
    refine ⟨?_, h.rspCons, h.le, ?_, ?_, ?_, h.effects, ?_, h.idle, ?_⟩
    · rw [h.rspProd, Ring.ofNat_succ, List.length_append, List.length_singleton]
    · simp only [List.length_append]
      omega
    · simp only [List.length_append, List.length_singleton]
      omega
    · simp only [List.take_append_of_le_length hle]
      exact h.handled
    · have hh := h.holds.push (by omega) resp
      rw [hlen, show c + (s.published.length - c) = s.published.length by omega] at hh
      simp only [Ring.Shared.put, h.rspProd, Ring.slot_ofNat]
      rwa [List.drop_append_of_le_length (by omega)]
    · intro r hr
      have hrun := h.run r hr
      refine { hrun with seen_le := ?_ }
      have := hrun.seen_le
      simp only [List.length_append]
      omega

theorem hook (h : s.InStep z c) {domid : BitVec 16} {k : Hook}
    (ht : responseStep z s (.hook domid k) = some t) : t.InStep z c := by
  cases responseStep_taken ht with
  | hook hfree hfe =>
    rw [h.distance] at hfree
    rcases k.call_cases z ⟨domid, s.sring, s.fring⟩ with hc | ⟨fill, hc⟩
    · rw [← hfe, hc]
      exact ⟨h.rspProd, h.rspCons, h.le, h.handled_le, h.room, h.handled, h.effects, h.holds,
        h.idle, h.run⟩
    · rw [← hfe, hc]
      refine ⟨h.rspProd, h.rspCons, h.le, h.handled_le, h.room, h.handled, h.effects, ?_,
        h.idle, h.run⟩
      refine h.holds.update (fun i hi => ?_) _
      have hs := hfree i (by rw [List.length_drop] at hi; exact hi)
      rwa [h.rspCons, ← BitVec.ofNat_add, Ring.slot_ofNat] at hs

/-- A pass begins with `rsp_cons` where the handled responses end. -/
theorem again (h : s.InStep z c) (hc : c = s.handled.length) {r : HandlerRun}
    (hflag : r.skip = 0 ↔ ClearsFlag r.garbage r.batch) : (s.again r).InStep z c := by
  refine ⟨h.rspProd, h.rspCons, h.le, h.handled_le, h.room, h.handled, h.effects, h.holds, ?_, ?_⟩
  · intro hn
    cases hn
  · rintro _ ⟨⟩
    refine ⟨?_, h.rspProd, h.handled_le, Nat.le_refl _, hflag, ?_⟩
    · exact h.rspCons.trans (congrArg _ hc)
    · intro hp
      cases hp

theorem irq (h : s.InStep z c) {garbage : BitVec 32}
    (ht : responseStep z s (.irq garbage) = some t) : t.InStep z c := by
  cases responseStep_taken ht with
  | irq hn => exact h.again (h.idle hn) Iff.rfl

/-- The slot the handler reads next holds the next response. -/
theorem get_next (h : s.InStep z c) {r : HandlerRun} (hr : s.run = some r)
    (hlt : s.handled.length < s.published.length) :
    s.sring.get z r.rc = s.published[s.handled.length] := by
  have hc : c + (s.handled.length - c) = s.handled.length := Nat.add_sub_cancel' h.le
  have hnext := h.holds (s.handled.length - c) s.published[s.handled.length] (by
    rw [List.getElem?_drop, hc, List.getElem?_eq_getElem])
  rwa [hc, ← Ring.slot_ofNat, ← (h.run r hr).rc] at hnext

/-- The handler returns with `rsp_cons` where the handled responses end. -/
theorem stop (h : s.InStep z c) (hc : c = s.handled.length) :
    ({ s with run := none } : ResponseState).InStep z c :=
  ⟨h.rspProd, h.rspCons, h.le, h.handled_le, h.room, h.handled, h.effects, h.holds,
    fun _ => hc, fun _ hn => by cases hn⟩

theorem iterate (h : s.InStep z c) {tasks : List (BitVec 32)}
    (ht : responseStep z s (.iterate tasks) = some t) : t.InStep z c := by
  cases responseStep_taken ht with
  | @iterate _ r hr hpc hne =>
    have hrun := h.run r hr
    have hc := h.le
    have hseen := hrun.seen_le
    have hlt : s.handled.length < r.seen := by
      refine Nat.lt_of_le_of_ne hrun.le fun he => hne ?_
      rw [hrun.rc, hrun.rp, he]
    have hresp := h.get_next hr (Nat.lt_of_lt_of_le hlt hseen)
    refine ⟨h.rspProd, h.rspCons, ?_, ?_, h.room, ?_, ?_, h.holds, ?_, ?_⟩
    · simp only [List.length_append]
      omega
    · simp only [List.length_append, List.length_singleton]
      omega
    · rw [List.length_append, List.length_singleton, List.take_add_one, List.map_append,
        h.handled]
      simp [hresp, List.getElem?_eq_getElem (show s.handled.length < s.published.length by omega)]
    · rw [List.flatMap_append, ← h.effects]
      simp only [List.flatMap_cons, List.flatMap_nil, List.append_nil]
      exact congrArg (s.effects ++ ·) (malpageSwitch_effects _ _ _ _)
    · intro hn
      cases hn
    · rintro _ ⟨⟩
      refine ⟨?_, hrun.rp, ?_, hseen, clearsFlag_snoc hrun.flag _ _, ?_⟩
      · rw [hrun.rc, Ring.ofNat_succ, List.length_append, List.length_singleton]
      · rw [List.length_append, List.length_singleton]
        exact hlt
      · intro hp
        rw [hpc] at hp
        cases hp

/-- At the end of a pass everything it saw has been handled. -/
theorem handled_eq_seen (h : s.InStep z c) {r : HandlerRun} (hr : s.run = some r)
    (he : r.rc = r.rp) : s.handled.length = r.seen := by
  have hrun := h.run r hr
  have := hrun.le
  have := hrun.seen_le
  have := h.le
  have := h.room
  have := z.entries_lt
  refine Ring.ofNat_inj_of_near hrun.le (by omega) ?_
  rw [← hrun.rc, ← hrun.rp, he]

/-- Moving `rsp_cons` up to the handled responses, with the handler in any position
that fits. -/
theorem consume (h : s.InStep z c) (event : Ring.Idx) (run : Option HandlerRun)
    (hrun : ∀ r, run = some r → r.InStep s.handled.length s.handled.length s.published.length) :
    ({ s with
      fring := { s.fring with rspCons := BitVec.ofNat 32 s.handled.length }
      sring := { s.sring with rspEvent := event }
      run := run } : ResponseState).InStep z s.handled.length := by
  have := h.le
  have := h.room
  refine ⟨h.rspProd, rfl, Nat.le_refl _, h.handled_le, by simp only; omega, h.handled, h.effects,
    ?_, fun _ => rfl, hrun⟩
  intro k v hk
  have := h.holds (s.handled.length - c + k) v (by
    rw [List.getElem?_drop] at hk ⊢
    rwa [show c + (s.handled.length - c + k) = s.handled.length + k by omega])
  rwa [show c + (s.handled.length - c + k) = s.handled.length + k by omega] at this

/-- A pass that ends with the flag cleared. -/
theorem finish_clear (h : s.InStep z c) {r : HandlerRun} (hr : s.run = some r)
    (he : r.rc = r.rp) (hskip : r.skip = 0) :
    (s.finish r).InStep z s.handled.length ∧
      ((s.finish r).run = none → (s.finish r).fring.rspCons = r.rp) := by
  have hrun := h.run r hr
  have hseen := h.handled_eq_seen hr he
  rw [ResponseState.finish, if_neg (not_not_intro hskip)]
  dsimp only
  by_cases hprod : r.rc ≠ s.fring.reqProdPvt
  · rw [if_pos hprod]
    split
    · refine ⟨?_, fun hn => by cases hn⟩
      rw [hrun.rc]
      refine (h.consume s.sring.rspEvent s.run ?_).again rfl hrun.flag
      intro r' hr'
      rw [hr, Option.some.injEq] at hr'
      subst hr'
      exact { hrun with recheck := fun _ => ⟨rfl, hseen.symm⟩ }
    · refine ⟨?_, fun hn => by cases hn⟩
      rw [hrun.rc]
      refine h.consume _ (some _) ?_
      rintro _ ⟨⟩
      exact ⟨rfl, hrun.rp, hrun.le, hrun.seen_le, hrun.flag, fun _ => ⟨rfl, hseen.symm⟩⟩
  · rw [if_neg hprod]
    refine ⟨?_, fun _ => he⟩
    rw [hrun.rc]
    exact h.consume _ none fun _ hn => by cases hn

/-- The step a handler run returns in consumes what the run saw. -/
theorem handledOnce (h : t.InStep z c) (a : ResponseAct)
    (hend : ∀ r, s.run = some r → t.run = none →
      t.fring.rspCons = r.rp ∧ t.handled.length = r.seen) : HandledOnce s a t := by
  refine ⟨?_, h.effects, ?_⟩
  · rw [h.handled]
    exact List.take_prefix _ _
  · intro r hr hn
    obtain ⟨hcons, hseen⟩ := hend r hr hn
    exact ⟨hcons, by rw [h.handled, hseen]⟩

/-- The end of a pass: with the flag set `rsp_cons` stays behind, so the run may only
return when it had nothing to read. -/
theorem finish (h : s.InStep z c) (ht : responseStep z s .finish = some t) :
    (HandledOnce s .finish t ↔ ConsumesBatch s .finish t) ∧
      (ConsumesBatch s .finish t → t.Sound z) := by
  cases responseStep_taken ht with
  | @finish r hr _ he =>
    have hrun := h.run r hr
    have hseen := h.handled_eq_seen hr he
    have hiff : ConsumesBatch s .finish (s.finish r) ↔ s.fring.rspCons = r.rp ∨ r.skip = 0 := by
      simp only [ConsumesBatch, hr, Option.some.injEq, hrun.flag]
      constructor
      · intro hc
        exact hc r rfl
      · rintro hc _ rfl
        exact hc
    rw [hiff]
    by_cases hskip : r.skip = 0
    · obtain ⟨ht, hcons⟩ := h.finish_clear hr he hskip
      refine ⟨⟨fun _ => .inr hskip, fun _ => ht.handledOnce _ ?_⟩, fun _ => ⟨_, ht⟩⟩
      rintro r' hr' hn
      rw [hr, Option.some.injEq] at hr'
      subst hr'
      exact ⟨hcons hn, by rw [ResponseState.finish_handled, hseen]⟩
    · rw [ResponseState.finish, if_pos hskip]
      simp only [hskip, or_false]
      have hidle (hc : s.fring.rspCons = r.rp) : c = s.handled.length := by
        have := h.le
        have := h.handled_le
        have := h.room
        have := z.entries_lt
        refine Ring.ofNat_inj_of_near h.le (by omega) ?_
        rw [← h.rspCons, hc, hrun.rp, hseen]
      refine ⟨⟨fun hp => (hp.2.2 r hr rfl).1, fun hc => (h.stop (hidle hc)).handledOnce _ ?_⟩,
        fun hc => ⟨c, h.stop (hidle hc)⟩⟩
      rintro r' hr' -
      rw [hr, Option.some.injEq] at hr'
      subst hr'
      exact ⟨hc, hseen⟩

/-- The second test of the final check: the run goes on, or it has consumed all. -/
theorem recheck (h : s.InStep z c) (ht : responseStep z s .recheck = some t) :
    HandledOnce s .recheck t ∧ t.InStep z c := by
  cases responseStep_taken ht with
  | @goOn r hr hpc _ =>
    have hrun := h.run r hr
    have hi := h.again (hrun.recheck hpc).1 hrun.flag
    exact ⟨hi.handledOnce _ (fun _ _ hn => by cases hn), hi⟩
  | @leave r hr hpc _ =>
    have hrun := h.run r hr
    obtain ⟨hc, hseen⟩ := hrun.recheck hpc
    refine ⟨(h.stop hc).handledOnce _ ?_, h.stop hc⟩
    rintro r' hr' -
    rw [hr, Option.some.injEq] at hr'
    subst hr'
    exact ⟨by rw [h.rspCons, hrun.rp, hseen, hc], hseen.symm⟩

/-- No other step ends a run of the handler. -/
theorem run_ne_none {a : ResponseAct} (ht : responseStep z s a = some t)
    (hf : a ≠ .finish) (hr : a ≠ .recheck) {r : HandlerRun} (hs : s.run = some r) :
    t.run ≠ none := by
  cases responseStep_taken ht with
  | publish _ => simp [hs]
  | hook _ _ => simp [hs]
  | irq hidle => simp [hs] at hidle
  | iterate _ _ _ => simp
  | finish _ _ _ => exact absurd rfl hf
  | goOn _ _ _ | leave _ _ _ => exact absurd rfl hr

theorem step (h : s.InStep z c) {a : ResponseAct} (ht : responseStep z s a = some t) :
    (HandledOnce s a t ↔ ConsumesBatch s a t) ∧
      (ConsumesBatch s a t → t.Sound z) := by
  have running (hi : t.InStep z c) (hf : a ≠ .finish) (hr : a ≠ .recheck)
      (htrue : ConsumesBatch s a t) :
      (HandledOnce s a t ↔ ConsumesBatch s a t) ∧
        (ConsumesBatch s a t → t.Sound z) := by
    refine ⟨iff_of_true (hi.handledOnce a ?_) htrue, fun _ => ⟨c, hi⟩⟩
    intro r hs hn
    exact absurd hn (run_ne_none ht hf hr hs)
  cases a with
  | publish resp => exact running (h.publish ht) (by simp) (by simp) trivial
  | hook domid k => exact running (h.hook ht) (by simp) (by simp) trivial
  | irq garbage => exact running (h.irq ht) (by simp) (by simp) trivial
  | iterate tasks => exact running (h.iterate ht) (by simp) (by simp) trivial
  | finish => exact h.finish ht
  | recheck =>
    obtain ⟨hp, hi⟩ := h.recheck ht
    exact ⟨iff_of_true hp trivial, fun _ => ⟨c, hi⟩⟩

end ResponseState.InStep

/-- Responses are handled exactly once, in order, and consumed by the run that
handled them, in exactly the runs in which every pass with something to read ends
with the flag cleared. -/
theorem responses_handled_once_iff (z : Ring.Size) (ring : ℕ → Message) (as : List ResponseAct) :
    Lts.Along (responseStep z) HandledOnce (responseStart ring) as ↔
      Lts.Along (responseStep z) ConsumesBatch (responseStart ring) as := by
  have hstart : (responseStart ring).Sound z := ⟨0, .start ring⟩
  refine Lts.along_iff ?_ ?_ hstart as
  · rintro s a t ⟨c, h⟩ ht
    exact (h.step ht).1
  · rintro s a t ⟨c, h⟩ ht
    exact (h.step ht).2

/-- Two interrupts for one response. -/
def loneResponse (resp : Message) : List ResponseAct :=
  [.publish resp, .irq 0, .iterate [7], .finish, .irq 0, .iterate [7], .finish]

def reportOfSeven : Message := { (default : Message) with operation := Op.report, processId := 7 }

/-- A lone `REPORT` leaves the flag set, and the next interrupt queues its pid again. -/
theorem report_handled_twice :
    (Lts.run (responseStep ringSize) (responseStart fun _ => default)
      (loneResponse reportOfSeven)).map (fun t => (t.published, t.effects, t.fring.rspCons)) =
        some ([reportOfSeven], [.report 7, .report 7], 0) ∧
    ¬Lts.Along (responseStep ringSize) HandledOnce (responseStart fun _ => default)
      (loneResponse reportOfSeven) := by
  exact ⟨by decide, by decide⟩

end Maitland
