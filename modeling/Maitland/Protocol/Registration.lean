import Maitland.Malpage.Hooks
import Maitland.Monitor.Register

/-!
# Events during a registration

The guest's hooks are armed as soon as its registration is in Xenstore, and its
events are delivered as soon as `monitor_register` has bound the channel.  The
handler for the domain runs here round by round between the steps of the registration.
-/

namespace Maitland

/-- What a round of the handler for the domain took, the number it notified and the row
of the domain it found. -/
structure ServedRound where
  req : Message
  evtchn : BitVec 32
  row : Option Row

/-- The locals of the run of the handler. -/
structure RoundLocals where
  rc : Ring.Idx
  rp : Ring.Idx
  resp : Message

structure RegistrationState where
  mon : MonitorState
  pc : RegisterPc
  /-- The guest's private end of the ring. -/
  fring : Ring.Front
  run : Option RoundLocals
  served : List ServedRound

inductive RegistrationAct where
  | register
  | hook (h : Hook)
  | enter (garbage : Message)
  | iterate
  | leave

def UspaceInfo.guest (arg : UspaceInfo) : BitVec 16 := arg.domid.setWidth 16

/-- The page the guest's ring is in. -/
def UspaceInfo.ring (arg : UspaceInfo) : Ref := ⟨arg.guest, arg.gref⟩

section Machine

variable (z : Ring.Size) (arg : UspaceInfo) (env : RegisterEnv) (k : ℕ)

/-- A round of the handler on the `k`-th share info, whose ring is in the page `ring`. -/
def RegistrationState.round (s : RegistrationState) (info : ShareInfo) (ring : Ref)
    (run : RoundLocals) : RegistrationState :=
  let f := irqIterate z s.mon.domList s.mon.reportInProgress
    ⟨s.mon.page ring, info.bring, run.rc, run.rp, run.resp, []⟩
  { s with
    mon := { s.mon.setInfo k { info with bring := f.bring } with
      page := Function.update s.mon.page ring f.sring }
    run := some ⟨f.rc, f.rp, f.resp⟩
    served := s.served ++
      [⟨(s.mon.page ring).get z run.rc, info.evtchn, s.mon.domList info.domid.toNat⟩] }

def registrationStep (s : RegistrationState) : RegistrationAct → Option RegistrationState
  | .register =>
    (monitorRegisterStep env k s.mon s.pc).map fun r => { s with mon := r.1, pc := r.2 }
  | .hook h =>
    let r := h.call z ⟨arg.guest, s.mon.page arg.ring, s.fring⟩
    some { s with
      mon := { s.mon with page := Function.update s.mon.page arg.ring r.1.sring }
      fring := r.1.fring }
  | .enter garbage =>
    if s.pc.Bound ∧ s.run.isNone then do
      let info ← s.mon.infos[k]?
      let ring ← s.mon.ringOf info
      let f := irqEnter (s.mon.page ring) info.bring garbage
      some { s with run := some ⟨f.rc, f.rp, f.resp⟩ }
    else none
  | .iterate => do
    let run ← s.run
    let info ← s.mon.infos[k]?
    let ring ← s.mon.ringOf info
    if run.rc = run.rp ∨ Ring.RequestConsOverflow z info.bring run.rc then none
    else some (s.round z k info ring run)
  | .leave => do
    let run ← s.run
    let info ← s.mon.infos[k]?
    if run.rc = run.rp ∨ Ring.RequestConsOverflow z info.bring run.rc then
      some { s with run := none }
    else none

end Machine

/-- The guest has set up its ring and written its registration, and the ioctl of the
server has allocated the share info. -/
def registrationStart (st : MonitorState) (arg : UspaceInfo) (ring : ℕ → Message) :
    RegistrationState where
  mon := { st with
    infos := st.infos ++ [monitorPopulateInfo arg]
    shareInfo := some st.infos.length
    page := Function.update st.page arg.ring (malpageSetupRing arg.guest ring).sring }
  pc := .map
  fring := (malpageSetupRing arg.guest ring).fring
  run := none
  served := []

/-- Every notification went to the irq of the binding, and every request was judged with
a row of the domain. -/
def RegistrationState.ServedRight (env : RegisterEnv) (s : RegistrationState) : Prop :=
  ∀ r ∈ s.served, r.evtchn = BitVec.ofInt 32 env.irq ∧ r.row.isSome

/-- A round of the handler does not run before the irq is stored, unless the irq has the
number of the remote port, nor before the row is allocated, unless the domain has a row
in `l` from an earlier registration. -/
def RoundAfterRegistration (l : DomList) (arg : UspaceInfo) (env : RegisterEnv)
    (s : RegistrationState) : RegistrationAct → Prop
  | .iterate =>
    (s.pc = .store → arg.evtchn = BitVec.ofInt 32 env.irq) ∧
      (s.pc = .store ∨ s.pc = .row → (l arg.guest.toNat).isSome)
  | _ => True

/-! ## What the handler finds -/

/-- `info->evtchn` at a place of the registration. -/
def RegisterPc.evtchn (arg : UspaceInfo) (env : RegisterEnv) : RegisterPc → BitVec 32
  | .row => BitVec.ofInt 32 env.irq
  | .returned value => if value = 0 then BitVec.ofInt 32 env.irq else arg.evtchn
  | _ => arg.evtchn

/-- The row of the domain at a place of the registration. -/
def RegisterPc.rowOf (l : DomList) (arg : UspaceInfo) : RegisterPc → Option Row
  | .returned value => if value = 0 then some Row.zero else l arg.guest.toNat
  | _ => l arg.guest.toNat

/-- The share info and the table are as the place of the registration says. -/
structure RegistrationState.Found (l : DomList) (arg : UspaceInfo) (env : RegisterEnv) (k : ℕ)
    (s : RegistrationState) (info : ShareInfo) : Prop where
  lookup : s.mon.infos[k]? = some info
  domid : info.domid = arg.guest
  evtchn : info.evtchn = s.pc.evtchn arg env
  row : s.mon.domList arg.guest.toNat = s.pc.rowOf l arg
  bound : s.run.isSome → s.pc.Bound

section Steps

variable {z : Ring.Size} {l : DomList} {arg : UspaceInfo} {env : RegisterEnv} {k : ℕ}
variable {s t : RegistrationState} {info : ShareInfo}

/-- What a step does when the share info is `info`. -/
inductive RegistrationTaken (z : Ring.Size) (arg : UspaceInfo) (env : RegisterEnv) (k : ℕ)
    (s : RegistrationState) (info : ShareInfo) : RegistrationAct → RegistrationState → Prop
  | register {mon : MonitorState} {pc : RegisterPc} :
      RegisterTaken env k s.mon info s.pc mon pc →
      RegistrationTaken z arg env k s info .register { s with mon := mon, pc := pc }
  | hook {h : Hook} {fe : FrontEnd} :
      (h.call z ⟨arg.guest, s.mon.page arg.ring, s.fring⟩).1 = fe →
      RegistrationTaken z arg env k s info (.hook h) { s with
        mon := { s.mon with page := Function.update s.mon.page arg.ring fe.sring }
        fring := fe.fring }
  | enter {garbage : Message} {ring : Ref} :
      s.pc.Bound → s.mon.ringOf info = some ring →
      RegistrationTaken z arg env k s info (.enter garbage)
        { s with run := some ⟨info.bring.reqCons, (s.mon.page ring).reqProd, garbage⟩ }
  | iterate {run : RoundLocals} {ring : Ref} :
      s.run = some run → s.mon.ringOf info = some ring → run.rc ≠ run.rp →
      RegistrationTaken z arg env k s info .iterate (s.round z k info ring run)
  | leave : s.run.isSome → RegistrationTaken z arg env k s info .leave { s with run := none }

theorem registrationStep_taken (hinfo : s.mon.infos[k]? = some info) {a : RegistrationAct}
    (ht : registrationStep z arg env k s a = some t) :
    RegistrationTaken z arg env k s info a t := by
  cases a with
  | register =>
    obtain ⟨⟨mon, pc⟩, hr, rfl⟩ := Option.map_eq_some_iff.mp ht
    exact .register (monitorRegisterStep_taken hinfo hr)
  | hook h =>
    cases ht
    exact .hook rfl
  | enter garbage =>
    simp only [registrationStep, hinfo, Option.bind_eq_bind, Option.bind_some] at ht
    split at ht
    · next hb =>
      obtain ⟨ring, hring, ht⟩ := Option.bind_eq_some_iff.mp ht
      cases ht
      exact .enter hb.1 hring
    · cases ht
  | iterate =>
    simp only [registrationStep, hinfo, Option.bind_eq_bind, Option.bind_some] at ht
    obtain ⟨run, hrun, ht⟩ := Option.bind_eq_some_iff.mp ht
    obtain ⟨ring, hring, ht⟩ := Option.bind_eq_some_iff.mp ht
    split at ht
    · cases ht
    · next hmore =>
      cases ht
      exact .iterate hrun hring fun hend => hmore (.inl hend)
  | leave =>
    simp only [registrationStep, hinfo, Option.bind_eq_bind, Option.bind_some] at ht
    obtain ⟨run, hrun, ht⟩ := Option.bind_eq_some_iff.mp ht
    split at ht
    · cases ht
      exact .leave (by simp [hrun])
    · cases ht

theorem RegistrationState.Found.start (st : MonitorState) (arg : UspaceInfo) (env : RegisterEnv)
    (ring : ℕ → Message) :
    (registrationStart st arg ring).Found st.domList arg env st.infos.length
      (monitorPopulateInfo arg) where
  lookup := by simp [registrationStart]
  domid := rfl
  evtchn := rfl
  row := rfl
  bound := by simp [registrationStart]

/-- The registration goes on: what the handler finds moves with its place. -/
theorem RegistrationState.Found.register (h : s.Found l arg env k info)
    (ht : registrationStep z arg env k s .register = some t) :
    ∃ info', t.Found l arg env k info' := by
  obtain ⟨mon, pc, fring, run, served⟩ := s
  obtain ⟨hlookup, hdomid, hevtchn, hrow, hbound⟩ := h
  cases registrationStep_taken hlookup ht with
  | register hr =>
    cases hr with
    | noArea _ | mapFailed _ | mapped _ _ _ | bindFailed _ _ | bound _ _ =>
      -- before the binding no run of the handler is under way
      exact ⟨info, hlookup, hdomid, hevtchn, hrow, fun hrun => (hbound hrun).elim⟩
    | ringInit area =>
      exact ⟨_, getElem?_setInfo hlookup _, hdomid, hevtchn, hrow, fun hrun => (hbound hrun).elim⟩
    | stored => exact ⟨_, getElem?_setInfo hlookup _, hdomid, rfl, hrow, fun _ => trivial⟩
    | row _ =>
      refine ⟨info, hlookup, hdomid, hevtchn, ?_, fun _ => rfl⟩
      simp only [hdomid, Function.update_self, RegisterPc.rowOf, if_true]

/-- A round of the handler notes what it found. -/
theorem RegistrationState.Found.iterate (h : s.Found l arg env k info)
    (ht : registrationStep z arg env k s .iterate = some t) :
    s.pc.Bound ∧ (∃ info', t.Found l arg env k info') ∧
      ∃ req, t.served = s.served ++ [⟨req, s.pc.evtchn arg env, s.pc.rowOf l arg⟩] := by
  cases registrationStep_taken h.lookup ht with
  | @iterate run ring hrun _ _ =>
    have hb : s.pc.Bound := h.bound (by simp [hrun])
    refine ⟨hb, ⟨_, getElem?_setInfo h.lookup _, h.domid, h.evtchn, h.row, fun _ => hb⟩,
      (s.mon.page ring).get z run.rc, ?_⟩
    rw [← h.evtchn, ← h.row, ← h.domid]
    rfl

/-- Everything else leaves the rounds and what the handler finds as they are. -/
theorem RegistrationState.Found.other (h : s.Found l arg env k info) {a : RegistrationAct}
    (hreg : a ≠ .register) (hit : a ≠ .iterate)
    (ht : registrationStep z arg env k s a = some t) :
    t.Found l arg env k info ∧ t.served = s.served := by
  cases registrationStep_taken h.lookup ht with
  | register _ => exact absurd rfl hreg
  | iterate _ _ _ => exact absurd rfl hit
  | hook _ => exact ⟨⟨h.lookup, h.domid, h.evtchn, h.row, h.bound⟩, rfl⟩
  | enter hb _ => exact ⟨⟨h.lookup, h.domid, h.evtchn, h.row, fun _ => hb⟩, rfl⟩
  | leave _ => exact ⟨⟨h.lookup, h.domid, h.evtchn, h.row, by simp⟩, rfl⟩

/-- With the channel bound, the two places at which a round comes too early. -/
theorem RegisterPc.Bound.found_iff {pc : RegisterPc} (hb : pc.Bound) :
    (pc.evtchn arg env = BitVec.ofInt 32 env.irq ∧ (pc.rowOf l arg).isSome) ↔
      (pc = .store → arg.evtchn = BitVec.ofInt 32 env.irq) ∧
        (pc = .store ∨ pc = .row → (l arg.guest.toNat).isSome) := by
  cases pc with
  | map | ringInit area | bind area => exact absurd hb id
  | store => simp [evtchn, rowOf]
  | row => simp [evtchn, rowOf]
  | returned value =>
    obtain rfl : value = 0 := hb
    simp [evtchn, rowOf]

/-- While all rounds so far were served right, a step keeps to that exactly when it is no
round that comes too early. -/
theorem RegistrationState.Found.servedRight_iff (h : s.Found l arg env k info)
    (hs : s.ServedRight env) {a : RegistrationAct}
    (ht : registrationStep z arg env k s a = some t) :
    t.ServedRight env ↔ RoundAfterRegistration l arg env s a := by
  cases a with
  | iterate =>
    obtain ⟨hb, _, req, hserved⟩ := h.iterate ht
    refine Iff.trans ?_ hb.found_iff
    unfold ServedRight
    rw [hserved, List.forall_mem_append, List.forall_mem_singleton]
    exact and_iff_right hs
  | register =>
    obtain ⟨r, _, rfl⟩ := Option.map_eq_some_iff.mp ht
    exact iff_of_true hs trivial
  | hook _ | enter _ | leave =>
    obtain ⟨_, hserved⟩ := h.other (by simp) (by simp) ht
    refine iff_of_true ?_ trivial
    unfold ServedRight
    rwa [hserved]

theorem RegistrationState.Found.step (h : s.Found l arg env k info) {a : RegistrationAct}
    (ht : registrationStep z arg env k s a = some t) : ∃ info', t.Found l arg env k info' := by
  cases a with
  | iterate => exact (h.iterate ht).2.1
  | register => exact h.register ht
  | hook _ | enter _ | leave => exact ⟨info, (h.other (by simp) (by simp) ht).1⟩

end Steps

-- ════════════════════════════════════════════════════════════════════════
-- A guest that waits
-- ════════════════════════════════════════════════════════════════════════

/-- The guest calls no hook until its registration is through. -/
def HookAfterRegistration (s : RegistrationState) : RegistrationAct → Prop
  | .hook _ => s.pc = .returned 0
  | _ => True

/-- Nothing has gone over the ring, whose page is in place from the mapping on. -/
structure RegistrationState.Untouched (arg : UspaceInfo) (s : RegistrationState)
    (info : ShareInfo) : Prop where
  gref : info.gref = arg.gref
  reqProd : (s.mon.page arg.ring).reqProd = 0
  reqCons : info.bring.reqCons = 0
  run : ∀ run ∈ s.run, run.rc = run.rp
  unmapped : s.pc = .map → info.sring = none
  mapped : ∀ a, s.pc = .ringInit a → info.sring = none ∧ s.mon.mapped a = some arg.ring
  ring : ∀ a ∈ info.sring, ∀ r ∈ s.mon.mapped a, r = arg.ring

section Waiting

variable {z : Ring.Size} {l : DomList} {arg : UspaceInfo} {env : RegisterEnv} {k : ℕ}
variable {s t : RegistrationState} {info : ShareInfo}

theorem RegistrationState.Untouched.register (h : s.Untouched arg info)
    (hf : s.Found l arg env k info) (ht : registrationStep z arg env k s .register = some t) :
    ∃ info', t.mon.infos[k]? = some info' ∧ t.Untouched arg info' := by
  obtain ⟨mon, pc, fring, run, served⟩ := s
  obtain ⟨hlookup, hdomid, _, _, _⟩ := hf
  obtain ⟨hgref, hprod, hcons, hrun, hunmapped, hmapped, hring⟩ := h
  cases registrationStep_taken hlookup ht with
  | register hr =>
    cases hr with
    | noArea _ | mapFailed _ =>
      exact ⟨info, hlookup, hgref, hprod, hcons, hrun, by simp, by simp, hring⟩
    | mapped _ _ _ =>
      have hs := hunmapped rfl
      refine ⟨info, hlookup, hgref, hprod, hcons, hrun, by simp, ?_, by simp [hs]⟩
      rintro a ⟨⟩
      exact ⟨hs, by simp only [Function.update_self, hdomid, hgref, UspaceInfo.ring]⟩
    | ringInit area =>
      have hm := (hmapped area rfl).2
      refine ⟨_, getElem?_setInfo hlookup _, hgref, hprod, rfl, hrun, by simp, by simp, ?_⟩
      rintro a ⟨⟩ r hr
      exact Option.some.inj (hr.symm.trans hm)
    | bindFailed area _ =>
      refine ⟨info, hlookup, hgref, hprod, hcons, hrun, by simp, by simp, ?_⟩
      intro a ha r hr
      by_cases haa : a = area
      · simp [haa] at hr
      · simp only [Function.update_of_ne haa] at hr
        exact hring a ha r hr
    | bound _ _ | row _ =>
      exact ⟨info, hlookup, hgref, hprod, hcons, hrun, by simp, by simp, hring⟩
    | stored =>
      exact ⟨_, getElem?_setInfo hlookup _, hgref, hprod, hcons, hrun, by simp, by simp, hring⟩

/-- An event finds nothing to read, and a run of the handler ends before its first round. -/
theorem RegistrationState.Untouched.step (h : s.Untouched arg info)
    (hf : s.Found l arg env k info) (hpc : s.pc ≠ .returned 0) {a : RegistrationAct}
    (ha : HookAfterRegistration s a) (ht : registrationStep z arg env k s a = some t) :
    a ≠ .iterate ∧ ∃ info', t.mon.infos[k]? = some info' ∧ t.Untouched arg info' := by
  have hl := hf.lookup
  cases registrationStep_taken hl ht with
  | register _ => exact ⟨by simp, h.register hf ht⟩
  | hook _ => exact absurd ha hpc
  | enter _ hring =>
    obtain ⟨area, harea, hmap⟩ := Option.bind_eq_some_iff.mp hring
    obtain rfl := h.ring area harea _ hmap
    refine ⟨by simp, info, hl, h.gref, h.reqProd, h.reqCons, ?_, h.unmapped, h.mapped, h.ring⟩
    rintro run ⟨⟩
    exact h.reqCons.trans h.reqProd.symm
  | iterate hrun _ hmore => exact absurd (h.run _ hrun) hmore
  | leave _ =>
    exact ⟨by simp, info, hl, h.gref, h.reqProd, h.reqCons, by simp, h.unmapped, h.mapped, h.ring⟩

/-- A registration that is through stays so. -/
theorem RegistrationState.Found.returned (h : s.Found l arg env k info) {value : Int}
    (hpc : s.pc = .returned value) {a : RegistrationAct}
    (ht : registrationStep z arg env k s a = some t) : t.pc = .returned value := by
  cases registrationStep_taken h.lookup ht with
  | register hr =>
    rw [hpc] at hr
    cases hr
  | hook _ | enter _ _ | iterate _ _ _ | leave _ => exact hpc

end Waiting

/-- A guest that waits causes no round before its registration is through. -/
theorem waiting_guest_causes_no_early_round (z : Ring.Size) (st : MonitorState)
    (arg : UspaceInfo) (env : RegisterEnv) (ring : ℕ → Message) {as : List RegistrationAct}
    (hwait : Lts.Along (registrationStep z arg env st.infos.length)
      (fun s a _ => HookAfterRegistration s a) (registrationStart st arg ring) as) :
    Lts.Along (registrationStep z arg env st.infos.length)
      (fun s a _ => RoundAfterRegistration st.domList arg env s a)
      (registrationStart st arg ring) as := by
  refine @Lts.Along.of_invariant _ _ _ _ _ (fun s => ∃ info,
    s.Found st.domList arg env st.infos.length info ∧
      (s.pc ≠ .returned 0 → s.Untouched arg info)) ?_ _ _ ⟨monitorPopulateInfo arg, ?_, ?_⟩ hwait
  · rintro s a t ⟨info, hf, h⟩ ht ha
    by_cases hpc : s.pc = .returned 0
    · refine ⟨?_, ?_⟩
      · cases a <;> simp [RoundAfterRegistration, hpc]
      · obtain ⟨info', hf'⟩ := hf.step ht
        refine ⟨info', hf', fun hne => absurd ?_ hne⟩
        exact hf.returned hpc ht
    · obtain ⟨hit, info', hl, h'⟩ := (h hpc).step hf hpc ha ht
      obtain ⟨info'', hf'⟩ := hf.step ht
      obtain rfl : info' = info'' := Option.some.inj (hl.symm.trans hf'.lookup)
      refine ⟨?_, info', hf', fun _ => h'⟩
      cases a with
      | iterate => exact absurd rfl hit
      | _ => trivial
  · exact RegistrationState.Found.start st arg env ring
  · intro _
    exact ⟨rfl, by simp [registrationStart, malpageSetupRing, Ring.sharedRingInit], rfl,
      by simp [registrationStart], fun _ => rfl, by simp [registrationStart],
      by simp [monitorPopulateInfo]⟩

/-- Events are served as they should be in exactly the runs in which no round of the
handler comes between the binding and the end of the registration (where the numbers
do not happen to agree and the domain has no row from before); so in all runs in which
the guest waits. -/
theorem registration_before_events_iff (z : Ring.Size) (st : MonitorState) (arg : UspaceInfo)
    (env : RegisterEnv) (ring : ℕ → Message) (as : List RegistrationAct) :
    (Lts.Along (registrationStep z arg env st.infos.length) (fun _ _ t => t.ServedRight env)
        (registrationStart st arg ring) as ↔
      Lts.Along (registrationStep z arg env st.infos.length)
        (fun s a _ => RoundAfterRegistration st.domList arg env s a)
        (registrationStart st arg ring) as) ∧
    (Lts.Along (registrationStep z arg env st.infos.length)
        (fun s a _ => HookAfterRegistration s a) (registrationStart st arg ring) as →
      Lts.Along (registrationStep z arg env st.infos.length) (fun _ _ t => t.ServedRight env)
        (registrationStart st arg ring) as) := by
  have hstart := RegistrationState.Found.start st arg env ring
  have hnone : (registrationStart st arg ring).ServedRight env := by
    simp [RegistrationState.ServedRight, registrationStart]
  have hiff : Lts.Along (registrationStep z arg env st.infos.length)
        (fun _ _ t => t.ServedRight env) (registrationStart st arg ring) as ↔
      Lts.Along (registrationStep z arg env st.infos.length)
        (fun s a _ => RoundAfterRegistration st.domList arg env s a)
        (registrationStart st arg ring) as := by
    refine @Lts.along_iff _ _ _ _ _ (fun s => s.ServedRight env ∧
      ∃ info, s.Found st.domList arg env st.infos.length info) ?_ ?_ _ ⟨hnone, _, hstart⟩ as
    · rintro s a t ⟨hs, info, h⟩ ht
      exact h.servedRight_iff hs ht
    · rintro s a t ⟨hs, info, h⟩ ht hc
      exact ⟨(h.servedRight_iff hs ht).mpr hc, h.step ht⟩
  refine ⟨hiff, fun hwait => hiff.mpr ?_⟩
  exact waiting_guest_causes_no_early_round z st arg env ring hwait

/-- Domain 1 registers with the remote port 5, which is bound as irq 40. -/
def busyGuest : UspaceInfo := ⟨1, 8, 5⟩

def boundToForty : RegisterEnv := ⟨true, 0, 0, 40⟩

/-- The guest faults before the registration, and its event comes in right after the
binding: the request is judged without a row, and the answer is notified on the number of
the remote port. -/
theorem event_overtakes_registration :
    ∃ s, Lts.run (registrationStep ringSize busyGuest boundToForty 0)
        (registrationStart (monitorInit fun _ => Ring.sharedRingInit fun _ => default) busyGuest
          fun _ => default)
        [.hook (.doPageFault 7 4096 20), .register, .register, .register, .enter default,
          .iterate] = some s ∧
      s.served.map (fun r => (r.req.operation, r.evtchn, r.row.isSome)) =
        [(Op.nxviolation, 5, false)] ∧
      ¬s.ServedRight boundToForty := by
  refine ⟨_, rfl, by decide, ?_⟩
  intro h
  have hfirst := h _ List.mem_cons_self
  revert hfirst
  decide

end Maitland
