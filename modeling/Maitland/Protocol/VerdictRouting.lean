import Maitland.Library.Run
import Maitland.Monitor.Driver

/-!
# Where verdicts go

Any number of domains register with the monitor, and the ioctls come in any
order.  A verdict belongs to the last report that has none yet; the driver sends
it through `monitor_share_info`, which is the last registration's.
-/

namespace Maitland

/-- The ring and the event channel of a domain. -/
structure Route where
  ring : Ref
  evtchn : BitVec 32
  deriving DecidableEq

structure RoutingState where
  mon : MonitorState
  /-- The reports without a verdict, the last one first. -/
  unresolved : List ProcessReport
  /-- The latest successful registration of each domain. -/
  route : BitVec 16 → Option Route
  /-- The last `MONITOR_REGISTER`, successful or not. -/
  lastRegister : Option (UspaceInfo × RegisterEnv)
  /-- A verdict has gone through a NULL pointer or an unmapped ring. -/
  crashed : Bool

def Ioctl.IsVerdict : Ioctl → Prop
  | .resume _ | .kill _ => True
  | _ => False

instance (a : Ioctl) : Decidable a.IsVerdict :=
  match a with
  | .resume _ | .kill _ => isTrue trivial
  | .register .. | .report .. | .dump | .doneReport | .watch _ | .deregister | .other =>
    isFalse not_false

/-- What the ioctl means for the reports and the routes. -/
def RoutingState.record (s : RoutingState) (mon : MonitorState) : Ioctl → RoutingState
  | .register arg env => { s with
      mon := mon
      lastRegister := some (arg, env)
      route := if env.Succeeds then
          Function.update s.route (arg.domid.setWidth 16)
            (some ⟨⟨arg.domid.setWidth 16, arg.gref⟩, BitVec.ofInt 32 env.irq⟩)
        else s.route }
  | .report rep _ => { s with mon := mon, unresolved := rep :: s.unresolved }
  | .resume _ | .kill _ => { s with
      mon := mon
      unresolved := if s.mon.currProc = 0 then s.unresolved else s.unresolved.tail }
  | _ => { s with mon := mon }

/-- A run ends with a crash, or with a registration whose domain id is beyond the
table. -/
def routingStep (z : Ring.Size) (s : RoutingState) (a : Ioctl) : Option RoutingState :=
  if s.crashed then none
  else
    match monitorIoctl z s.mon a with
    | some r => some (s.record r.1 a)
    | none => if a.IsVerdict then some { s with crashed := true } else none

def routingStart (page : Ref → Ring.Shared Message) : RoutingState where
  mon := monitorInit page
  unresolved := []
  route := fun _ => none
  lastRegister := none
  crashed := false

/-- A verdict on a reported process is sent, with the pid of the last report without
verdict, to the ring and the channel of the domain that report names. -/
def RoutesVerdict (s : RoutingState) (a : Ioctl) (t : RoutingState) : Prop :=
  a.IsVerdict → s.mon.currProc ≠ 0 →
    ∃ rep v, s.unresolved.head? = some rep ∧ t.mon.sent = s.mon.sent ++ [v] ∧
      v.resp.processId = rep.processId ∧ v.domid.setWidth 32 = rep.domid ∧
      s.route v.domid = some ⟨v.ring, v.evtchn⟩

/-- The last registration succeeded and was that of the domain the last report
without verdict names. -/
def LastRegisteredReported (s : RoutingState) (a : Ioctl) (_ : RoutingState) : Prop :=
  a.IsVerdict → s.mon.currProc ≠ 0 →
    ∃ arg env, s.lastRegister = some (arg, env) ∧ env.Succeeds ∧
      s.unresolved.head?.map ProcessReport.domid = some ((arg.domid.setWidth 16).setWidth 32)

-- ════════════════════════════════════════════════════════════════════════
-- The global share info is the last registration's
-- ════════════════════════════════════════════════════════════════════════

/-- The share info of a registration: with a ring and a channel if it succeeded,
without a ring if not. -/
structure RoutingState.InfoOf (s : RoutingState) (info : ShareInfo) (arg : UspaceInfo)
    (env : RegisterEnv) : Prop where
  domid : info.domid = arg.domid.setWidth 16
  area : ∀ a, info.sring = some a → a < s.mon.areas
  succeeded : env.Succeeds → ∃ ring, s.mon.ringOf info = some ring ∧
    s.route info.domid = some ⟨ring, info.evtchn⟩
  failed : ¬env.Succeeds → s.mon.ringOf info = none

structure RoutingState.Sound (s : RoutingState) : Prop where
  crashed : s.crashed = false
  currProc : s.mon.currProc ≠ 0 →
    ∃ rep rest, s.unresolved = rep :: rest ∧ rep.processId = s.mon.currProc
  unregistered : s.lastRegister = none → s.mon.shareInfo = none
  registered : ∀ arg env, s.lastRegister = some (arg, env) →
    ∃ k info, s.mon.shareInfo = some k ∧ s.mon.infos[k]? = some info ∧ s.InfoOf info arg env

namespace RoutingState.Sound

variable {z : Ring.Size} {s t : RoutingState}

theorem start (page : Ref → Ring.Shared Message) : (routingStart page).Sound where
  crashed := rfl
  currProc h := absurd rfl h
  unregistered _ := rfl
  registered _ _ h := by cases h

theorem register (h : s.Sound) {arg : UspaceInfo} {env : RegisterEnv} {r : MonitorState × Int}
    (hr : monitorIoctl z s.mon (.register arg env) = some r) :
    (s.record r.1 (.register arg env)).Sound := by
  by_cases henv : env.Succeeds
  · obtain rfl := monitorIoctl_register_succeeds henv hr
    refine ⟨h.crashed, h.currProc, (fun hn => by cases hn), ?_⟩
    rintro _ _ ⟨⟩
    refine ⟨s.mon.infos.length, _, rfl, List.getElem?_concat_length, rfl, ?_, ?_,
      fun hn => absurd henv hn⟩
    · rintro a ⟨⟩
      exact Nat.lt_succ_self _
    · intro _
      refine ⟨⟨arg.domid.setWidth 16, arg.gref⟩, ?_, ?_⟩
      · simp [MonitorState.ringOf, record, MonitorState.registered]
      · simp [record, henv, monitorPopulateInfo]
  · have hf := monitorIoctl_register_failed henv hr
    obtain ⟨info, hinfos, hdomid, hring, harea⟩ := hf.info
    refine ⟨h.crashed, ?_, (fun hn => by cases hn), ?_⟩
    · intro hc
      exact hf.currProc ▸ h.currProc (hf.currProc ▸ hc)
    · rintro _ _ ⟨⟩
      refine ⟨s.mon.infos.length, info, hf.shareInfo, ?_, hdomid, harea,
        fun hs => absurd hs henv, fun _ => hring⟩
      exact (congrArg (·[s.mon.infos.length]?) hinfos).trans List.getElem?_concat_length

theorem report (h : s.Sound) (rep : ProcessReport) (granted : Ref → Bool) :
    (s.record (monitorReport granted s.mon (monitorPopulateReport rep))
      (.report rep granted)).Sound := by
  have hm := monitorReport_mapsOnly granted s.mon (monitorPopulateReport rep)
  refine ⟨h.crashed, fun _ => ⟨rep, s.unresolved, rfl, rfl⟩, ?_, ?_⟩
  · intro hn
    exact hm.shareInfo.trans (h.unregistered hn)
  · intro arg env hl
    obtain ⟨k, info, hk, hi, hinfo⟩ := h.registered arg env hl
    have hring : (monitorReport granted s.mon (monitorPopulateReport rep)).ringOf info =
        s.mon.ringOf info := by
      unfold MonitorState.ringOf
      cases hs : info.sring with
      | none => rfl
      | some a => exact hm.mapped a (hinfo.area a hs)
    refine ⟨k, info, hm.shareInfo.trans hk, ?_, hinfo.domid, ?_, ?_, ?_⟩
    · exact (congrArg (·[k]?) hm.infos).trans hi
    · intro a ha
      exact Nat.lt_of_lt_of_le (hinfo.area a ha) hm.areas
    · intro hs
      obtain ⟨ring, hr, hroute⟩ := hinfo.succeeded hs
      exact ⟨ring, hring.trans hr, hroute⟩
    · intro hs
      exact hring.trans (hinfo.failed hs)

/-- Without a usable ring behind the global share info a verdict crashes. -/
theorem verdict_crashes (h : s.Sound) {op : BitVec 32} {garbage : Message}
    (hc : s.mon.currProc ≠ 0)
    (hno : ∀ arg env, s.lastRegister = some (arg, env) → ¬env.Succeeds) :
    monitorVerdict z s.mon op garbage = none := by
  rw [monitorVerdict, if_pos hc, Option.map_eq_none_iff]
  cases hl : s.lastRegister with
  | none =>
    have hk := h.unregistered hl
    simp only [monitorOpProcess, hk, Option.bind_eq_bind, Option.bind_none]
  | some p =>
    obtain ⟨arg, env⟩ := p
    obtain ⟨k, info, hk, hi, hinfo⟩ := h.registered arg env hl
    have hring := hinfo.failed (hno arg env hl)
    simp only [monitorOpProcess, hk, hi, hring, Option.bind_eq_bind, Option.bind_some,
      Option.bind_none]

theorem record_verdict {a : Ioctl} (ha : a.IsVerdict) (hc : s.mon.currProc ≠ 0)
    (mon : MonitorState) :
    s.record mon a = { s with mon := mon, unresolved := s.unresolved.tail } := by
  cases a with
  | resume garbage => simp only [record, if_neg hc]
  | kill garbage => simp only [record, if_neg hc]
  | _ => cases ha

/-- The pushed verdict keeps the invariant: the share info only moves its index. -/
theorem push (h : s.Sound) {k : ℕ} {info : ShareInfo} {ring : Ref}
    (hk : s.mon.shareInfo = some k) (hi : s.mon.infos[k]? = some info) (resp : Message) :
    ({ s with
      mon := { s.mon.push z k info ring resp with currProc := 0 }
      unresolved := s.unresolved.tail } : RoutingState).Sound := by
  refine ⟨h.crashed, fun h0 => absurd rfl h0, h.unregistered, ?_⟩
  intro arg env hl
  obtain ⟨k', info', hk', hi', hinfo⟩ := h.registered arg env hl
  obtain rfl := Option.some.inj (hk.symm.trans hk')
  obtain rfl := Option.some.inj (hi.symm.trans hi')
  obtain ⟨hlt, _⟩ := List.getElem?_eq_some_iff.mp hi
  refine ⟨k, { info with bring := { info.bring with rspProdPvt := info.bring.rspProdPvt + 1 } },
    hk, ?_, hinfo.domid, hinfo.area, hinfo.succeeded, hinfo.failed⟩
  exact List.getElem?_set_self hlt

/-- A verdict on a reported process goes where it should exactly when the last
registration is the reported domain's. -/
theorem verdict_iff (h : s.Sound) {a : Ioctl} (ha : a.IsVerdict) (hc : s.mon.currProc ≠ 0)
    (ht : routingStep z s a = some t) :
    (RoutesVerdict s a t ↔ LastRegisteredReported s a t) ∧
      (LastRegisteredReported s a t → t.Sound) := by
  obtain ⟨op, garbage, hv⟩ : ∃ op garbage,
      monitorIoctl z s.mon a = monitorVerdict z s.mon op garbage := by
    cases a with
    | resume garbage => exact ⟨_, garbage, rfl⟩
    | kill garbage => exact ⟨_, garbage, rfl⟩
    | _ => cases ha
  obtain ⟨rep, rest, hrep, hpid⟩ := h.currProc hc
  simp only [routingStep, h.crashed, Bool.false_eq_true, if_false, hv, ha, if_true] at ht
  by_cases hok : ∃ arg env, s.lastRegister = some (arg, env) ∧ env.Succeeds
  · obtain ⟨arg, env, hl, henv⟩ := hok
    obtain ⟨k, info, hk, hi, hinfo⟩ := h.registered arg env hl
    obtain ⟨ring, hring, hroute⟩ := hinfo.succeeded henv
    simp only [monitorVerdict_eq hc hk hi hring, record_verdict ha hc, Option.some.injEq] at ht
    subst ht
    refine ⟨⟨fun hp => ?_, fun hl' => ?_⟩, fun _ => h.push hk hi _⟩
    · obtain ⟨rep', v, hrep', hsent, _, hdom, _⟩ := hp ha hc
      obtain rfl := List.cons.inj (List.append_cancel_left hsent) |>.1
      refine fun _ _ => ⟨arg, env, hl, henv, ?_⟩
      rw [hrep', Option.map_some, ← hdom, hinfo.domid]
    · obtain ⟨arg', env', hl'', _, hdom⟩ := hl' ha hc
      rw [hl] at hl''
      cases hl''
      rw [hrep, List.head?_cons, Option.map_some, Option.some.injEq] at hdom
      intro _ _
      refine ⟨rep, _, by rw [hrep]; rfl, rfl, hpid.symm, ?_, hroute⟩
      rw [hdom, hinfo.domid]
  · have hno : ∀ arg env, s.lastRegister = some (arg, env) → ¬env.Succeeds :=
      fun arg env hl henv => hok ⟨arg, env, hl, henv⟩
    rw [h.verdict_crashes hc hno, Option.some.injEq] at ht
    subst ht
    have hnc : ¬LastRegisteredReported s a { s with crashed := true } := by
      intro hl
      obtain ⟨arg, env, hl, henv, _⟩ := hl ha hc
      exact hno arg env hl henv
    refine ⟨iff_of_false (fun hp => ?_) hnc, fun hl => absurd hl hnc⟩
    obtain ⟨_, v, _, hsent, _⟩ := hp ha hc
    have := congrArg List.length hsent
    simp at this

theorem step (h : s.Sound) {a : Ioctl} (ht : routingStep z s a = some t) :
    (RoutesVerdict s a t ↔ LastRegisteredReported s a t) ∧
      (LastRegisteredReported s a t → t.Sound) := by
  by_cases hv : a.IsVerdict ∧ s.mon.currProc ≠ 0
  · exact h.verdict_iff hv.1 hv.2 ht
  · have hp : RoutesVerdict s a t := fun ha hc => absurd ⟨ha, hc⟩ hv
    have hl : LastRegisteredReported s a t := fun ha hc => absurd ⟨ha, hc⟩ hv
    refine ⟨iff_of_true hp hl, fun _ => ?_⟩
    have idle (garbage : Message) (op : BitVec 32) (hc : s.mon.currProc = 0) :
        monitorVerdict z s.mon op garbage = some (s.mon, 0) := monitorVerdict_idle hc
    simp only [routingStep, h.crashed, Bool.false_eq_true, if_false] at ht
    cases a with
    | register arg env =>
      cases hr : monitorIoctl z s.mon (.register arg env) with
      | none => simp [hr, Ioctl.IsVerdict] at ht
      | some r =>
        simp only [hr, Option.some.injEq] at ht
        subst ht
        exact h.register hr
    | report rep granted =>
      cases ht
      exact h.report rep granted
    | resume garbage =>
      have hc : s.mon.currProc = 0 := not_not.mp fun hc => hv ⟨trivial, hc⟩
      simp only [monitorIoctl_resume, idle garbage Op.resume hc, Option.some.injEq, record, hc,
        if_true] at ht
      subst ht
      exact h
    | kill garbage =>
      have hc : s.mon.currProc = 0 := not_not.mp fun hc => hv ⟨trivial, hc⟩
      simp only [monitorIoctl_kill, idle garbage Op.kill hc, Option.some.injEq, record, hc,
        if_true] at ht
      subst ht
      exact h
    | watch arg =>
      cases hw : monitorWatch s.mon.domList arg with
      | none => simp [monitorIoctl, hw, Ioctl.IsVerdict] at ht
      | some r =>
        simp only [monitorIoctl, hw, Option.map_some, Option.some.injEq] at ht
        subst ht
        refine ⟨h.crashed, h.currProc, h.unregistered, fun arg env hl => ?_⟩
        obtain ⟨k, info, hk, hi, hinfo⟩ := h.registered arg env hl
        exact ⟨k, info, hk, hi, hinfo.domid, hinfo.area, hinfo.succeeded, hinfo.failed⟩
    | dump | doneReport | deregister | other =>
      cases ht
      exact h

end RoutingState.Sound

/-- Over every sequence of ioctls of any number of domains: every verdict goes to the
domain whose report it answers exactly when every verdict on a reported process
comes while the last registration is that domain's. -/
theorem verdicts_routed_iff (z : Ring.Size) (page : Ref → Ring.Shared Message)
    (as : List Ioctl) :
    Lts.Along (routingStep z) RoutesVerdict (routingStart page) as ↔
      Lts.Along (routingStep z) LastRegisteredReported (routingStart page) as :=
  Lts.along_iff (fun _ _ _ h ht => (h.step ht).1) (fun _ _ _ h ht => (h.step ht).2)
    (RoutingState.Sound.start page) as

/-- Two guests register, process 7 of the first is reported and killed. -/
def twoGuests : List Ioctl :=
  [.register ⟨1, 8, 5⟩ ⟨true, 0, 0, 40⟩, .register ⟨2, 9, 6⟩ ⟨true, 0, 0, 41⟩,
    .report ⟨7, 1, 0, [], [], 0⟩ fun _ => true, .kill default]

/-- The verdict on the first guest's process goes to the second guest. -/
theorem verdict_goes_to_the_last_registered :
    (Lts.run (routingStep ringSize) (routingStart fun _ => Ring.sharedRingInit default)
      twoGuests).map (fun t => t.mon.sent.map fun v => (v.ring, v.evtchn, v.resp.processId)) =
        some [(⟨2, 9⟩, 41, 7)] ∧
    ¬Lts.Along (routingStep ringSize) RoutesVerdict
      (routingStart fun _ => Ring.sharedRingInit default) twoGuests := by
  refine ⟨by decide, fun h => ?_⟩
  obtain ⟨_, h⟩ := h _ rfl
  obtain ⟨_, h⟩ := h _ rfl
  obtain ⟨_, h⟩ := h _ rfl
  obtain ⟨h, _⟩ := h _ rfl
  obtain ⟨rep, v, hrep, hsent, _, hdom, _⟩ := h trivial (by decide)
  obtain rfl := Option.some.inj hrep
  obtain rfl := List.cons.inj hsent |>.1
  exact absurd hdom (by decide)

end Maitland
