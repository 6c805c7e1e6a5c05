import Maitland.Library.Run
import Maitland.Monitor.Driver

/-!
# The watch table over whole runs

Ioctls, interrupts and guests that write what they like on their ring pages come
in any order.  What the monitor answers is a matter of the registrations and
watches alone: the table is the history of both.
-/

namespace Maitland

inductive MonitorAct where
  | ioctl (a : Ioctl)
  /-- A guest leaves new contents in one of its pages. -/
  | guest (ref : Ref) (page : Ring.Shared Message)
  | irq (k : ℕ) (garbage : Message)

def monitorStep (z : Ring.Size) (st : MonitorState) : MonitorAct → Option MonitorState
  | .ioctl a => (monitorIoctl z st a).map Prod.fst
  | .guest ref page => some { st with page := Function.update st.page ref page }
  | .irq k garbage => (monitorIrq z st k garbage).map Prod.fst

/-- What enters the history: successful registrations and watches. -/
inductive WatchEvent where
  | register (domid : ℕ)
  | watch (domid processId : ℕ)
  deriving DecidableEq

def MonitorAct.event : MonitorAct → Option WatchEvent
  | .ioctl (.register arg env) =>
    if env.Succeeds then some (.register (arg.domid.setWidth 16).toNat) else none
  | .ioctl (.watch arg) => some (.watch arg.domid.toNat arg.processId.toNat)
  | _ => none

/-- The process was watched after the latest registration of its domain. -/
def WatchedSince (h : List WatchEvent) (domid processId : ℕ) : Prop :=
  ∃ before after, h = before ++ .register domid :: after ∧ .register domid ∉ after ∧
    .watch domid processId ∈ after

/-- The request names a domain in range and one of its watched processes. -/
def NamesWatched (h : List WatchEvent) (req : Message) : Prop :=
  DomidInRange req.domid ∧ WatchedSince h req.domid.toNat req.processId.toNat

/-- The response to a request, by the history. -/
structure AnswersBy (h : List WatchEvent) (e : Exchange) : Prop where
  nx : (e.resp.operation = Op.nx ∧ e.resp.processId = e.req.processId ∧
      e.resp.domid = e.req.domid ∧ e.resp.mmuPtr = e.req.mmuPtr ∧ e.resp.mmuVal = e.req.mmuVal) ↔
    e.req.operation = Op.mmuupdate ∧ NamesWatched h e.req
  report : (e.resp.operation = Op.report ∧ e.resp.processId = e.req.processId ∧
      e.resp.domid = e.req.domid) ↔
    e.req.operation = Op.nxviolation ∧ NamesWatched h e.req
  nonop : e.resp.operation = Op.nonop ↔
    ¬((e.req.operation = Op.mmuupdate ∨ e.req.operation = Op.nxviolation) ∧ NamesWatched h e.req)

/-- A registered domain has a latest registration. -/
theorem exists_latest_register {h : List WatchEvent} {d : ℕ} (hd : .register d ∈ h) :
    ∃ before after, h = before ++ .register d :: after ∧ WatchEvent.register d ∉ after := by
  obtain ⟨after, before, hr, hn⟩ := List.eq_append_cons_of_mem (List.mem_reverse.mpr hd)
  refine ⟨before.reverse, after.reverse, ?_, by rwa [List.mem_reverse]⟩
  rw [← List.reverse_reverse h, hr]
  simp

theorem watchedSince_register {h : List WatchEvent} {d d' p : ℕ} :
    WatchedSince (h ++ [.register d']) d p ↔ d' ≠ d ∧ WatchedSince h d p := by
  constructor
  · rintro ⟨before, after, he, hn, hw⟩
    rcases Lts.snoc_eq_split_iff.mp he with ⟨_, _, rfl⟩ | ⟨after', rfl, rfl⟩
    · cases hw
    · simp only [List.mem_append, List.mem_singleton, WatchEvent.register.injEq, not_or,
        reduceCtorEq, or_false] at hn hw
      exact ⟨Ne.symm hn.2, before, after', rfl, hn.1, hw⟩
  · rintro ⟨hne, before, after, rfl, hn, hw⟩
    refine ⟨before, after ++ [.register d'], by simp, ?_, by simp [hw]⟩
    simp [hn, Ne.symm hne]

theorem watchedSince_watch {h : List WatchEvent} {d d' p p' : ℕ} :
    WatchedSince (h ++ [.watch d' p']) d p ↔
      WatchedSince h d p ∨ (d' = d ∧ p' = p ∧ .register d ∈ h) := by
  constructor
  · rintro ⟨before, after, he, hn, hw⟩
    rcases Lts.snoc_eq_split_iff.mp he with ⟨h0, _⟩ | ⟨after', rfl, rfl⟩
    · cases h0
    · simp only [List.mem_append, List.mem_singleton, WatchEvent.watch.injEq, not_or,
        reduceCtorEq, not_false_eq_true, and_true] at hn hw
      rcases hw with hw | ⟨rfl, rfl⟩
      · exact .inl ⟨before, after', rfl, hn, hw⟩
      · exact .inr ⟨rfl, rfl, by simp⟩
  · rintro (⟨before, after, rfl, hn, hw⟩ | ⟨rfl, rfl, hd⟩)
    · exact ⟨before, after ++ [.watch d' p'], by simp, by simp [hn], by simp [hw]⟩
    · obtain ⟨before, after, rfl, hn⟩ := exists_latest_register hd
      exact ⟨before, after ++ [.watch d' p'], by simp, by simp [hn], by simp⟩

structure MonitorState.TableOf (st : MonitorState) (h : List WatchEvent) : Prop where
  registered : ∀ d, st.domList d = none ↔ .register d ∉ h
  watched : ∀ d p, Watched st.domList d p ↔ WatchedSince h d p
  idle : st.reportInProgress = 0

namespace MonitorState.TableOf

variable {z : Ring.Size} {st st' : MonitorState} {h : List WatchEvent}

theorem init (page : Ref → Ring.Shared Message) : (monitorInit page).TableOf [] where
  registered d := by simp [monitorInit, DomList.init]
  watched d p := by simp [monitorInit, DomList.init, Watched, WatchedSince]
  idle := rfl

theorem congr (ht : st.TableOf h) (hl : st'.domList = st.domList)
    (hr : st'.reportInProgress = st.reportInProgress) : st'.TableOf h :=
  ⟨by rw [hl]; exact ht.registered, by rw [hl]; exact ht.watched, hr.trans ht.idle⟩

theorem register (ht : st.TableOf h) (arg : UspaceInfo) (irq : Int) :
    (st.registered arg irq).TableOf (h ++ [.register (arg.domid.setWidth 16).toNat]) := by
  generalize hd : (arg.domid.setWidth 16).toNat = d'
  have hl : (st.registered arg irq).domList = Function.update st.domList d' (some Row.zero) := by
    rw [← hd]
    rfl
  refine ⟨fun d => ?_, fun d p => ?_, ht.idle⟩
  · rw [hl]
    by_cases he : d = d'
    · subst he
      simp
    · rw [Function.update_of_ne he, ht.registered]
      simp [he]
  · rw [hl, watchedSince_register, ← ht.watched]
    by_cases he : d = d'
    · subst he
      simp [Watched, Row.zero]
    · simp [Watched, Function.update_of_ne he, Ne.symm he]

theorem watch (ht : st.TableOf h) {arg : WatchReport} {r : DomList × Int}
    (hw : monitorWatch st.domList arg = some r) :
    ({ st with domList := r.1 } : MonitorState).TableOf
      (h ++ [.watch arg.domid.toNat arg.processId.toNat]) := by
  have hd : arg.domid.toNat < monitorMaxVms := by
    by_contra hd
    simp [monitorWatch, hd] at hw
  cases hrow : st.domList arg.domid.toNat with
  | none =>
    rw [monitorWatch_unregistered hd hrow, Option.some.injEq] at hw
    subst hw
    refine ⟨fun d => ?_, fun d p => ?_, ht.idle⟩
    · rw [ht.registered]
      simp
    · rw [watchedSince_watch, ht.watched]
      constructor
      · exact .inl
      · rintro (hs | ⟨rfl, _, hreg⟩)
        · exact hs
        · exact absurd hreg ((ht.registered _).mp hrow)
  | some row =>
    have hp : arg.processId.toNat < monitorMaxProcs := by
      by_contra hp
      simp [monitorWatch, hd, hrow, hp] at hw
    rw [monitorWatch_registered hd hp hrow, Option.some.injEq] at hw
    subst hw
    have hreg : .register arg.domid.toNat ∈ h := by
      by_contra hn
      rw [(ht.registered _).mpr hn] at hrow
      cases hrow
    refine ⟨fun d => ?_, fun d p => ?_, ht.idle⟩
    · by_cases he : d = arg.domid.toNat
      · subst he
        simp [hreg]
      · simp [Function.update_of_ne he, ht.registered]
    · rw [watchedSince_watch, ← ht.watched]
      by_cases he : d = arg.domid.toNat
      · subst he
        by_cases hpe : p = arg.processId.toNat
        · subst hpe
          simp [Watched, hp, hreg]
        · simp [Watched, hrow, Function.update_of_ne hpe, Ne.symm hpe]
      · simp [Watched, Function.update_of_ne he, Ne.symm he]

theorem ioctl (ht : st.TableOf h) {a : Ioctl} {r : MonitorState × Int}
    (hr : monitorIoctl z st a = some r) :
    r.1.TableOf (h ++ (MonitorAct.ioctl a).event.toList) := by
  cases a with
  | register arg env =>
    by_cases henv : env.Succeeds
    · obtain rfl := monitorIoctl_register_succeeds henv hr
      simp only [MonitorAct.event, henv, if_true, Option.toList_some]
      exact ht.register arg env.irq
    · have hf := monitorIoctl_register_failed henv hr
      simp only [MonitorAct.event, henv, if_false, Option.toList_none, List.append_nil]
      exact ht.congr hf.domList hf.reportInProgress
  | report rep granted =>
    have hm := monitorReport_mapsOnly granted st (monitorPopulateReport rep)
    cases hr
    simpa [MonitorAct.event] using ht.congr hm.domList hm.reportInProgress
  | watch arg =>
    obtain ⟨w, hw, rfl⟩ := Option.map_eq_some_iff.mp hr
    exact ht.watch hw
  | resume garbage =>
    have hf := monitorVerdict_frame hr
    simpa [MonitorAct.event] using ht.congr hf.1 hf.2
  | kill garbage =>
    have hf := monitorVerdict_frame hr
    simpa [MonitorAct.event] using ht.congr hf.1 hf.2
  | dump | doneReport | deregister | other =>
    cases hr
    simpa [MonitorAct.event] using ht

theorem step (ht : st.TableOf h) {a : MonitorAct} (hs : monitorStep z st a = some st') :
    st'.TableOf (h ++ a.event.toList) := by
  cases a with
  | ioctl a =>
    obtain ⟨r, hr, rfl⟩ := Option.map_eq_some_iff.mp hs
    exact ht.ioctl hr
  | guest ref page =>
    cases hs
    simp only [MonitorAct.event, Option.toList_none, List.append_nil]
    exact ht.congr rfl rfl
  | irq k garbage =>
    obtain ⟨r, hr, rfl⟩ := Option.map_eq_some_iff.mp hs
    have hf := monitorIrq_frame hr
    simpa [MonitorAct.event] using ht.congr hf.1 hf.2.1

/-- An interrupt answers every request by the history. -/
theorem answersBy (ht : st.TableOf h) {e : Exchange} {resp : Message}
    (he : e.resp = monitorAnswer st.domList st.reportInProgress e.req resp) : AnswersBy h e := by
  have heq : NamesWatched h e.req ↔ Eligible st.domList e.req := by
    rw [NamesWatched, Eligible, ht.watched]
  rw [ht.idle] at he
  by_cases hw : Eligible st.domList e.req
  · by_cases hm : e.req.operation = Op.mmuupdate
    · rw [monitorAnswer_nx hm hw] at he
      constructor <;> simp [he, hm, heq, hw, Op.nx, Op.report, Op.nonop, Op.mmuupdate,
        Op.nxviolation]
    · by_cases hn : e.req.operation = Op.nxviolation
      · rw [monitorAnswer_report hn hw] at he
        constructor <;> simp [he, hn, heq, hw, Op.nx, Op.report, Op.nonop, Op.mmuupdate,
          Op.nxviolation]
      · have ho := monitorAnswer_nonop 0 resp
          (fun hc : (e.req.operation = Op.mmuupdate ∨ e.req.operation = Op.nxviolation) ∧
            Eligible st.domList e.req => hc.1.elim hm hn)
        rw [← he] at ho
        constructor <;> simp [ho, hm, hn, Op.nx, Op.report, Op.nonop]
  · have ho := monitorAnswer_nonop 0 resp
      (fun hc : (e.req.operation = Op.mmuupdate ∨ e.req.operation = Op.nxviolation) ∧
        Eligible st.domList e.req => hw hc.2)
    rw [← he] at ho
    constructor <;> simp [ho, heq, hw, Op.nx, Op.report, Op.nonop]

end MonitorState.TableOf

/-- Every run leaves the table its history asks for. -/
theorem monitor_tableOf {z : Ring.Size} {page : Ref → Ring.Shared Message} {as : List MonitorAct}
    {st : MonitorState} (hr : Lts.run (monitorStep z) (monitorInit page) as = some st) :
    st.TableOf (as.filterMap MonitorAct.event) := by
  refine Lts.run_history (fun as st => st.TableOf (as.filterMap MonitorAct.event))
    (fun as s a t h hs => ?_) hr (MonitorState.TableOf.init page)
  rw [List.filterMap_append]
  cases he : a.event <;> simpa [he] using h.step hs

/-- In every state the monitor reaches, each request of an interrupt is answered by
the history of registrations and watches, no report is in progress, and a watch of
an unregistered domain changes nothing. -/
theorem watch_table_semantics (z : Ring.Size) (page : Ref → Ring.Shared Message)
    (as : List MonitorAct) (st : MonitorState)
    (hr : Lts.run (monitorStep z) (monitorInit page) as = some st) :
    (∀ k garbage r, monitorIrq z st k garbage = some r →
      ∀ e ∈ r.2, AnswersBy (as.filterMap MonitorAct.event) e) ∧
    st.reportInProgress = 0 ∧
    ∀ arg : WatchReport, arg.domid.toNat < monitorMaxVms →
      .register arg.domid.toNat ∉ as.filterMap MonitorAct.event →
      monitorIoctl z st (.watch arg) = some (st, 0) := by
  have ht := monitor_tableOf hr
  refine ⟨?_, ht.idle, ?_⟩
  · intro k garbage r hirq e he
    obtain ⟨resp, hresp⟩ := (monitorIrq_frame hirq).2.2 e he
    exact ht.answersBy hresp
  · intro arg hd hn
    have hw := monitorWatch_unregistered hd ((ht.registered _).mpr hn)
    rw [monitorIoctl, hw]
    rfl

/-- Domain 1 registers, its process 7 is watched, and the guest asks to change a
page-table entry of that process. -/
def watchedUpdate : List MonitorAct :=
  [.ioctl (.register ⟨1, 8, 5⟩ ⟨true, 0, 0, 40⟩), .ioctl (.watch ⟨7, 1, 0⟩),
    .guest ⟨1, 8⟩ { Ring.sharedRingInit fun _ => { (default : Message) with
      operation := Op.mmuupdate
      domid := 1
      processId := 7 } with reqProd := 1 }]

theorem watch_table_semantics_watchedUpdate :
    ∃ st, Lts.run (monitorStep ringSize) (monitorInit fun _ => Ring.sharedRingInit default)
        watchedUpdate = some st ∧
      (monitorIrq ringSize st 0 default).map (fun r => r.2.map fun e => e.resp.operation) =
        some [Op.nx] ∧
      ∀ r, monitorIrq ringSize st 0 default = some r →
        ∀ e ∈ r.2, AnswersBy (watchedUpdate.filterMap MonitorAct.event) e :=
  ⟨_, rfl, by decide, (watch_table_semantics ringSize _ watchedUpdate _ rfl).1 0 default⟩

end Maitland
