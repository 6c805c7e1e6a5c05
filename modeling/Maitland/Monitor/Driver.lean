import Maitland.Monitor.Irq

/-!
# The monitor driver

The globals of the dom0 module and its ioctls.  Every registration allocates one
`monitor_share_info_t`; the interrupt handler of a domain gets its own through
`dev_id`, the verdicts use the global pointer.  Allocations succeed, except for
the address-space reservation of `monitor_register`.
-/

namespace Maitland

/-- A grant reference of a domain. -/
structure Ref where
  domid : BitVec 16
  gref : BitVec 32
  deriving DecidableEq

/-- `monitor_share_info_t` -/
structure ShareInfo where
  domid : BitVec 16
  gref : BitVec 32
  evtchn : BitVec 32
  bring : Ring.Back
  /-- `bring.sring`: the area the ring page was mapped at. -/
  sring : Option ℕ

/-- `monitor_uspace_info_t`, less the uuid, which nobody reads. -/
structure UspaceInfo where
  domid : BitVec 32
  gref : BitVec 32
  evtchn : BitVec 32
  deriving DecidableEq

/-- `process_report_t` of monitor.h, with its two arrays. -/
structure ProcessReport where
  processId : BitVec 32
  domid : BitVec 32
  processAge : BitVec 32
  pfnList : List (BitVec 64)
  grefList : List (BitVec 32)
  pfnListLength : BitVec 32
  deriving DecidableEq

/-- A response pushed by `monitor_op_process`. -/
structure Verdict where
  /-- The domain of the share info it went through. -/
  domid : BitVec 16
  /-- The page its ring lies in. -/
  ring : Ref
  /-- The channel that was notified. -/
  evtchn : BitVec 32
  resp : Message
  deriving DecidableEq

structure MonitorState where
  /-- Every share info allocated so far; none is freed. -/
  infos : List ShareInfo
  /-- The global `monitor_share_info`, an index into `infos`. -/
  shareInfo : Option ℕ
  /-- The global `sring`: the area of the ring mapped last. -/
  sring : Option ℕ
  domList : DomList
  currProc : BitVec 32
  reportInProgress : BitVec 32
  /-- The areas in `vm_struct_list[0 .. vm_struct_list_size)`. -/
  vmStructList : List ℕ
  /-- The number of areas reserved so far. -/
  areas : ℕ
  /-- The granted page mapped at an area. -/
  mapped : ℕ → Option Ref
  /-- The granted pages the guests use as rings. -/
  page : Ref → Ring.Shared Message
  /-- The verdicts sent so far. -/
  sent : List Verdict

/-- The state `monitor_init` leaves, with the guests' pages as they are. -/
def monitorInit (page : Ref → Ring.Shared Message) : MonitorState where
  infos := []
  shareInfo := none
  sring := none
  domList := DomList.init
  currProc := 0
  reportInProgress := 0
  vmStructList := []
  areas := 0
  mapped := fun _ => none
  page := page
  sent := []

/-- What the hypervisor and the kernel answer during one `monitor_register`. -/
structure RegisterEnv where
  /-- `alloc_vm_area` finds an area. -/
  area : Bool
  /-- The value of the map hypercall. -/
  mapCall : Int
  /-- `ops.status` -/
  status : Int
  /-- The value of `bind_interdomain_evtchn_to_irqhandler`. -/
  irq : Int
  deriving DecidableEq

def RegisterEnv.Succeeds (env : RegisterEnv) : Prop :=
  env.area = true ∧ env.mapCall = 0 ∧ env.status = 0 ∧ 0 ≤ env.irq

instance (env : RegisterEnv) : Decidable env.Succeeds := inferInstanceAs (Decidable (_ ∧ _))

def efault : Int := -14

def monitorPopulateInfo (arg : UspaceInfo) : ShareInfo where
  domid := arg.domid.setWidth 16
  gref := arg.gref
  evtchn := arg.evtchn
  bring := ⟨0, 0⟩
  sring := none

def MonitorState.setInfo (st : MonitorState) (k : ℕ) (info : ShareInfo) : MonitorState :=
  { st with infos := st.infos.set k info }

/-- `monitor_register` on the `k`-th share info.  `none` is the unchecked store
beyond the table for a domain id of 256 or more. -/
def monitorRegister (st : MonitorState) (k : ℕ) (info : ShareInfo) (env : RegisterEnv) :
    Option (MonitorState × Int) :=
  if env.area = false then some (st, efault)
  else
    let area := st.areas
    let st := { st with areas := area + 1 }
    if env.mapCall ≠ 0 then some (st, efault)
    else if env.status ≠ 0 then some (st, efault)
    else
      let st := { st with
        mapped := Function.update st.mapped area (some ⟨info.domid, info.gref⟩)
        sring := some area }
      let info := { info with bring := Ring.backRingInit, sring := some area }
      if env.irq < 0 then
        some ({ st.setInfo k info with mapped := Function.update st.mapped area none }, efault)
      else
        let info := { info with evtchn := BitVec.ofInt 32 env.irq }
        let st := st.setInfo k info
        if info.domid.toNat < monitorMaxVms then
          some ({ st with
            domList := Function.update st.domList info.domid.toNat (some Row.zero) }, 0)
        else none

/-- `monitor_map_gref`: the area it returns and whether its size is still positive.
`granted` says which references the hypervisor maps. -/
def monitorMapGref (granted : Ref → Bool) (st : MonitorState) (gref domid : BitVec 32) :
    MonitorState × ℕ × Bool :=
  let area := st.areas
  let st := { st with areas := area + 1 }
  let ref : Ref := ⟨domid.setWidth 16, gref⟩
  let size := if gref.toNat < 1 then false else true
  if granted ref then
    ({ st with mapped := Function.update st.mapped area (some ref) }, area, size)
  else (st, area, false)

/-- The mapping loop of `monitor_report`. -/
def monitorMapList (granted : Ref → Bool) (domid : BitVec 32) :
    MonitorState → List (BitVec 32) → MonitorState
  | st, [] => st
  | st, gref :: grefs =>
    let r := monitorMapGref granted st gref domid
    let st := if r.2.2 then { r.1 with vmStructList := r.1.vmStructList ++ [r.2.1] } else r.1
    monitorMapList granted domid st grefs

def monitorReport (granted : Ref → Bool) (st : MonitorState) (rep : ProcessReport) :
    MonitorState :=
  let st := monitorMapList granted rep.domid { st with vmStructList := [] }
    (rep.grefList.take rep.pfnListLength.toNat)
  { st with currProc := rep.processId }

/-- `monitor_populate_report` copies the two arrays of the caller. -/
def monitorPopulateReport (arg : ProcessReport) : ProcessReport :=
  { arg with
    pfnList := arg.pfnList.take arg.pfnListLength.toNat
    grefList := arg.grefList.take arg.pfnListLength.toNat }

/-- The ring page a share info works on.  `none` is a NULL or unmapped pointer. -/
def MonitorState.ringOf (st : MonitorState) (info : ShareInfo) : Option Ref :=
  info.sring.bind st.mapped

/-- `garbage` is the uninitialised local `resp`.  `none` is a fault on the global
share info or on its ring. -/
def monitorOpProcess (z : Ring.Size) (st : MonitorState) (op pid : BitVec 32) (garbage : Message) :
    Option MonitorState := do
  let k ← st.shareInfo
  let info ← st.infos[k]?
  let ring ← st.ringOf info
  let resp := { garbage with operation := op, processId := pid }
  let sring := (st.page ring).put z info.bring.rspProdPvt resp
  let bring := { info.bring with rspProdPvt := info.bring.rspProdPvt + 1 }
  let sring := (Ring.pushResponsesAndCheckNotify sring bring).1
  let st := st.setInfo k { info with bring := bring }
  some { st with
    page := Function.update st.page ring sring
    sent := st.sent ++ [⟨info.domid, ring, info.evtchn, resp⟩] }

def monitorResumeProcess (z : Ring.Size) (st : MonitorState) (pid : BitVec 32)
    (garbage : Message) : Option MonitorState :=
  monitorOpProcess z st Op.resume pid garbage

def monitorKillProcess (z : Ring.Size) (st : MonitorState) (pid : BitVec 32)
    (garbage : Message) : Option MonitorState :=
  monitorOpProcess z st Op.kill pid garbage

inductive Ioctl where
  | register (arg : UspaceInfo) (env : RegisterEnv)
  | report (arg : ProcessReport) (granted : Ref → Bool)
  | dump
  | doneReport
  | resume (garbage : Message)
  | kill (garbage : Message)
  | watch (arg : WatchReport)
  | deregister
  | other

def monitorBadcmd : Int := -10

/-- `none` is a fault of the module; the number is the value of the ioctl. -/
def monitorIoctl (z : Ring.Size) (st : MonitorState) : Ioctl → Option (MonitorState × Int)
  | .register arg env =>
    let info := monitorPopulateInfo arg
    let k := st.infos.length
    let st := { st with infos := st.infos ++ [info], shareInfo := some k }
    (monitorRegister st k info env).map fun r => (r.1, 0)
  | .report arg granted => some (monitorReport granted st (monitorPopulateReport arg), 0)
  | .dump => some (st, 0)
  | .doneReport => some (st, 0)
  | .resume garbage =>
    if st.currProc ≠ 0 then
      (monitorResumeProcess z st st.currProc garbage).map fun st => ({ st with currProc := 0 }, 0)
    else some (st, 0)
  | .kill garbage =>
    if st.currProc ≠ 0 then
      (monitorKillProcess z st st.currProc garbage).map fun st => ({ st with currProc := 0 }, 0)
    else some (st, 0)
  | .watch arg => (monitorWatch st.domList arg).map fun r => ({ st with domList := r.1 }, 0)
  | .deregister => some (st, 0)
  | .other => some (st, monitorBadcmd)

/-- An interrupt on the channel of the `k`-th share info: the state after the run
of `monitor_irq_handle` and its rounds. -/
def monitorIrq (z : Ring.Size) (st : MonitorState) (k : ℕ) (garbage : Message) :
    Option (MonitorState × List Exchange) := do
  let info ← st.infos[k]?
  let ring ← st.ringOf info
  let f := monitorIrqHandle z st.domList st.reportInProgress (st.page ring) info.bring garbage
  let st := st.setInfo k { info with bring := f.bring }
  some ({ st with page := Function.update st.page ring f.sring }, f.log)

-- ════════════════════════════════════════════════════════════════════════
-- What each operation leaves alone
-- ════════════════════════════════════════════════════════════════════════

theorem MonitorState.ringOf_eq {st : MonitorState} {info : ShareInfo} {a : ℕ} {ref : Ref}
    (hs : info.sring = some a) (hm : st.mapped a = some ref) : st.ringOf info = some ref := by
  rw [ringOf, hs]
  exact hm

/-- `st'` differs from `st` only in newly reserved areas, in the list of mapped
pages and in `curr_proc`. -/
structure MonitorState.MapsOnly (st st' : MonitorState) : Prop where
  infos : st'.infos = st.infos
  shareInfo : st'.shareInfo = st.shareInfo
  domList : st'.domList = st.domList
  reportInProgress : st'.reportInProgress = st.reportInProgress
  page : st'.page = st.page
  sent : st'.sent = st.sent
  areas : st.areas ≤ st'.areas
  mapped : ∀ a, a < st.areas → st'.mapped a = st.mapped a

theorem MonitorState.MapsOnly.trans {st st' st'' : MonitorState} (h : st.MapsOnly st')
    (h' : st'.MapsOnly st'') : st.MapsOnly st'' where
  infos := h'.infos.trans h.infos
  shareInfo := h'.shareInfo.trans h.shareInfo
  domList := h'.domList.trans h.domList
  reportInProgress := h'.reportInProgress.trans h.reportInProgress
  page := h'.page.trans h.page
  sent := h'.sent.trans h.sent
  areas := h.areas.trans h'.areas
  mapped a ha := (h'.mapped a (Nat.lt_of_lt_of_le ha h.areas)).trans (h.mapped a ha)

theorem monitorMapGref_mapsOnly (granted : Ref → Bool) (st : MonitorState)
    (gref domid : BitVec 32) : st.MapsOnly (monitorMapGref granted st gref domid).1 := by
  by_cases hg : granted ⟨domid.setWidth 16, gref⟩ = true
  · simp only [monitorMapGref, if_pos hg]
    refine ⟨rfl, rfl, rfl, rfl, rfl, rfl, Nat.le_succ _, ?_⟩
    intro a ha
    exact Function.update_of_ne (by omega) _ _
  · simp only [monitorMapGref, if_neg hg]
    exact ⟨rfl, rfl, rfl, rfl, rfl, rfl, Nat.le_succ _, fun _ _ => rfl⟩

theorem monitorMapList_mapsOnly (granted : Ref → Bool) (domid : BitVec 32) (st : MonitorState)
    (grefs : List (BitVec 32)) : st.MapsOnly (monitorMapList granted domid st grefs) := by
  induction grefs generalizing st with
  | nil => exact ⟨rfl, rfl, rfl, rfl, rfl, rfl, Nat.le_refl _, fun _ _ => rfl⟩
  | cons gref grefs ih =>
    have h := monitorMapGref_mapsOnly granted st gref domid
    refine MonitorState.MapsOnly.trans ?_ (ih _)
    split
    · exact ⟨h.infos, h.shareInfo, h.domList, h.reportInProgress, h.page, h.sent, h.areas, h.mapped⟩
    · exact h

/-- The references `monitor_report` keeps the area of. -/
def Mappable (granted : Ref → Bool) (domid gref : BitVec 32) : Bool :=
  decide (0 < gref.toNat) && granted ⟨domid.setWidth 16, gref⟩

theorem monitorMapGref_of_mappable {granted : Ref → Bool} {gref domid : BitVec 32}
    (hm : Mappable granted domid gref = true) (st : MonitorState) :
    monitorMapGref granted st gref domid =
      ({ st with
        areas := st.areas + 1
        mapped := Function.update st.mapped st.areas (some ⟨domid.setWidth 16, gref⟩) },
        st.areas, true) := by
  obtain ⟨hpos, hg⟩ := (Bool.and_eq_true _ _).mp hm
  have hpos : ¬gref.toNat < 1 := by have := of_decide_eq_true hpos; omega
  simp only [monitorMapGref, if_pos hg, if_neg hpos]

/-- The area is reserved, and its size is set to nothing. -/
theorem monitorMapGref_of_not_mappable {granted : Ref → Bool} {gref domid : BitVec 32}
    (hm : ¬Mappable granted domid gref = true) (st : MonitorState) :
    (monitorMapGref granted st gref domid).2.2 = false ∧
      (monitorMapGref granted st gref domid).1.areas = st.areas + 1 ∧
      (monitorMapGref granted st gref domid).1.vmStructList = st.vmStructList := by
  unfold Mappable at hm
  simp only [monitorMapGref]
  split
  · next hg =>
    simp only [hg, Bool.and_true, decide_eq_true_eq] at hm
    exact ⟨if_pos (by omega), rfl, rfl⟩
  · exact ⟨rfl, rfl, rfl⟩

/-- The mapping loop keeps one new area for each reference that maps, in order. -/
theorem monitorMapList_keeps (granted : Ref → Bool) (domid : BitVec 32) (st : MonitorState)
    (grefs : List (BitVec 32)) :
    ∃ new, (monitorMapList granted domid st grefs).vmStructList = st.vmStructList ++ new ∧
      new.map (monitorMapList granted domid st grefs).mapped =
        (grefs.filter (Mappable granted domid)).map (fun gref =>
          some ⟨domid.setWidth 16, gref⟩) ∧
      new.Nodup ∧ ∀ a ∈ new, st.areas ≤ a := by
  induction grefs generalizing st with
  | nil => exact ⟨[], by simp [monitorMapList]⟩
  | cons gref grefs ih =>
    by_cases hm : Mappable granted domid gref = true
    · simp only [monitorMapList, monitorMapGref_of_mappable hm, if_true]
      obtain ⟨new, hlist, hmap, hnodup, hge⟩ := ih { st with
        areas := st.areas + 1
        mapped := Function.update st.mapped st.areas (some ⟨domid.setWidth 16, gref⟩)
        vmStructList := st.vmStructList ++ [st.areas] }
      refine ⟨st.areas :: new, ?_, ?_, ?_, ?_⟩
      · rw [hlist, List.append_assoc, List.singleton_append]
      · rw [List.map_cons, hmap, List.filter_cons_of_pos hm, List.map_cons,
          (monitorMapList_mapsOnly granted domid _ grefs).mapped _ (Nat.lt_succ_self _)]
        simp only [Function.update_self]
      · refine List.nodup_cons.mpr ⟨fun hmem => ?_, hnodup⟩
        exact Nat.not_succ_le_self _ (hge _ hmem)
      · intro a ha
        rcases List.mem_cons.mp ha with rfl | ha
        · exact Nat.le_refl _
        · exact Nat.le_of_succ_le (hge a ha)
    · obtain ⟨hr, hareas, hkept⟩ := monitorMapGref_of_not_mappable hm st
      simp only [monitorMapList, hr, Bool.false_eq_true, if_false]
      obtain ⟨new, hlist, hmap, hnodup, hge⟩ := ih (monitorMapGref granted st gref domid).1
      refine ⟨new, by rw [hlist, hkept], by rw [hmap, List.filter_cons_of_neg hm], hnodup, ?_⟩
      intro a ha
      have := hge a ha
      omega

theorem monitorReport_mapsOnly (granted : Ref → Bool) (st : MonitorState) (rep : ProcessReport) :
    st.MapsOnly (monitorReport granted st rep) := by
  have h := monitorMapList_mapsOnly granted rep.domid { st with vmStructList := [] }
    (rep.grefList.take rep.pfnListLength.toNat)
  exact ⟨h.infos, h.shareInfo, h.domList, h.reportInProgress, h.page, h.sent, h.areas, h.mapped⟩

/-- Every page the mapping loop maps is one of the domain it was given. -/
theorem monitorMapList_mapped (granted : Ref → Bool) (domid : BitVec 32) (st : MonitorState)
    (grefs : List (BitVec 32)) {a : ℕ} {ref : Ref}
    (hne : (monitorMapList granted domid st grefs).mapped a ≠ st.mapped a)
    (href : (monitorMapList granted domid st grefs).mapped a = some ref) :
    ref.domid = domid.setWidth 16 := by
  induction grefs generalizing st with
  | nil => exact absurd rfl hne
  | cons gref grefs ih =>
    obtain ⟨st', hcons, hst'⟩ : ∃ st' : MonitorState,
        monitorMapList granted domid st (gref :: grefs) =
          monitorMapList granted domid st' grefs ∧
        st'.mapped = (monitorMapGref granted st gref domid).1.mapped := by
      rw [monitorMapList]
      split
      · exact ⟨_, rfl, rfl⟩
      · exact ⟨_, rfl, rfl⟩
    rw [hcons] at hne href
    by_cases hmid : (monitorMapList granted domid st' grefs).mapped a = st'.mapped a
    · rw [hmid, hst'] at hne href
      simp only [monitorMapGref] at hne href
      split at hne
      · next hg =>
        rw [if_pos hg] at href
        by_cases ha : a = st.areas
        · subst ha
          simp only [Function.update_self, Option.some.injEq] at href
          rw [← href]
        · simp only [Function.update_of_ne ha] at hne
          exact absurd rfl hne
      · exact absurd rfl hne
    · exact ih st' hmid href

theorem monitorReport_mapped (granted : Ref → Bool) (st : MonitorState) (rep : ProcessReport)
    {a : ℕ} {ref : Ref} (hne : (monitorReport granted st rep).mapped a ≠ st.mapped a)
    (href : (monitorReport granted st rep).mapped a = some ref) :
    ref.domid = rep.domid.setWidth 16 :=
  monitorMapList_mapped granted rep.domid { st with vmStructList := [] } _ hne href

/-- The state after a registration whose every step succeeds. -/
def MonitorState.registered (st : MonitorState) (arg : UspaceInfo) (irq : Int) : MonitorState :=
  { st with
    infos := st.infos ++ [{ monitorPopulateInfo arg with
      evtchn := BitVec.ofInt 32 irq
      bring := Ring.backRingInit
      sring := some st.areas }]
    shareInfo := some st.infos.length
    sring := some st.areas
    areas := st.areas + 1
    mapped := Function.update st.mapped st.areas (some ⟨arg.domid.setWidth 16, arg.gref⟩)
    domList := Function.update st.domList (arg.domid.setWidth 16).toNat (some Row.zero) }

theorem monitorRegister_succeeds (st : MonitorState) (k : ℕ) (info : ShareInfo) {env : RegisterEnv}
    (henv : env.Succeeds) :
    monitorRegister st k info env =
      if info.domid.toNat < monitorMaxVms then
        some ({ st with
          infos := st.infos.set k { info with
            evtchn := BitVec.ofInt 32 env.irq
            bring := Ring.backRingInit
            sring := some st.areas }
          sring := some st.areas
          areas := st.areas + 1
          mapped := Function.update st.mapped st.areas (some ⟨info.domid, info.gref⟩)
          domList := Function.update st.domList info.domid.toNat (some Row.zero) }, 0)
      else none := by
  obtain ⟨harea, hcall, hstatus, hirq⟩ := henv
  have hirq : ¬env.irq < 0 := by omega
  simp only [monitorRegister, harea, hcall, hstatus, hirq, MonitorState.setInfo,
    Bool.true_eq_false, ne_eq, not_true_eq_false, if_false]

/-- Where a registration that fails has got to: no area, an area with no page in it,
or a ring whose page is unmapped again. -/
theorem monitorRegister_failed (st : MonitorState) (k : ℕ) (info : ShareInfo) {env : RegisterEnv}
    (henv : ¬env.Succeeds) :
    monitorRegister st k info env = some (st, efault) ∨
      monitorRegister st k info env = some ({ st with areas := st.areas + 1 }, efault) ∨
      monitorRegister st k info env = some ({ st with
        infos := st.infos.set k { info with bring := Ring.backRingInit, sring := some st.areas }
        sring := some st.areas
        areas := st.areas + 1
        mapped := Function.update (Function.update st.mapped st.areas
          (some ⟨info.domid, info.gref⟩)) st.areas none }, efault) := by
  unfold monitorRegister
  by_cases harea : env.area = false
  · exact .inl (if_pos harea)
  rw [if_neg harea]
  by_cases hcall : env.mapCall ≠ 0
  · exact .inr (.inl (if_pos hcall))
  rw [if_neg hcall]
  by_cases hstatus : env.status ≠ 0
  · exact .inr (.inl (if_pos hstatus))
  rw [if_neg hstatus]
  -- The map went through, so only the event channel can have failed.
  have hirq : env.irq < 0 := by
    by_contra hirq
    exact henv ⟨by simpa using harea, not_not.mp hcall, not_not.mp hstatus, by omega⟩
  exact .inr (.inr (if_pos hirq))

theorem monitorIoctl_register_ok (z : Ring.Size) (st : MonitorState) {arg : UspaceInfo}
    {env : RegisterEnv} (henv : env.Succeeds)
    (hd : (arg.domid.setWidth 16).toNat < monitorMaxVms) :
    monitorIoctl z st (.register arg env) = some (st.registered arg env.irq, 0) := by
  simp only [monitorIoctl, monitorRegister_succeeds _ _ _ henv, monitorPopulateInfo, if_pos hd,
    MonitorState.registered, Option.map_some, List.set_append_right _ _ (Nat.le_refl _),
    Nat.sub_self, List.set_cons_zero]

/-- A registration that goes through has reached the table store. -/
theorem monitorIoctl_register_succeeds {z : Ring.Size} {st : MonitorState} {arg : UspaceInfo}
    {env : RegisterEnv} {r : MonitorState × Int} (henv : env.Succeeds)
    (h : monitorIoctl z st (.register arg env) = some r) : r = (st.registered arg env.irq, 0) := by
  by_cases hd : (arg.domid.setWidth 16).toNat < monitorMaxVms
  · rw [monitorIoctl_register_ok z st henv hd, Option.some.injEq] at h
    exact h.symm
  · simp only [monitorIoctl, monitorRegister_succeeds _ _ _ henv, monitorPopulateInfo, if_neg hd,
      Option.map_none, reduceCtorEq] at h

/-- What a failed registration leaves behind: the global points to a share info
without a ring, and the registrations before it stand. -/
structure MonitorState.RegisterFailed (st st' : MonitorState) (domid : BitVec 16) : Prop where
  info : ∃ info, st'.infos = st.infos ++ [info] ∧ info.domid = domid ∧ st'.ringOf info = none ∧
    ∀ a, info.sring = some a → a < st'.areas
  shareInfo : st'.shareInfo = some st.infos.length
  domList : st'.domList = st.domList
  currProc : st'.currProc = st.currProc
  reportInProgress : st'.reportInProgress = st.reportInProgress
  page : st'.page = st.page
  sent : st'.sent = st.sent
  areas : st.areas ≤ st'.areas
  mapped : ∀ a, a < st.areas → st'.mapped a = st.mapped a

theorem monitorIoctl_register_failed {z : Ring.Size} {st : MonitorState} {arg : UspaceInfo}
    {env : RegisterEnv} {r : MonitorState × Int} (henv : ¬env.Succeeds)
    (h : monitorIoctl z st (.register arg env) = some r) :
    st.RegisterFailed r.1 (arg.domid.setWidth 16) := by
  rw [monitorIoctl] at h
  rcases monitorRegister_failed _ _ _ henv with hr | hr | hr
  · rw [hr] at h
    cases h
    exact ⟨⟨_, rfl, rfl, rfl, fun a ha => by cases ha⟩, rfl, rfl, rfl, rfl, rfl, rfl, Nat.le_refl _,
      fun _ _ => rfl⟩
  · rw [hr] at h
    cases h
    exact ⟨⟨_, rfl, rfl, rfl, fun a ha => by cases ha⟩, rfl, rfl, rfl, rfl, rfl, rfl, Nat.le_succ _,
      fun _ _ => rfl⟩
  · simp only [hr, Option.map_some, Option.some.injEq, List.set_append_right _ _ (Nat.le_refl _),
      Nat.sub_self, List.set_cons_zero] at h
    subst h
    refine ⟨⟨_, rfl, rfl, ?_, ?_⟩, rfl, rfl, rfl, rfl, rfl, rfl, Nat.le_succ _, ?_⟩
    · simp [MonitorState.ringOf]
    · rintro a ⟨⟩
      exact Nat.lt_succ_self _
    · intro a ha
      simp [Function.update_of_ne (show a ≠ st.areas by omega)]

theorem monitorIoctl_register_failed_returns (z : Ring.Size) (st : MonitorState) (arg : UspaceInfo)
    (env : RegisterEnv) (henv : ¬env.Succeeds) :
    ∃ st', monitorIoctl z st (.register arg env) = some (st', 0) := by
  rw [monitorIoctl]
  rcases monitorRegister_failed _ _ _ henv with hr | hr | hr
  · exact ⟨_, by rw [hr]; rfl⟩
  · exact ⟨_, by rw [hr]; rfl⟩
  · exact ⟨_, by rw [hr]; rfl⟩

/-- The two verdict ioctls: with no process reported they do nothing. -/
def monitorVerdict (z : Ring.Size) (st : MonitorState) (op : BitVec 32) (garbage : Message) :
    Option (MonitorState × Int) :=
  if st.currProc ≠ 0 then
    (monitorOpProcess z st op st.currProc garbage).map fun st => ({ st with currProc := 0 }, 0)
  else some (st, 0)

theorem monitorIoctl_resume (z : Ring.Size) (st : MonitorState) (garbage : Message) :
    monitorIoctl z st (.resume garbage) = monitorVerdict z st Op.resume garbage := rfl

theorem monitorIoctl_kill (z : Ring.Size) (st : MonitorState) (garbage : Message) :
    monitorIoctl z st (.kill garbage) = monitorVerdict z st Op.kill garbage := rfl

theorem monitorVerdict_idle {z : Ring.Size} {st : MonitorState} {op : BitVec 32}
    {garbage : Message} (h : st.currProc = 0) : monitorVerdict z st op garbage = some (st, 0) := by
  simp [monitorVerdict, h]

/-- The state after `monitor_op_process` has pushed through the `k`-th share info. -/
def MonitorState.push (st : MonitorState) (z : Ring.Size) (k : ℕ) (info : ShareInfo) (ring : Ref)
    (resp : Message) : MonitorState :=
  { st with
    infos := st.infos.set k
      { info with bring := { info.bring with rspProdPvt := info.bring.rspProdPvt + 1 } }
    page := Function.update st.page ring
      { (st.page ring).put z info.bring.rspProdPvt resp with
        rspProd := info.bring.rspProdPvt + 1 }
    sent := st.sent ++ [⟨info.domid, ring, info.evtchn, resp⟩] }

theorem monitorOpProcess_eq {z : Ring.Size} {st : MonitorState} {k : ℕ} {info : ShareInfo}
    {ring : Ref} (hk : st.shareInfo = some k) (hi : st.infos[k]? = some info)
    (hr : st.ringOf info = some ring) (op pid : BitVec 32) (garbage : Message) :
    monitorOpProcess z st op pid garbage =
      some (st.push z k info ring { garbage with operation := op, processId := pid }) := by
  simp only [monitorOpProcess, hk, hi, hr, Option.bind_eq_bind, Option.bind_some]
  rfl

/-- The ring page `monitor_op_process` would write to. -/
def MonitorState.verdictRing (st : MonitorState) : Option Ref := do
  let k ← st.shareInfo
  let info ← st.infos[k]?
  st.ringOf info

theorem monitorOpProcess_verdictRing {z : Ring.Size} {st st' : MonitorState} {op pid : BitVec 32}
    {garbage : Message} (h : monitorOpProcess z st op pid garbage = some st') :
    st.verdictRing ≠ none ∧ ∃ v, st'.sent = st.sent ++ [v] ∧
      v.resp = { garbage with operation := op, processId := pid } := by
  simp only [monitorOpProcess, Option.bind_eq_bind, Option.bind_eq_some_iff] at h
  obtain ⟨k, hk, info, hi, ring, hr, hst⟩ := h
  cases hst
  refine ⟨?_, _, rfl, rfl⟩
  simp [MonitorState.verdictRing, hk, hi, hr]

theorem monitorOpProcess_of_verdictRing {z : Ring.Size} {st : MonitorState}
    (h : st.verdictRing ≠ none)
    (op pid : BitVec 32) (garbage : Message) :
    ∃ st', monitorOpProcess z st op pid garbage = some st' := by
  obtain ⟨ring, hring⟩ := Option.ne_none_iff_exists'.mp h
  simp only [MonitorState.verdictRing, Option.bind_eq_bind, Option.bind_eq_some_iff] at hring
  obtain ⟨k, hk, info, hi, hr⟩ := hring
  exact ⟨_, monitorOpProcess_eq hk hi hr op pid garbage⟩

theorem monitorVerdict_eq {z : Ring.Size} {st : MonitorState} {k : ℕ} {info : ShareInfo}
    {ring : Ref} (hc : st.currProc ≠ 0) (hk : st.shareInfo = some k)
    (hi : st.infos[k]? = some info) (hr : st.ringOf info = some ring) (op : BitVec 32)
    (garbage : Message) :
    monitorVerdict z st op garbage = some ({ st.push z k info ring
      { garbage with operation := op, processId := st.currProc } with currProc := 0 }, 0) := by
  rw [monitorVerdict, if_pos hc, monitorOpProcess_eq hk hi hr]
  rfl

theorem monitorIrq_eq {z : Ring.Size} {st : MonitorState} {k : ℕ} {info : ShareInfo} {ring : Ref}
    (hi : st.infos[k]? = some info) (hr : st.ringOf info = some ring) (garbage : Message) :
    monitorIrq z st k garbage =
      let f := monitorIrqHandle z st.domList st.reportInProgress (st.page ring) info.bring garbage
      some ({ st with
        infos := st.infos.set k { info with bring := f.bring }
        page := Function.update st.page ring f.sring }, f.log) := by
  simp only [monitorIrq, hi, hr, Option.bind_eq_bind, Option.bind_some]
  rfl

/-- A verdict does nothing, or pushes one response with its operation. -/
theorem monitorVerdict_cases {z : Ring.Size} {st : MonitorState} {op : BitVec 32}
    {garbage : Message} {r : MonitorState × Int} (h : monitorVerdict z st op garbage = some r) :
    r.1 = st ∨ ∃ k info ring resp, resp.operation = op ∧
      r.1 = { st.push z k info ring resp with currProc := 0 } := by
  by_cases hc : st.currProc = 0
  · rw [monitorVerdict_idle hc, Option.some.injEq] at h
    exact .inl (by rw [← h])
  · rw [monitorVerdict, if_pos hc] at h
    obtain ⟨st', hop, rfl⟩ := Option.map_eq_some_iff.mp h
    simp only [monitorOpProcess, Option.bind_eq_bind, Option.bind_eq_some_iff] at hop
    obtain ⟨k, hk, info, hi, ring, hr, hst⟩ := hop
    cases hst
    exact .inr ⟨k, info, ring, { garbage with operation := op, processId := st.currProc }, rfl, rfl⟩

/-- Verdicts leave the watch table alone. -/
theorem monitorVerdict_frame {z : Ring.Size} {st : MonitorState} {op : BitVec 32}
    {garbage : Message} {r : MonitorState × Int} (h : monitorVerdict z st op garbage = some r) :
    r.1.domList = st.domList ∧ r.1.reportInProgress = st.reportInProgress := by
  rcases monitorVerdict_cases h with hr | ⟨k, info, ring, resp, _, hr⟩
  · rw [hr]
    exact ⟨rfl, rfl⟩
  · rw [hr]
    exact ⟨rfl, rfl⟩

/-- So do interrupts, and every round of one answers by the table. -/
theorem monitorIrq_frame {z : Ring.Size} {st : MonitorState} {k : ℕ} {garbage : Message}
    {r : MonitorState × List Exchange} (h : monitorIrq z st k garbage = some r) :
    r.1.domList = st.domList ∧ r.1.reportInProgress = st.reportInProgress ∧
      ∀ e ∈ r.2, ∃ resp, e.resp = monitorAnswer st.domList st.reportInProgress e.req resp := by
  simp only [monitorIrq, Option.bind_eq_bind, Option.bind_eq_some_iff] at h
  obtain ⟨info, hi, ring, hr, hst⟩ := h
  cases hst
  exact ⟨rfl, rfl, fun e he => monitorIrqHandle_answers _ _ _ he⟩

end Maitland
