import Maitland.Server.Register
import Maitland.Server.Watch

/-!
# The indices into the watch table

Every access to `monitor_dom_list` and to a row of it, in the order the code makes
them.  Only the request loop looks at an index before it uses it.
-/

namespace Maitland

inductive TableAccess where
  /-- An element of `monitor_dom_list`. -/
  | dom (i : ℕ)
  /-- An element of a domain's row. -/
  | row (i : ℕ)
  deriving DecidableEq

def TableAccess.InBounds : TableAccess → Prop
  | .dom i => i < monitorMaxVms
  | .row i => i < monitorMaxProcs

instance : DecidablePred TableAccess.InBounds
  | .dom i => inferInstanceAs (Decidable (i < _))
  | .row i => inferInstanceAs (Decidable (i < _))

/-- The store at the end of `monitor_register`. -/
def registerAccesses (info : ShareInfo) (env : RegisterEnv) : List TableAccess :=
  if env.Succeeds then [.dom info.domid.toNat] else []

def watchAccesses (l : DomList) (rep : WatchReport) : List TableAccess :=
  .dom rep.domid.toNat ::
    match l rep.domid.toNat with
    | none => []
    | some _ => [.row rep.processId.toNat, .dom rep.domid.toNat]

/-- The rounds of `procScan`. -/
def scanAccesses (row : Row) (processId : BitVec 32) : ℕ → ℕ → List TableAccess
  | 0, _ => []
  | n + 1, i =>
    .row i :: if row i ≠ 0 ∧ i = processId.toNat then [] else scanAccesses row processId n (i + 1)

def checkAccesses (l : DomList) (domid processId : BitVec 32) : List TableAccess :=
  .dom domid.toNat ::
    match l domid.toNat with
    | none => []
    | some row => scanAccesses row processId monitorMaxProcs 0

/-- The checks the switch of `monitor_irq_handle` makes for a request. -/
def answerAccesses (l : DomList) (reportInProgress : BitVec 32) (req : Message) :
    List TableAccess :=
  if req.operation = Op.mmuupdate ∧ DomidInRange req.domid then
    checkAccesses l req.domid req.processId
  else if req.operation = Op.nxviolation ∧ DomidInRange req.domid ∧ reportInProgress = 0 then
    checkAccesses l req.domid req.processId
  else []

/-- The registration stays inside the table and refuses what does not fit. -/
structure RegisterInRange (st : MonitorState) (k : ℕ) (arg : UspaceInfo) (env : RegisterEnv) :
    Prop where
  accesses : ∀ a ∈ registerAccesses (monitorPopulateInfo arg) env, a.InBounds
  rejected : monitorMaxVms ≤ arg.domid.toNat →
    ∃ st' r, monitorRegister st k (monitorPopulateInfo arg) env = some (st', r) ∧ r ≠ 0 ∧
      st'.domList = st.domList

structure WatchInRange (l : DomList) (rep : WatchReport) : Prop where
  accesses : ∀ a ∈ watchAccesses l rep, a.InBounds
  rejected : monitorMaxVms ≤ rep.domid.toNat ∨ monitorMaxProcs ≤ rep.processId.toNat →
    ∃ r, monitorWatch l rep = some (l, r) ∧ r ≠ 0

structure RequestInRange (l : DomList) (reportInProgress : BitVec 32) (req : Message) : Prop where
  accesses : ∀ a ∈ answerAccesses l reportInProgress req, a.InBounds
  rejected : ¬DomidInRange req.domid ∨ monitorMaxProcs ≤ req.processId.toNat →
    ∀ resp, (monitorAnswer l reportInProgress req resp).operation = Op.nonop

theorem scanAccesses_inBounds (row : Row) (processId : BitVec 32) (n i : ℕ)
    (h : i + n ≤ monitorMaxProcs) : ∀ a ∈ scanAccesses row processId n i, a.InBounds := by
  induction n generalizing i with
  | zero => exact fun a ha => nomatch ha
  | succ n ih =>
    intro a ha
    rw [scanAccesses, List.mem_cons] at ha
    rcases ha with rfl | ha
    · show i < monitorMaxProcs
      omega
    · split at ha
      · cases ha
      · exact ih (i + 1) (by omega) a ha

theorem checkAccesses_inBounds {l : DomList} {domid : BitVec 32}
    (h : domid.toNat < monitorMaxVms) (processId : BitVec 32) :
    ∀ a ∈ checkAccesses l domid processId, a.InBounds := by
  intro a ha
  rw [checkAccesses, List.mem_cons] at ha
  rcases ha with rfl | ha
  · exact h
  · split at ha
    · cases ha
    · exact scanAccesses_inBounds _ _ _ _ (by omega) a ha

theorem DomidInRange.toNat_lt {domid : BitVec 32} (h : DomidInRange domid) :
    domid.toNat < monitorMaxVms := by
  obtain ⟨hpos, hlt⟩ := h
  rw [BitVec.toInt_eq_toNat_cond] at hpos hlt
  split at hpos
  · next hs =>
    rw [if_pos hs] at hlt
    omega
  · have := domid.isLt
    omega

theorem requestInRange (l : DomList) (rip : BitVec 32) (req : Message) :
    RequestInRange l rip req := by
  constructor
  · unfold answerAccesses
    split
    · next h => exact checkAccesses_inBounds h.2.toNat_lt _
    · split
      · next h => exact checkAccesses_inBounds h.2.1.toNat_lt _
      · exact fun a ha => nomatch ha
  · intro h resp
    apply monitorAnswer_nonop
    rintro ⟨_, hd, row, _, _, hp⟩
    rcases h with h | h
    · exact h hd
    · omega

/-- A watch faults in the model exactly when the code leaves the table. -/
theorem monitorWatch_isSome_iff (l : DomList) (rep : WatchReport) :
    (monitorWatch l rep).isSome ↔ ∀ a ∈ watchAccesses l rep, a.InBounds := by
  unfold monitorWatch watchAccesses
  by_cases hd : rep.domid.toNat < monitorMaxVms
  · cases h : l rep.domid.toNat with
    | none => simp [hd, TableAccess.InBounds]
    | some row =>
      by_cases hp : rep.processId.toNat < monitorMaxProcs
      · simp [hd, hp, TableAccess.InBounds]
      · simp [hd, hp, TableAccess.InBounds]
  · simp [hd, TableAccess.InBounds]

/-- So does a registration. -/
theorem monitorRegister_isSome_iff (st : MonitorState) (k : ℕ) (info : ShareInfo)
    (env : RegisterEnv) :
    (monitorRegister st k info env).isSome ↔ ∀ a ∈ registerAccesses info env, a.InBounds := by
  by_cases henv : env.Succeeds
  · rw [monitorRegister_succeeds st k info henv, registerAccesses, if_pos henv]
    by_cases hd : info.domid.toNat < monitorMaxVms
    · simp [hd, TableAccess.InBounds]
    · simp [hd, TableAccess.InBounds]
  · rw [registerAccesses, if_neg henv]
    rcases monitorRegister_failed st k info henv with hr | hr | hr
    · simp [hr]
    · simp [hr]
    · simp [hr]

theorem registerInRange_iff (st : MonitorState) (k : ℕ) (arg : UspaceInfo) (env : RegisterEnv) :
    RegisterInRange st k arg env ↔ ¬env.Succeeds ∨ arg.domid.toNat < monitorMaxVms := by
  constructor
  · intro h
    by_contra hnot
    obtain ⟨henv, hd⟩ := not_or.mp hnot
    obtain ⟨st', r, hr, hne, _⟩ := h.rejected (by omega)
    rw [monitorRegister_succeeds _ _ _ (not_not.mp henv)] at hr
    split at hr
    · cases hr
      exact hne rfl
    · cases hr
  · intro h
    by_cases henv : env.Succeeds
    · have hd : arg.domid.toNat < monitorMaxVms := h.resolve_left (not_not.mpr henv)
      refine ⟨?_, fun hge => absurd hd (by omega)⟩
      rw [registerAccesses, if_pos henv]
      intro a ha
      rw [List.mem_singleton.mp ha]
      -- The domain id keeps its low sixteen bits.
      have hle : (arg.domid.setWidth 16).toNat ≤ arg.domid.toNat := by
        rw [BitVec.toNat_setWidth]
        exact Nat.mod_le _ _
      exact Nat.lt_of_le_of_lt hle hd
    · refine ⟨?_, fun _ => ?_⟩
      · rw [registerAccesses, if_neg henv]
        exact fun a ha => nomatch ha
      · rcases monitorRegister_failed st k (monitorPopulateInfo arg) henv with hr | hr | hr
        · exact ⟨_, _, hr, by decide, rfl⟩
        · exact ⟨_, _, hr, by decide, rfl⟩
        · exact ⟨_, _, hr, by decide, rfl⟩

theorem watchInRange_iff (l : DomList) (rep : WatchReport) :
    WatchInRange l rep ↔ rep.domid.toNat < monitorMaxVms ∧
      (l rep.domid.toNat = none ∨ rep.processId.toNat < monitorMaxProcs) := by
  constructor
  · intro h
    have hd : rep.domid.toNat < monitorMaxVms :=
      h.accesses (.dom rep.domid.toNat) (by simp [watchAccesses])
    refine ⟨hd, ?_⟩
    cases hrow : l rep.domid.toNat with
    | none => exact .inl rfl
    | some row =>
      exact .inr (h.accesses (.row rep.processId.toNat) (by simp [watchAccesses, hrow]))
  · rintro ⟨hd, h⟩
    constructor
    · rw [← monitorWatch_isSome_iff]
      cases hrow : l rep.domid.toNat with
      | none => rw [monitorWatch_unregistered hd hrow, Option.isSome_some]
      | some row =>
        have hp := h.resolve_left (by simp [hrow])
        rw [monitorWatch_registered hd hp hrow, Option.isSome_some]
    · intro hge
      have hrow : l rep.domid.toNat = none := h.resolve_right (by omega)
      exact ⟨-1, monitorWatch_unregistered hd hrow, by decide⟩

/-- Requests never leave the table.  A registration stays in range exactly when it
fails before the store or its full domain id is below 256, a watch exactly when
its domain id is and the domain is unregistered or the process id below 65536. -/
theorem table_indices_in_range_iff (st : MonitorState) (k : ℕ) (arg : UspaceInfo)
    (env : RegisterEnv) (rep : WatchReport) (req : Message) :
    (RegisterInRange st k arg env ↔ ¬env.Succeeds ∨ arg.domid.toNat < monitorMaxVms) ∧
      (WatchInRange st.domList rep ↔ rep.domid.toNat < monitorMaxVms ∧
        (st.domList rep.domid.toNat = none ∨ rep.processId.toNat < monitorMaxProcs)) ∧
      RequestInRange st.domList st.reportInProgress req :=
  ⟨registerInRange_iff st k arg env, watchInRange_iff st.domList rep,
    requestInRange st.domList st.reportInProgress req⟩

/-- What the server makes of the guest's texts: process 70000 of the registered
domain 1 is stored beyond the row, domain 300 beyond the table, and domain 65537
is taken for domain 1. -/
theorem guest_indices_leave_the_table :
    let st := (monitorInit fun _ => Ring.sharedRingInit fun _ => default).registered ⟨1, 5, 3⟩ 9
    (readWatch (some (.announce "1".toList "70000".toList))).bind (fun r => packWatch r.1 r.2) =
        some ⟨70000, 1, 0⟩ ∧
      ¬WatchInRange st.domList ⟨70000, 1, 0⟩ ∧
      parseRegister "300:5:3:u".toList = some ⟨300, 5, 3⟩ ∧
      ¬RegisterInRange st 1 ⟨300, 5, 3⟩ ⟨true, 0, 0, 9⟩ ∧
      ¬RegisterInRange st 1 ⟨65537, 5, 3⟩ ⟨true, 0, 0, 9⟩ := by
  intro st
  refine ⟨by decide, ?_, by decide, ?_, ?_⟩
  · rw [watchInRange_iff]
    rintro ⟨_, hnone | hp⟩
    · have hrow : st.domList 1 = some Row.zero := rfl
      exact Option.some_ne_none _ (hrow.symm.trans hnone)
    · exact absurd hp (by decide)
  · rw [registerInRange_iff]
    decide
  · rw [registerInRange_iff]
    decide

end Maitland
