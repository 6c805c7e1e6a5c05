import Mathlib.Logic.Function.Basic
import Mathlib.Data.Nat.Notation

/-!
# The watch table

`monitor_dom_list` has one pointer per domain, NULL until the domain registers.
A registered domain's row has one word per process id, set to 1 by a watch.
-/

namespace Maitland

def monitorMaxVms : ℕ := 256
def monitorMaxProcs : ℕ := 65536

abbrev Row := ℕ → BitVec 64

abbrev DomList := ℕ → Option Row

/-- `kzalloc(sizeof(unsigned long)*MONITOR_MAX_PROCS,GFP_KERNEL)` -/
def Row.zero : Row := fun _ => 0

/-- The table as `monitor_init` allocates it. -/
def DomList.init : DomList := fun _ => none

/-- `process_watchreport_t` -/
structure WatchReport where
  processId : BitVec 32
  domid : BitVec 32
  processAge : BitVec 32
  deriving DecidableEq

/-- `none` stands for an access outside the table or outside the row, which the
source does not check for. -/
def monitorWatch (l : DomList) (rep : WatchReport) : Option (DomList × Int) :=
  if rep.domid.toNat < monitorMaxVms then
    match l rep.domid.toNat with
    | none => some (l, -1)
    | some row =>
      if rep.processId.toNat < monitorMaxProcs then
        some (Function.update l rep.domid.toNat
          (some (Function.update row rep.processId.toNat 1)), 0)
      else none
  else none

/-- The loop `for(i=0; i < MONITOR_MAX_PROCS; i++)` of the two checks, with the
number of rounds left and the value of `i`. -/
def procScan (row : Row) (processId : BitVec 32) : ℕ → ℕ → Int
  | 0, _ => 0
  | n + 1, i =>
    if row i ≠ 0 ∧ i = processId.toNat then 1 else procScan row processId n (i + 1)

/-- The body that `monitor_check_mmuupdate` and `monitor_check_page_fault` share. -/
def monitorCheck (l : DomList) (domid processId : BitVec 32) : Int :=
  match l domid.toNat with
  | none => -1
  | some row => procScan row processId monitorMaxProcs 0

def monitorCheckMmuupdate (l : DomList) (_mmuPtr _mmuVal : BitVec 64)
    (domid processId : BitVec 32) : Int :=
  monitorCheck l domid processId

def monitorCheckPageFault (l : DomList) (domid processId : BitVec 32)
    (_address : BitVec 64) : Int :=
  monitorCheck l domid processId

/-- The process is marked in the row of a registered domain. -/
def Watched (l : DomList) (domid processId : ℕ) : Prop :=
  ∃ row, l domid = some row ∧ row processId ≠ 0 ∧ processId < monitorMaxProcs

instance (l : DomList) (d p : ℕ) : Decidable (Watched l d p) :=
  match h : l d with
  | none => isFalse (by rintro ⟨row, hr, _⟩; rw [h] at hr; cases hr)
  | some row =>
    if hw : row p ≠ 0 ∧ p < monitorMaxProcs then isTrue ⟨row, h, hw⟩
    else isFalse (by rintro ⟨row', hr, hp⟩; rw [h] at hr; cases hr; exact hw hp)

theorem procScan_pos_iff (row : Row) (processId : BitVec 32) (n i : ℕ) :
    0 < procScan row processId n i ↔
      row processId.toNat ≠ 0 ∧ i ≤ processId.toNat ∧ processId.toNat < i + n := by
  induction n generalizing i with
  | zero =>
    simp only [procScan, Int.lt_irrefl, false_iff]
    omega
  | succ n ih =>
    rw [procScan]
    by_cases h : row i ≠ 0 ∧ i = processId.toNat
    · rw [if_pos h]
      obtain ⟨hr, rfl⟩ := h
      simpa using hr
    · rw [if_neg h, ih]
      constructor
      · rintro ⟨hr, hle, hlt⟩
        exact ⟨hr, by omega, by omega⟩
      · rintro ⟨hr, hle, hlt⟩
        have hne : i ≠ processId.toNat := fun he => h ⟨he ▸ hr, he⟩
        exact ⟨hr, by omega, by omega⟩

/-- Either check succeeds exactly for the watched processes. -/
theorem monitorCheck_pos_iff (l : DomList) (domid processId : BitVec 32) :
    0 < monitorCheck l domid processId ↔ Watched l domid.toNat processId.toNat := by
  unfold monitorCheck Watched
  cases h : l domid.toNat with
  | none => simp
  | some row =>
    simp only [procScan_pos_iff, Option.some.injEq, exists_eq_left']
    constructor
    · rintro ⟨hr, _, hlt⟩
      exact ⟨hr, by omega⟩
    · rintro ⟨hr, hlt⟩
      exact ⟨hr, by omega, by omega⟩

theorem monitorCheckMmuupdate_pos_iff (l : DomList) (mmuPtr mmuVal : BitVec 64)
    (domid processId : BitVec 32) :
    0 < monitorCheckMmuupdate l mmuPtr mmuVal domid processId ↔
      Watched l domid.toNat processId.toNat :=
  monitorCheck_pos_iff l domid processId

theorem monitorCheckPageFault_pos_iff (l : DomList) (domid processId : BitVec 32)
    (address : BitVec 64) :
    0 < monitorCheckPageFault l domid processId address ↔
      Watched l domid.toNat processId.toNat :=
  monitorCheck_pos_iff l domid processId

/-- A watch of an unregistered domain leaves the table as it is. -/
theorem monitorWatch_unregistered {l : DomList} {rep : WatchReport}
    (hd : rep.domid.toNat < monitorMaxVms) (h : l rep.domid.toNat = none) :
    monitorWatch l rep = some (l, -1) := by
  simp [monitorWatch, hd, h]

theorem monitorWatch_registered {l : DomList} {rep : WatchReport} {row : Row}
    (hd : rep.domid.toNat < monitorMaxVms) (hp : rep.processId.toNat < monitorMaxProcs)
    (h : l rep.domid.toNat = some row) :
    monitorWatch l rep = some (Function.update l rep.domid.toNat
      (some (Function.update row rep.processId.toNat 1)), 0) := by
  simp [monitorWatch, hd, hp, h]

/-- A watch touches no row but that of the domain it names. -/
theorem monitorWatch_other {l l' : DomList} {rep : WatchReport} {r : Int} {e : ℕ}
    (h : monitorWatch l rep = some (l', r)) (he : rep.domid.toNat ≠ e) : l' e = l e := by
  unfold monitorWatch at h
  split at h
  · split at h
    · cases h
      rfl
    · split at h
      · cases h
        exact Function.update_of_ne he.symm _ _
      · cases h
  · cases h

/-- The row of a domain after a watch. -/
theorem monitorWatch_row {l : DomList} {rep : WatchReport} {r : DomList × Int}
    (h : monitorWatch l rep = some r) (e : ℕ) :
    r.1 e = if rep.domid.toNat = e then
        (l e).map fun row => Function.update row rep.processId.toNat 1
      else l e := by
  by_cases hne : rep.domid.toNat = e
  · subst hne
    rw [if_pos rfl]
    have hd : rep.domid.toNat < monitorMaxVms := by
      by_contra hd
      simp [monitorWatch, hd] at h
    cases hrow : l rep.domid.toNat with
    | none =>
      rw [monitorWatch_unregistered hd hrow, Option.some.injEq] at h
      rw [← h]
      exact hrow
    | some row =>
      have hp : rep.processId.toNat < monitorMaxProcs := by
        by_contra hp
        simp [monitorWatch, hd, hrow, hp] at h
      rw [monitorWatch_registered hd hp hrow, Option.some.injEq] at h
      rw [← h]
      simp only [Function.update_self, Option.map_some]
  · rw [if_neg hne, monitorWatch_other h hne]

end Maitland
