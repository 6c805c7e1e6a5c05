import Maitland.Library.Run
import Maitland.Server.Watch

/-!
# Handing watches over through Xenstore

The guest's `MALPAGE_WATCH` ioctls write one node, a transaction each.  The
server's callback reads it and removes it for good, with the rights the guest had
on it and with the watch.
-/

namespace Maitland

open Decimal

/-- Where the callback stands. -/
inductive WatchPc where
  | idle
  | read
  | remove (domid pid : ℤ)
  | send (domid pid : ℤ)
  /-- An exception went by while `global_sem` was held. -/
  | dead
  deriving DecidableEq

structure WatchState where
  /-- The process ids of the `MALPAGE_WATCH` ioctls since the registration. -/
  requested : List (BitVec 32)
  /-- `none` once the node was removed. -/
  node : Option WatchNode
  watching : Bool
  pending : ℕ
  pc : WatchPc
  domList : DomList

inductive WatchAct where
  | watch (pid : BitVec 32)
  | event
  | read
  | remove
  | send

/-- `domid` is the guest's. -/
def watchStep (domid : BitVec 16) (s : WatchState) : WatchAct → Option WatchState
  | .watch pid =>
    if pid.toNat < monitorMaxProcs then
      match s.node with
      | some _ => some { s with
          requested := s.requested ++ [pid]
          node := some (.announce (print domid.toNat) (print pid.toNat))
          pending := if s.watching then s.pending + 1 else s.pending }
      -- The node is gone and the guest may not make it: the writes are refused.
      | none => some { s with requested := s.requested ++ [pid] }
    else none
  | .event =>
    if s.watching ∧ s.pc = .idle ∧ 0 < s.pending then
      some { s with
        pending := s.pending - 1
        -- `len(None)` raises, outside the semaphore, and the watch stays.
        pc := if IsReady (s.node.bind WatchNode.ready) then .read else .idle }
    else none
  | .read =>
    if s.pc = .read then
      match readWatch s.node with
      | some (domid, pid) => some { s with pc := .remove domid pid }
      | none => some { s with pc := .dead }
    else none
  | .remove =>
    match s.pc with
    | .remove domid pid => some { s with
        node := none
        pending := if s.watching then s.pending + 1 else s.pending
        pc := .send domid pid }
    | _ => none
  | .send =>
    match s.pc with
    | .send domid pid =>
      match packWatch domid pid with
      | some rep => (monitorWatch s.domList rep).map fun r => { s with
          domList := r.1
          watching := false
          pending := 0
          pc := .idle }
      | none => some { s with pc := .idle }
    | _ => none

/-- The guest has registered: its row is clear, its node new, and a new watch fires once
by itself. -/
def watchStart (domList : DomList) : WatchState :=
  ⟨[], some .empty, true, 1, .idle, domList⟩

/-- The server has looked at every event. -/
def WatchState.Quiescent (s : WatchState) : Prop := s.pending = 0 ∧ s.pc = .idle

-- ════════════════════════════════════════════════════════════════════════
-- The life of the watch
-- ════════════════════════════════════════════════════════════════════════

/-- From the registration to the one `MONITOR_WATCH`. -/
inductive WatchState.Phase (domid : BitVec 16) (s : WatchState) : Prop where
  | fresh : s.requested = [] → s.node = some .empty → s.watching = true → s.pc = .idle →
      s.domList domid.toNat = some Row.zero → Phase domid s
  | announced {pid} : pid ∈ s.requested →
      s.node = some (.announce (print domid.toNat) (print pid.toNat)) →
      pid.toNat < monitorMaxProcs → s.watching = true →
      (s.pc = .idle ∧ 0 < s.pending) ∨ s.pc = .read →
      s.domList domid.toNat = some Row.zero → Phase domid s
  | removing {pid : BitVec 32} : pid ∈ s.requested → pid.toNat < monitorMaxProcs →
      s.pc = .remove domid.toNat pid.toNat → s.domList domid.toNat = some Row.zero →
      Phase domid s
  | sending {pid : BitVec 32} : pid ∈ s.requested → pid.toNat < monitorMaxProcs →
      s.node = none → s.pc = .send domid.toNat pid.toNat →
      s.domList domid.toNat = some Row.zero → Phase domid s
  | served {pid} : pid ∈ s.requested → pid.toNat < monitorMaxProcs → s.watching = false →
      s.node = none → s.pc = .idle →
      s.domList domid.toNat = some (Function.update Row.zero pid.toNat 1) → Phase domid s

namespace WatchState.Phase

variable {domid : BitVec 16} {s t : WatchState}

theorem start {domList : DomList} (h : domList domid.toNat = some Row.zero) :
    (watchStart domList).Phase domid :=
  .fresh rfl rfl rfl rfl h

theorem watch (h : s.Phase domid) {pid : BitVec 32}
    (ht : watchStep domid s (.watch pid) = some t) : t.Phase domid := by
  simp only [watchStep] at ht
  split at ht
  · next hlt =>
    have hmem : pid ∈ s.requested ++ [pid] := by simp
    cases hnode : s.node with
    | none =>
      rw [hnode, Option.some.injEq] at ht
      subst ht
      cases h with
      | fresh _ hn => rw [hnode] at hn; cases hn
      | announced _ hn => rw [hnode] at hn; cases hn
      | removing hp hlt' hpc hrow => exact .removing (List.mem_append_left _ hp) hlt' hpc hrow
      | sending hp hlt' _ hpc hrow =>
        exact .sending (List.mem_append_left _ hp) hlt' rfl hpc hrow
      | served hp hlt' hw _ hpc hrow =>
        exact .served (List.mem_append_left _ hp) hlt' hw rfl hpc hrow
    | some n =>
      rw [hnode, Option.some.injEq] at ht
      subst ht
      cases h with
      | fresh _ _ hw hpc hrow =>
        refine .announced hmem rfl hlt hw (.inl ⟨hpc, ?_⟩) hrow
        rw [hw]
        exact Nat.succ_pos _
      | announced _ _ _ hw hpc hrow =>
        refine .announced hmem rfl hlt hw ?_ hrow
        rcases hpc with ⟨hpc, _⟩ | hpc
        · refine .inl ⟨hpc, ?_⟩
          rw [hw]
          exact Nat.succ_pos _
        · exact .inr hpc
      | removing hp hlt' hpc hrow => exact .removing (List.mem_append_left _ hp) hlt' hpc hrow
      | sending _ _ hn => rw [hnode] at hn; cases hn
      | served _ _ _ hn => rw [hnode] at hn; cases hn
  · cases ht

theorem event (h : s.Phase domid) (ht : watchStep domid s .event = some t) : t.Phase domid := by
  simp only [watchStep] at ht
  split at ht
  · next hc =>
    obtain ⟨hw, hpc, hpos⟩ := hc
    rw [Option.some.injEq] at ht
    subst ht
    cases h with
    | fresh hreq hnode _ _ hrow =>
      refine .fresh hreq hnode hw ?_ hrow
      rw [if_neg]
      rw [hnode]
      exact (by decide : ¬IsReady none)
    | announced hp hnode hlt _ _ hrow =>
      refine .announced hp hnode hlt hw (.inr ?_) hrow
      rw [if_pos]
      rw [hnode]
      exact (by decide : IsReady (some ['1']))
    | removing _ _ hpc' | sending _ _ _ hpc' => simp [hpc] at hpc'
    | served _ _ hw' => simp [hw'] at hw
  · cases ht

theorem read (h : s.Phase domid) (ht : watchStep domid s .read = some t) : t.Phase domid := by
  simp only [watchStep] at ht
  split at ht
  · next hpc =>
    cases h with
    | fresh _ _ _ hpc' => simp [hpc] at hpc'
    | announced hp hnode hlt _ _ hrow =>
      rw [hnode, readWatch_announce, Option.some.injEq] at ht
      subst ht
      exact .removing hp hlt rfl hrow
    | removing _ _ hpc' | sending _ _ _ hpc' | served _ _ _ _ hpc' => simp [hpc] at hpc'
  · cases ht

theorem remove (h : s.Phase domid) (ht : watchStep domid s .remove = some t) :
    t.Phase domid := by
  simp only [watchStep] at ht
  split at ht
  · next d p hpc =>
    rw [Option.some.injEq] at ht
    subst ht
    cases h with
    | fresh _ _ _ hpc' => simp [hpc] at hpc'
    | announced _ _ _ _ hpc' => simp [hpc] at hpc'
    | removing hp hlt hpc' hrow =>
      rw [hpc] at hpc'
      exact .sending hp hlt rfl (by simpa using hpc') hrow
    | sending _ _ _ hpc' | served _ _ _ _ hpc' => simp [hpc] at hpc'
  · cases ht

/-- The one watch that reaches the monitor. -/
theorem send (h : s.Phase domid) (hd : domid.toNat < monitorMaxVms)
    (ht : watchStep domid s .send = some t) : t.Phase domid := by
  simp only [watchStep] at ht
  split at ht
  · next d p hpc =>
    cases h with
    | fresh _ _ _ hpc' | announced _ _ _ _ hpc' | removing _ _ hpc' => simp [hpc] at hpc'
    | served _ _ _ _ hpc' => simp [hpc] at hpc'
    | @sending pid hp hlt hnode hpc' hrow =>
      obtain ⟨rfl, rfl⟩ : d = domid.toNat ∧ p = pid.toNat := by simpa [hpc] using hpc'
      have hdom : (domid.setWidth 32).toNat = domid.toNat :=
        BitVec.toNat_setWidth_of_le (by decide)
      have hwatch : monitorWatch s.domList ⟨pid, domid.setWidth 32, 0⟩ =
          some (Function.update s.domList (domid.setWidth 32).toNat
            (some (Function.update Row.zero pid.toNat 1)), 0) :=
        monitorWatch_registered (by rwa [hdom]) hlt (by rw [hdom]; exact hrow)
      simp only [packWatch_toNat, hwatch, hdom, Option.map_some, Option.some.injEq] at ht
      subst ht
      exact .served hp hlt rfl hnode rfl (by simp)
  · cases ht

theorem step (h : s.Phase domid) (hd : domid.toNat < monitorMaxVms) {a : WatchAct}
    (ht : watchStep domid s a = some t) : t.Phase domid := by
  cases a with
  | watch pid => exact h.watch ht
  | event => exact h.event ht
  | read => exact h.read ht
  | remove => exact h.remove ht
  | send => exact h.send hd ht

/-- At rest, either nothing was requested or exactly one of the requests is marked. -/
theorem at_rest (h : s.Phase domid) (hq : s.Quiescent) :
    s.requested = [] ∨ ∃ pid ∈ s.requested,
      ∀ p ∈ s.requested, Watched s.domList domid.toNat p.toNat ↔ p = pid := by
  obtain ⟨hpending, hpc⟩ := hq
  cases h with
  | fresh hreq => exact .inl hreq
  | announced _ _ _ _ hpc' =>
    rcases hpc' with ⟨_, hpos⟩ | hpc'
    · omega
    · simp [hpc] at hpc'
  | removing _ _ hpc' | sending _ _ _ hpc' => simp [hpc] at hpc'
  | @served pid hp hlt _ _ _ hrow =>
    refine .inr ⟨pid, hp, fun p _ => ?_⟩
    constructor
    · rintro ⟨row, hr, hne, _⟩
      rw [hrow, Option.some.injEq] at hr
      subst hr
      by_contra hpp
      exact hne (Function.update_of_ne (fun he => hpp (BitVec.eq_of_toNat_eq he)) _ _)
    · rintro rfl
      exact ⟨_, hrow, by simp, hlt⟩

end WatchState.Phase

/-- Once no event is pending, every process id that was passed to `MALPAGE_WATCH` is
marked exactly when all the ioctls passed the same one. -/
theorem watches_take_effect_iff (domid : BitVec 16) (hd : domid.toNat < monitorMaxVms)
    (domList : DomList) (hreg : domList domid.toNat = some Row.zero) (as : List WatchAct)
    (s : WatchState) (hr : Lts.run (watchStep domid) (watchStart domList) as = some s)
    (hq : s.Quiescent) :
    (∀ p ∈ s.requested, Watched s.domList domid.toNat p.toNat) ↔
      ∀ p ∈ s.requested, ∀ q ∈ s.requested, p = q := by
  have h : s.Phase domid :=
    Lts.invariant (fun _ _ _ h ht => h.step hd ht) hr (WatchState.Phase.start hreg)
  rcases h.at_rest hq with hnil | ⟨pid, hpid, hmarked⟩
  · simp [hnil]
  · constructor
    · intro hall p hp q hq
      rw [(hmarked p hp).mp (hall p hp), (hmarked q hq).mp (hall q hq)]
    · intro heq p hp
      exact (hmarked p hp).mpr (heq p hp pid hpid)

/-- Domain 1 right after its registration. -/
def domainOneRow : DomList := Function.update DomList.init 1 (some Row.zero)

/-- Two requests for process 7, the second after the node is gone. -/
def watchSevenTwice : List WatchAct := [.watch 7, .event, .read, .remove, .send, .watch 7]

theorem watches_take_effect_iff_watchSevenTwice :
    ∃ s, Lts.run (watchStep 1) (watchStart domainOneRow) watchSevenTwice = some s ∧
      s.Quiescent ∧ s.requested = [7, 7] ∧ ∀ p ∈ s.requested, Watched s.domList 1 p.toNat := by
  have hrun : (Lts.run (watchStep 1) (watchStart domainOneRow) watchSevenTwice).map
      (fun s => (s.pending, s.pc, s.requested)) = some (0, .idle, [7, 7]) := by decide
  obtain ⟨s, hs, h⟩ := Option.map_eq_some_iff.mp hrun
  simp only [Prod.mk.injEq] at h
  obtain ⟨hpending, hpc, hreq⟩ := h
  refine ⟨s, hs, ⟨hpending, hpc⟩, hreq, (watches_take_effect_iff 1 (by decide) domainOneRow rfl
    watchSevenTwice s hs ⟨hpending, hpc⟩).mpr ?_⟩
  simp [hreq]

/-- A request for process 8 after the server has served one for process 7 is lost, and
so is one for process 7 that another overwrites before the server looks. -/
theorem later_watch_is_lost :
    (Lts.run (watchStep 1) (watchStart domainOneRow)
      [.watch 7, .event, .read, .remove, .send, .watch 8]).map
        (fun s => (s.pending, s.pc, s.requested, decide (Watched s.domList 1 8))) =
      some (0, .idle, [7, 8], false) ∧
    (Lts.run (watchStep 1) (watchStart domainOneRow)
      [.watch 7, .watch 8, .event, .read, .remove, .send]).map
        (fun s => (s.pending, s.pc, s.requested, decide (Watched s.domList 1 7))) =
      some (0, .idle, [7, 8], false) := by
  decide

end Maitland
