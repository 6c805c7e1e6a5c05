import Maitland.Protocol.WatchTable

/-!
# What a failed registration leaves behind

`monitor_ioctl` stores the new share info in the global before `monitor_register`
has mapped its ring, and the value of `monitor_register` is dropped.
-/

namespace Maitland

/-- The registration has left no trace in the globals, the pages and the areas. -/
structure MonitorState.Unchanged (st st' : MonitorState) : Prop where
  shareInfo : st'.shareInfo = st.shareInfo
  /-- The share info the global points to, with its ring. -/
  info : st'.shareInfo.bind (st'.infos[·]?) = st.shareInfo.bind (st.infos[·]?)
  sring : st'.sring = st.sring
  domList : st'.domList = st.domList
  currProc : st'.currProc = st.currProc
  mapped : st'.mapped = st.mapped
  areas : st'.areas = st.areas

def MonitorAct.IsRegister : MonitorAct → Prop
  | .ioctl (.register _ _) => True
  | _ => False

/-- The share info of the verdicts is the `k`-th and has no ring, nor will a page
mapped later give it one. -/
structure MonitorState.RingLost (st : MonitorState) (k : ℕ) (info : ShareInfo) : Prop where
  shareInfo : st.shareInfo = some k
  infos : st.infos[k]? = some info
  ring : st.ringOf info = none
  area : ∀ a, info.sring = some a → a < st.areas

theorem MonitorState.RegisterFailed.not_unchanged {st st' : MonitorState} {domid : BitVec 16}
    (h : st.RegisterFailed st' domid) : ¬st.Unchanged st' := by
  intro hu
  obtain ⟨info, hinfos, _⟩ := h.info
  -- The global points past every share info there was before.
  have hshare : st.shareInfo = some st.infos.length := hu.shareInfo.symm.trans h.shareInfo
  have hinfo := hu.info
  rw [h.shareInfo, hshare, hinfos] at hinfo
  simp at hinfo

theorem MonitorState.RegisterFailed.ringLost {st st' : MonitorState} {domid : BitVec 16}
    (h : st.RegisterFailed st' domid) : ∃ info, st'.RingLost st.infos.length info := by
  obtain ⟨info, hinfos, _, hring, harea⟩ := h.info
  exact ⟨info, h.shareInfo, by rw [hinfos]; simp, hring, harea⟩

namespace MonitorState.RingLost

variable {z : Ring.Size} {st st' : MonitorState} {k : ℕ} {info : ShareInfo}

theorem verdictRing (h : st.RingLost k info) : st.verdictRing = none := by
  simp [MonitorState.verdictRing, h.shareInfo, h.infos, h.ring]

/-- Without a ring the verdict faults. -/
theorem verdict_faults (h : st.RingLost k info) (hc : st.currProc ≠ 0) (op : BitVec 32)
    (garbage : Message) : monitorVerdict z st op garbage = none := by
  rw [monitorVerdict, if_pos hc, Option.map_eq_none_iff]
  by_contra hop
  obtain ⟨st', hst'⟩ := Option.ne_none_iff_exists'.mp hop
  exact (monitorOpProcess_verdictRing hst').1 h.verdictRing

theorem verdict (h : st.RingLost k info) {op : BitVec 32} {garbage : Message}
    {r : MonitorState × Int} (hr : monitorVerdict z st op garbage = some r) :
    r.1.RingLost k info := by
  by_cases hc : st.currProc = 0
  · rw [monitorVerdict_idle hc] at hr
    cases hr
    exact h
  · rw [h.verdict_faults hc] at hr
    cases hr

theorem mapsOnly (h : st.RingLost k info) (hm : st.MapsOnly st') : st'.RingLost k info where
  shareInfo := hm.shareInfo.trans h.shareInfo
  infos := by rw [hm.infos, h.infos]
  ring := by
    have hring := h.ring
    unfold MonitorState.ringOf at hring ⊢
    cases hs : info.sring with
    | none => rfl
    | some a =>
      rw [hs] at hring
      exact (hm.mapped a (h.area a hs)).trans hring
  area a ha := Nat.lt_of_lt_of_le (h.area a ha) hm.areas

theorem ioctl (h : st.RingLost k info) {a : Ioctl} (ha : ¬(MonitorAct.ioctl a).IsRegister)
    {r : MonitorState × Int} (hr : monitorIoctl z st a = some r) : r.1.RingLost k info := by
  cases a with
  | register arg env => exact absurd trivial ha
  | report arg granted =>
    cases hr
    exact h.mapsOnly (monitorReport_mapsOnly _ _ _)
  | resume garbage => exact h.verdict hr
  | kill garbage => exact h.verdict hr
  | watch arg =>
    obtain ⟨r', _, rfl⟩ := Option.map_eq_some_iff.mp hr
    exact ⟨h.shareInfo, h.infos, h.ring, h.area⟩
  | dump | doneReport | deregister | other =>
    cases hr
    exact h

/-- An interrupt of another domain does not touch the lost share info. -/
theorem irq (h : st.RingLost k info) {k' : ℕ} {garbage : Message}
    {r : MonitorState × List Exchange} (hr : monitorIrq z st k' garbage = some r) :
    r.1.RingLost k info := by
  simp only [monitorIrq, Option.bind_eq_bind, Option.bind_eq_some_iff] at hr
  obtain ⟨info', hi, ring, hring, hst⟩ := hr
  cases hst
  have hne : k' ≠ k := by
    rintro rfl
    rw [h.infos, Option.some.injEq] at hi
    rw [← hi, h.ring] at hring
    cases hring
  exact ⟨h.shareInfo, by simp [MonitorState.setInfo, List.getElem?_set_ne hne, h.infos], h.ring,
    h.area⟩

theorem step (h : st.RingLost k info) {a : MonitorAct} (ha : ¬a.IsRegister)
    (hst : monitorStep z st a = some st') : st'.RingLost k info := by
  cases a with
  | ioctl a =>
    obtain ⟨r, hr, rfl⟩ := Option.map_eq_some_iff.mp hst
    exact h.ioctl ha hr
  | guest ref page =>
    cases hst
    exact ⟨h.shareInfo, h.infos, h.ring, h.area⟩
  | irq k' garbage =>
    obtain ⟨r, hr, rfl⟩ := Option.map_eq_some_iff.mp hst
    exact h.irq hr

/-- The ring stays lost until the next registration. -/
theorem run (h : st.RingLost k info) {acts : List MonitorAct} (hacts : ∀ a ∈ acts, ¬a.IsRegister)
    (hr : Lts.run (monitorStep z) st acts = some st') : st'.RingLost k info := by
  have hsteps : ∀ (s : MonitorState) (a : MonitorAct) (t : MonitorState), s.RingLost k info →
      monitorStep z s a = some t → ¬a.IsRegister → t.RingLost k info :=
    fun s a t hs hst ha => hs.step ha hst
  exact Lts.Along.invariant hsteps (Lts.Along.of_mem (fun a ha _ _ => hacts a ha) st) hr h

end MonitorState.RingLost

/-- Wherever a registration fails it returns with the state changed, and until the
next registration no verdict on a reported process gets through. -/
theorem failed_registration_changes_the_state (z : Ring.Size) (st : MonitorState)
    (arg : UspaceInfo) (env : RegisterEnv) (henv : ¬env.Succeeds) :
    ∃ st', monitorIoctl z st (.register arg env) = some (st', 0) ∧ ¬st.Unchanged st' ∧
      ∀ acts st'', (∀ a ∈ acts, ¬a.IsRegister) → Lts.run (monitorStep z) st' acts = some st'' →
        st''.currProc ≠ 0 → ∀ garbage, monitorIoctl z st'' (.resume garbage) = none ∧
          monitorIoctl z st'' (.kill garbage) = none := by
  obtain ⟨st', hst'⟩ := monitorIoctl_register_failed_returns z st arg env henv
  have hfailed := monitorIoctl_register_failed henv hst'
  refine ⟨st', hst', hfailed.not_unchanged, ?_⟩
  intro acts st'' hacts hrun hc garbage
  obtain ⟨info, hlost⟩ := hfailed.ringLost
  have hlost := hlost.run hacts hrun
  exact ⟨hlost.verdict_faults hc _ _, hlost.verdict_faults hc _ _⟩

/-- Domain 1 is registered and its process 7 reported. -/
def sevenReported : MonitorState :=
  { (monitorInit fun _ => Ring.sharedRingInit fun _ => default).registered ⟨1, 5, 3⟩ 9 with
    currProc := 7 }

/-- The page of domain 2 is mapped, but its channel cannot be bound. -/
def bindFails : RegisterEnv := ⟨true, 0, 0, -22⟩

theorem failed_registration_changes_the_state_bindFails :
    ∃ st', monitorIoctl ringSize sevenReported (.register ⟨2, 6, 4⟩ bindFails) = some (st', 0) ∧
      monitorIoctl ringSize st' (.kill default) = none := by
  obtain ⟨st', hst', _, hlater⟩ := failed_registration_changes_the_state ringSize sevenReported
    ⟨2, 6, 4⟩ bindFails (by decide)
  have hc : st'.currProc ≠ 0 := by
    rw [(monitorIoctl_register_failed (by decide) hst').currProc]
    decide
  exact ⟨st', hst', (hlater [] st' (by simp) rfl hc default).2⟩

/-- The verdict on process 7 could be sent before domain 2 tried to register, and
faults after it. -/
theorem failed_registration_loses_the_ring :
    ∃ st', monitorIoctl ringSize sevenReported (.register ⟨2, 6, 4⟩ bindFails) = some (st', 0) ∧
      ¬sevenReported.Unchanged st' ∧
      (monitorIoctl ringSize sevenReported (.kill default)).isSome ∧
      monitorIoctl ringSize st' (.kill default) = none := by
  obtain ⟨st', hst'⟩ := monitorIoctl_register_failed_returns ringSize sevenReported ⟨2, 6, 4⟩
    bindFails (by decide)
  have hfailed := monitorIoctl_register_failed (by decide) hst'
  obtain ⟨info, hlost⟩ := hfailed.ringLost
  refine ⟨st', hst', hfailed.not_unchanged, by decide, hlost.verdict_faults ?_ _ _⟩
  rw [hfailed.currProc]
  decide

end Maitland
