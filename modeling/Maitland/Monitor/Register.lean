import Maitland.Library.Run
import Maitland.Monitor.Driver

/-!
# A registration in its own steps

`monitor_register` binds the event channel before it is through with the share info
and the table, and the handler may run from then on.  Here it is cut where the handler
can see the difference.
-/

namespace Maitland

/-- Where `monitor_register` is: the step it takes next. -/
inductive RegisterPc where
  /-- `alloc_vm_area` and the map hypercall. -/
  | map
  /-- `BACK_RING_INIT` on the area. -/
  | ringInit (area : ℕ)
  /-- `bind_interdomain_evtchn_to_irqhandler` -/
  | bind (area : ℕ)
  /-- `info->evtchn = err` -/
  | store
  /-- `monitor_dom_list[info->domid] = kzalloc(..)` -/
  | row
  | returned (value : Int)
  deriving DecidableEq

/-- The step at a place, for the `k`-th share info.  `none` is the unchecked store beyond
the table for a domain id of 256 or more. -/
def monitorRegisterStep (env : RegisterEnv) (k : ℕ) (st : MonitorState) :
    RegisterPc → Option (MonitorState × RegisterPc)
  | .map =>
    if env.area = false then some (st, .returned efault)
    else
      let area := st.areas
      let st := { st with areas := area + 1 }
      if env.mapCall ≠ 0 then some (st, .returned efault)
      else if env.status ≠ 0 then some (st, .returned efault)
      else st.infos[k]?.map fun info =>
        ({ st with mapped := Function.update st.mapped area (some ⟨info.domid, info.gref⟩) },
          .ringInit area)
  | .ringInit area =>
    st.infos[k]?.map fun info =>
      ({ st.setInfo k { info with bring := Ring.backRingInit, sring := some area } with
        sring := some area }, .bind area)
  | .bind area =>
    if env.irq < 0 then
      some ({ st with mapped := Function.update st.mapped area none }, .returned efault)
    else some (st, .store)
  | .store =>
    st.infos[k]?.map fun info =>
      (st.setInfo k { info with evtchn := BitVec.ofInt 32 env.irq }, .row)
  | .row =>
    st.infos[k]?.bind fun info =>
      if info.domid.toNat < monitorMaxVms then
        some ({ st with
          domList := Function.update st.domList info.domid.toNat (some Row.zero) }, .returned 0)
      else none
  | .returned _ => none

/-- The channel is bound, and events of the guest make the handler run. -/
def RegisterPc.Bound : RegisterPc → Prop
  | .store | .row => True
  | .returned value => value = 0
  | _ => False

instance : DecidablePred RegisterPc.Bound
  | .map | .ringInit _ | .bind _ => isFalse id
  | .store | .row => isTrue trivial
  | .returned value => inferInstanceAs (Decidable (value = 0))

theorem getElem?_setInfo {st : MonitorState} {k : ℕ} {info : ShareInfo}
    (h : st.infos[k]? = some info) (info' : ShareInfo) :
    (st.setInfo k info').infos[k]? = some info' := by
  obtain ⟨hk, _⟩ := List.getElem?_eq_some_iff.mp h
  simp only [MonitorState.setInfo, List.getElem?_set_self hk]

/-- What a step does, one case for each way through the function, with `info` the share info
it works on. -/
inductive RegisterTaken (env : RegisterEnv) (k : ℕ) (st : MonitorState) (info : ShareInfo) :
    RegisterPc → MonitorState → RegisterPc → Prop
  | noArea : env.area = false → RegisterTaken env k st info .map st (.returned efault)
  | mapFailed : env.mapCall ≠ 0 ∨ env.status ≠ 0 →
      RegisterTaken env k st info .map { st with areas := st.areas + 1 } (.returned efault)
  | mapped : env.area = true → env.mapCall = 0 → env.status = 0 →
      RegisterTaken env k st info .map { st with
        areas := st.areas + 1
        mapped := Function.update st.mapped st.areas (some ⟨info.domid, info.gref⟩) }
        (.ringInit st.areas)
  | ringInit (area : ℕ) : RegisterTaken env k st info (.ringInit area)
      { st.setInfo k { info with bring := Ring.backRingInit, sring := some area } with
        sring := some area } (.bind area)
  | bindFailed (area : ℕ) : env.irq < 0 → RegisterTaken env k st info (.bind area)
      { st with mapped := Function.update st.mapped area none } (.returned efault)
  | bound (area : ℕ) : 0 ≤ env.irq → RegisterTaken env k st info (.bind area) st .store
  | stored : RegisterTaken env k st info .store
      (st.setInfo k { info with evtchn := BitVec.ofInt 32 env.irq }) .row
  | row : info.domid.toNat < monitorMaxVms → RegisterTaken env k st info .row
      { st with domList := Function.update st.domList info.domid.toNat (some Row.zero) }
      (.returned 0)

theorem monitorRegisterStep_taken {env : RegisterEnv} {k : ℕ} {st st' : MonitorState}
    {pc pc' : RegisterPc} {info : ShareInfo} (hinfo : st.infos[k]? = some info)
    (h : monitorRegisterStep env k st pc = some (st', pc')) :
    RegisterTaken env k st info pc st' pc' := by
  cases pc with
  | map =>
    simp only [monitorRegisterStep, hinfo, Option.map_some] at h
    split at h
    · next harea =>
      cases h
      exact .noArea harea
    · next harea =>
      split_ifs at h with hcall hstatus
      · cases h
        exact .mapFailed (.inl hcall)
      · cases h
        exact .mapFailed (.inr hstatus)
      · cases h
        exact .mapped (eq_true_of_ne_false harea) (not_not.mp hcall) (not_not.mp hstatus)
  | ringInit area =>
    simp only [monitorRegisterStep, hinfo, Option.map_some] at h
    cases h
    exact .ringInit area
  | bind area =>
    simp only [monitorRegisterStep] at h
    split at h
    · next hirq =>
      cases h
      exact .bindFailed area hirq
    · next hirq =>
      cases h
      exact .bound area (Int.not_lt.mp hirq)
  | store =>
    simp only [monitorRegisterStep, hinfo, Option.map_some] at h
    cases h
    exact .stored
  | row =>
    simp only [monitorRegisterStep, hinfo, Option.bind_some] at h
    split at h
    · next hdomid =>
      cases h
      exact .row hdomid
    · cases h
  | returned value => cases h

/-- The steps one after the other, with nothing in between, are the function. -/
theorem monitorRegister_steps {st : MonitorState} {k : ℕ} {info : ShareInfo}
    (h : st.infos[k]? = some info) (env : RegisterEnv) :
    ∃ n, Lts.run (fun r (_ : Unit) => monitorRegisterStep env k r.1 r.2) (st, .map)
        (List.replicate n ()) =
      (monitorRegister st k info env).map fun r => (r.1, .returned r.2) := by
  by_cases harea : env.area = false
  · exact ⟨1, by simp [Lts.run, monitorRegisterStep, monitorRegister, harea]⟩
  by_cases hcall : env.mapCall = 0
  swap
  · exact ⟨1, by simp [Lts.run, monitorRegisterStep, monitorRegister, harea, hcall]⟩
  by_cases hstatus : env.status = 0
  swap
  · exact ⟨1, by simp [Lts.run, monitorRegisterStep, monitorRegister, harea, hcall, hstatus]⟩
  by_cases hirq : env.irq < 0
  · exact ⟨3, by simp [List.replicate, Lts.run, monitorRegisterStep, monitorRegister, harea, hcall,
      hstatus, h, hirq, MonitorState.setInfo]⟩
  · obtain ⟨hk, hget⟩ := List.getElem?_eq_some_iff.mp h
    refine ⟨5, ?_⟩
    by_cases hd : info.domid.toNat < monitorMaxVms
    · simp [List.replicate, Lts.run, monitorRegisterStep, monitorRegister, harea, hcall, hstatus,
        hirq, hk, hget, hd, MonitorState.setInfo]
    · simp [List.replicate, Lts.run, monitorRegisterStep, monitorRegister, harea, hcall, hstatus,
        hirq, hk, hget, hd, MonitorState.setInfo]

end Maitland
