import Maitland.Library.Isolation
import Maitland.Server.Register
import Maitland.Server.Watch

/-!
# Guests against each other

The server's callbacks and the monitor with any number of guests.  What a
transaction of a callback finds under the nodes of a guest is whatever that guest
has put there by then, so it is part of the step, as are the pages a guest leaves
on its rings.

The domain a message is about is the one it names, not the one it came from.
-/

namespace Maitland

open Decimal

structure GuestsState where
  mon : MonitorState
  /-- An exception went by while `global_sem` was held, and every later callback waits. -/
  dead : Bool

/-- Each step with the guest it belongs to. -/
inductive GuestAct where
  /-- `watch_domain_register` on the value of the guest's node. -/
  | register (g : BitVec 16) (value : Option Text) (env : RegisterEnv)
  /-- `watch_domain_report`: what it read in `ready`, what it listed, what it read then, and
  whether the clean-up still finds the node. -/
  | report (g : BitVec 16) (value : Option Text) (dirs : Option (List Text)) (n : ReportNode)
      (found : Bool) (granted : Ref → Bool)
  /-- The verdict at the end of that callback. -/
  | verdict (g : BitVec 16) (kill : Bool) (garbage : Message)
  /-- `watch_domain_watchreport`: what it read in `ready` and what it read then. -/
  | watch (g : BitVec 16) (value : Option Text) (n : Option WatchNode)
  /-- New contents of a page of the guest. -/
  | ring (ref : Ref) (page : Ring.Shared Message)
  /-- An interrupt for a ring in a page of the guest. -/
  | irq (g : BitVec 16) (k : ℕ) (garbage : Message)

def GuestAct.guest : GuestAct → BitVec 16
  | .register g _ _ | .report g _ _ _ _ _ | .verdict g _ _ | .watch g _ _ | .irq g _ _ => g
  | .ring ref _ => ref.domid

/-- What may differ between two runs that differ in what `d` writes.  The interrupts are
among it, since the index of a share info counts every registration before it. -/
def GuestAct.Varies (d : BitVec 16) : GuestAct → Prop
  | .irq .. => True
  | a => a.guest = d

instance (d : BitVec 16) : DecidablePred (GuestAct.Varies d)
  | .irq .. => isTrue trivial
  | .register g _ _ | .report g _ _ _ _ _ | .verdict g _ _ | .watch g _ _ =>
    inferInstanceAs (Decidable (g = d))
  | .ring ref _ => inferInstanceAs (Decidable (ref.domid = d))

/-- An ioctl of the server. -/
def GuestsState.ioctl (z : Ring.Size) (s : GuestsState) (a : Ioctl) : Option GuestsState :=
  (monitorIoctl z s.mon a).map fun r => { s with mon := r.1 }

/-- `get_domain_path`, `mkdir` and `set_permissions` go through for `values[0]`. -/
def BindingsTake (xsTakes : Text → Bool) (v : Text) : Prop :=
  (v.splitOn ':').head?.any xsTakes = true

instance (xsTakes : Text → Bool) (v : Text) : Decidable (BindingsTake xsTakes v) :=
  inferInstanceAs (Decidable (_ = _))

/-- A run ends where the driver leaves its table or goes through a bad pointer.  `xsTakes` is
as in `watchDomainRegister`. -/
def guestsStep (xsTakes : Text → Bool) (z : Ring.Size) (s : GuestsState) :
    GuestAct → Option GuestsState
  | .register _ value env =>
    if s.dead then some s
    else match value with
      -- `len(None)` raises, before the semaphore is taken again.
      | none => some s
      | some v =>
        if 0 < v.length then
          match parseRegister v with
          | some arg =>
            -- The ioctl is made before the bindings are used.
            (s.ioctl z (.register arg env)).map fun t =>
              if BindingsTake xsTakes v then t else { t with dead := true }
          | none => some { s with dead := true }
        else some s
  | .report _ value dirs n found granted =>
    if s.dead then some s
    else if IsReady value then
      match dirs.bind (readReport n) with
      | some r =>
        if found then
          match packReport r with
          | some rep => s.ioctl z (.report rep granted)
          | none => some s
        else some { s with dead := true }
      | none => some { s with dead := true }
    else some s
  | .verdict _ kill garbage =>
    if s.dead then some s
    else s.ioctl z (if kill then .kill garbage else .resume garbage)
  | .watch _ value n =>
    if s.dead then some s
    else if IsReady value then
      match readWatch n with
      | some (domid, pid) =>
        match packWatch domid pid with
        | some rep => s.ioctl z (.watch rep)
        | none => some s
      | none => some { s with dead := true }
    else some s
  | .ring ref page => some { s with mon := { s.mon with
      page := Function.update s.mon.page ref page } }
  | .irq g k garbage => do
    let info ← s.mon.infos[k]?
    let ref ← s.mon.ringOf info
    if ref.domid = g then
      (monitorIrq z s.mon k garbage).map fun r => { s with mon := r.1 }
    else none

def guestsStart : GuestsState :=
  ⟨monitorInit fun _ => Ring.sharedRingInit fun _ => default, false⟩

/-- What guest `d` writes is well formed, with registrations that the bindings take, and none
of it names `e`: not its registrations, not its reports, not its watches and not the requests
on its rings. -/
def KeepsOff (xsTakes : Text → Bool) (d e : BitVec 16) (_ : GuestsState) (a : GuestAct)
    (_ : GuestsState) : Prop :=
  a.guest = d → match a with
    | .register _ value _ => ∀ v, value = some v → 0 < v.length →
        BindingsTake xsTakes v ∧
          ∃ arg, parseRegister v = some arg ∧ arg.domid.setWidth 16 ≠ e
    | .report _ value dirs n found _ => IsReady value → found = true ∧
        ∃ r, dirs.bind (readReport n) = some r ∧
          ∀ rep, packReport r = some rep → rep.domid.setWidth 16 ≠ e
    | .watch _ value n => IsReady value →
        ∃ domid pid, readWatch n = some (domid, pid) ∧
          ∀ rep, packWatch domid pid = some rep → rep.domid.setWidth 16 ≠ e
    | .ring _ page => ∀ i, (page.ring i).AsksNothingOf e.toNat
    | .verdict .. | .irq .. => True

/-- A report of `d` maps no page of `e`. -/
def MapsNothingOf (d e : BitVec 16) (s : GuestsState) (a : GuestAct) (t : GuestsState) : Prop :=
  match a with
  | .report g _ _ _ _ _ => g = d → ∀ area ref, t.mon.mapped area ≠ s.mon.mapped area →
      t.mon.mapped area = some ref → ref.domid ≠ e
  | _ => True

/-- An interrupt of `d` writes the same responses whatever is in the row of `e`. -/
def AnswersRegardless (z : Ring.Size) (d e : BitVec 16) (s : GuestsState) (a : GuestAct)
    (_ : GuestsState) : Prop :=
  match a with
  | .irq g k garbage => g = d → ∀ l : DomList, (∀ f, f ≠ e.toNat → l f = s.mon.domList f) →
      (monitorIrq z { s.mon with domList := l } k garbage).map (fun r => (r.1.page, r.2)) =
        (monitorIrq z s.mon k garbage).map fun r => (r.1.page, r.2)
  | _ => True

-- ════════════════════════════════════════════════════════════════════════
-- The row of a domain
-- ════════════════════════════════════════════════════════════════════════

/-- What the isolation of `e` is about: its row, and whether the server still works. -/
def GuestsState.view (e : BitVec 16) (s : GuestsState) : Option Row × Bool :=
  (s.mon.domList e.toNat, s.dead)

variable {xsTakes : Text → Bool} {z : Ring.Size} {d e : BitVec 16}

/-- Only registrations and watches touch the table. -/
theorem monitorIoctl_domList {st : MonitorState} {a : Ioctl} {r : MonitorState × Int}
    (h : monitorIoctl z st a = some r) (hreg : ∀ arg env, a ≠ .register arg env)
    (hwatch : ∀ arg, a ≠ .watch arg) : r.1.domList = st.domList := by
  cases a with
  | register arg env => exact absurd rfl (hreg arg env)
  | watch arg => exact absurd rfl (hwatch arg)
  | report rep granted =>
    cases h
    exact (monitorReport_mapsOnly granted st (monitorPopulateReport rep)).domList
  | resume garbage => exact (monitorVerdict_frame h).1
  | kill garbage => exact (monitorVerdict_frame h).1
  | dump | doneReport | deregister | other =>
    cases h
    rfl

/-- The row of `e` after a registration. -/
theorem monitorIoctl_register_row {st : MonitorState} {arg : UspaceInfo} {env : RegisterEnv}
    {r : MonitorState × Int} (h : monitorIoctl z st (.register arg env) = some r) :
    r.1.domList e.toNat =
      if env.Succeeds ∧ arg.domid.setWidth 16 = e then some Row.zero else st.domList e.toNat := by
  by_cases henv : env.Succeeds
  · obtain rfl := monitorIoctl_register_succeeds henv h
    simp only [MonitorState.registered, henv, true_and]
    by_cases he : arg.domid.setWidth 16 = e
    · rw [if_pos he, he, Function.update_self]
    · rw [if_neg he, Function.update_of_ne fun hn => he (BitVec.eq_of_toNat_eq hn).symm]
  · rw [(monitorIoctl_register_failed henv h).domList, if_neg fun hc => henv hc.1]

/-- What a step makes of the view while the server works. -/
def seenAlive (xsTakes : Text → Bool) (e : BitVec 16) (v : Option Row × Bool) :
    GuestAct → Option Row × Bool
  | .register _ value env =>
    match value with
    | none => v
    | some x =>
      if 0 < x.length then
        match parseRegister x with
        | some arg =>
          (if env.Succeeds ∧ arg.domid.setWidth 16 = e then some Row.zero else v.1,
            v.2 || !BindingsTake xsTakes x)
        | none => (v.1, true)
      else v
  | .report _ value dirs n found _ =>
    if IsReady value then
      match dirs.bind (readReport n) with
      | some _ => (v.1, v.2 || !found)
      | none => (v.1, true)
    else v
  | .watch _ value n =>
    if IsReady value then
      match readWatch n with
      | some (domid, pid) =>
        match packWatch domid pid with
        | some rep => (if rep.domid.toNat = e.toNat then
            v.1.map fun row => Function.update row rep.processId.toNat 1 else v.1, v.2)
        | none => v
      | none => (v.1, true)
    else v
  | .verdict .. | .ring .. | .irq .. => v

def seen (xsTakes : Text → Bool) (e : BitVec 16) (a : GuestAct) (v : Option Row × Bool) :
    Option Row × Bool :=
  if v.2 then v else seenAlive xsTakes e v a

theorem GuestsState.ioctl_view {s t : GuestsState} {a : Ioctl} (h : s.ioctl z a = some t)
    (hreg : ∀ arg env, a ≠ .register arg env) (hwatch : ∀ arg, a ≠ .watch arg) :
    t.view e = s.view e := by
  obtain ⟨r, hr, rfl⟩ := Option.map_eq_some_iff.mp h
  simp only [view, monitorIoctl_domList hr hreg hwatch]

/-- The steps of the server, which begin with the semaphore. -/
def GuestAct.IsCallback : GuestAct → Prop
  | .register .. | .report .. | .verdict .. | .watch .. => True
  | .ring .. | .irq .. => False

/-- What a step does, one case for each way through the callbacks. -/
inductive GuestsTaken (xsTakes : Text → Bool) (z : Ring.Size) (s : GuestsState) :
    GuestAct → GuestsState → Prop
  /-- The callback waits for the semaphore. -/
  | waits {a} : s.dead = true → a.IsCallback → GuestsTaken xsTakes z s a s
  | registerNothing {g value env} : s.dead = false → (∀ v, value = some v → ¬0 < v.length) →
      GuestsTaken xsTakes z s (.register g value env) s
  | registerRaises {g v env} : s.dead = false → 0 < v.length → parseRegister v = none →
      GuestsTaken xsTakes z s (.register g (some v) env) { s with dead := true }
  | register {g v env arg t} : s.dead = false → 0 < v.length → parseRegister v = some arg →
      BindingsTake xsTakes v → s.ioctl z (.register arg env) = some t →
      GuestsTaken xsTakes z s (.register g (some v) env) t
  /-- The bindings raise after the ioctl. -/
  | registerRefused {g v env arg t} : s.dead = false → 0 < v.length →
      parseRegister v = some arg → ¬BindingsTake xsTakes v →
      s.ioctl z (.register arg env) = some t →
      GuestsTaken xsTakes z s (.register g (some v) env) { t with dead := true }
  | reportNothing {g value dirs n found granted} : s.dead = false → ¬IsReady value →
      GuestsTaken xsTakes z s (.report g value dirs n found granted) s
  | reportRaises {g value dirs n found granted} : s.dead = false → IsReady value →
      dirs.bind (readReport n) = none ∨ found = false →
      GuestsTaken xsTakes z s (.report g value dirs n found granted) { s with dead := true }
  | reportUnpacked {g value dirs n granted r} : s.dead = false → IsReady value →
      dirs.bind (readReport n) = some r → packReport r = none →
      GuestsTaken xsTakes z s (.report g value dirs n true granted) s
  | report {g value dirs n granted r rep t} : s.dead = false → IsReady value →
      dirs.bind (readReport n) = some r → packReport r = some rep →
      s.ioctl z (.report rep granted) = some t →
      GuestsTaken xsTakes z s (.report g value dirs n true granted) t
  | verdict {g kill garbage t} : s.dead = false →
      s.ioctl z (if kill then .kill garbage else .resume garbage) = some t →
      GuestsTaken xsTakes z s (.verdict g kill garbage) t
  | watchNothing {g value n} : s.dead = false → ¬IsReady value →
      GuestsTaken xsTakes z s (.watch g value n) s
  | watchRaises {g value n} : s.dead = false → IsReady value → readWatch n = none →
      GuestsTaken xsTakes z s (.watch g value n) { s with dead := true }
  | watchUnpacked {g value n domid pid} : s.dead = false → IsReady value →
      readWatch n = some (domid, pid) → packWatch domid pid = none →
      GuestsTaken xsTakes z s (.watch g value n) s
  | watch {g value n domid pid rep t} : s.dead = false → IsReady value →
      readWatch n = some (domid, pid) → packWatch domid pid = some rep →
      s.ioctl z (.watch rep) = some t → GuestsTaken xsTakes z s (.watch g value n) t
  | ring {ref page} : GuestsTaken xsTakes z s (.ring ref page)
      { s with mon := { s.mon with page := Function.update s.mon.page ref page } }
  | irq {k garbage info ref r} : s.mon.infos[k]? = some info → s.mon.ringOf info = some ref →
      monitorIrq z s.mon k garbage = some r →
      GuestsTaken xsTakes z s (.irq ref.domid k garbage) { s with mon := r.1 }

theorem guestsStep_taken {s t : GuestsState} {a : GuestAct}
    (h : guestsStep xsTakes z s a = some t) : GuestsTaken xsTakes z s a t := by
  cases a with
  | register g value env =>
    simp only [guestsStep] at h
    split at h
    · next hdead => cases h; exact .waits hdead trivial
    · next hlive =>
      rw [Bool.not_eq_true] at hlive
      split at h
      · cases h; exact .registerNothing hlive fun v hv => by cases hv
      · next v =>
        split at h
        · next hlen =>
          split at h
          · next arg harg =>
            obtain ⟨t, hioctl, rfl⟩ := Option.map_eq_some_iff.mp h
            by_cases htakes : BindingsTake xsTakes v
            · rw [if_pos htakes]
              exact .register hlive hlen harg htakes hioctl
            · rw [if_neg htakes]
              exact .registerRefused hlive hlen harg htakes hioctl
          · next hnone => cases h; exact .registerRaises hlive hlen hnone
        · next hlen => cases h; exact .registerNothing hlive fun v hv => by cases hv; exact hlen
  | report g value dirs n found granted =>
    simp only [guestsStep] at h
    split at h
    · next hdead => cases h; exact .waits hdead trivial
    · next hlive =>
      rw [Bool.not_eq_true] at hlive
      split at h
      · next hready =>
        split at h
        · next r hr =>
          split at h
          · next hfound =>
            cases hfound
            split at h
            · next rep hrep => exact .report hlive hready hr hrep h
            · next hrep => cases h; exact .reportUnpacked hlive hready hr hrep
          · next hfound =>
            cases h; exact .reportRaises hlive hready (.inr (eq_false_of_ne_true hfound))
        · next hnone => cases h; exact .reportRaises hlive hready (.inl hnone)
      · next hready => cases h; exact .reportNothing hlive hready
  | verdict g kill garbage =>
    simp only [guestsStep] at h
    split at h
    · next hdead => cases h; exact .waits hdead trivial
    · next hlive => exact .verdict (eq_false_of_ne_true hlive) h
  | watch g value n =>
    simp only [guestsStep] at h
    split at h
    · next hdead => cases h; exact .waits hdead trivial
    · next hlive =>
      rw [Bool.not_eq_true] at hlive
      split at h
      · next hready =>
        split at h
        · next domid pid hr =>
          split at h
          · next rep hrep => exact .watch hlive hready hr hrep h
          · next hrep => cases h; exact .watchUnpacked hlive hready hr hrep
        · next hnone => cases h; exact .watchRaises hlive hready hnone
      · next hready => cases h; exact .watchNothing hlive hready
  | ring ref page => cases h; exact .ring
  | irq g k garbage =>
    simp only [guestsStep, Option.bind_eq_bind, Option.bind_eq_some_iff] at h
    obtain ⟨info, hinfo, ref, href, h⟩ := h
    split at h
    · next hg =>
      subst hg
      obtain ⟨r, hirq, rfl⟩ := Option.map_eq_some_iff.mp h
      exact .irq hinfo href hirq
    · cases h

/-- A server that works sees the step by the callback's own text. -/
theorem seen_view {s : GuestsState} (hlive : s.dead = false) (a : GuestAct) :
    seen xsTakes e a (s.view e) = seenAlive xsTakes e (s.view e) a := by
  rw [seen, GuestsState.view, if_neg (by simp [hlive])]

/-- What a step makes of the view depends on nothing but the view. -/
theorem guestsStep_view {s t : GuestsState} {a : GuestAct} (h : guestsStep xsTakes z s a = some t) :
    t.view e = seen xsTakes e a (s.view e) := by
  cases guestsStep_taken h with
  | waits hdead _ => rw [seen, GuestsState.view, if_pos hdead]
  | @registerNothing g value env hlive hnone =>
    rw [seen_view hlive]
    cases value with
    | none => rfl
    | some v => simp only [seenAlive, if_neg (hnone v rfl)]
  | registerRaises hlive hlen hnone =>
    rw [seen_view hlive]
    simp only [seenAlive, if_pos hlen, hnone]
    rfl
  | register hlive hlen harg htakes hioctl =>
    rw [seen_view hlive]
    obtain ⟨r, hr, rfl⟩ := Option.map_eq_some_iff.mp hioctl
    simp [seenAlive, hlen, harg, htakes, GuestsState.view, monitorIoctl_register_row hr]
  | registerRefused hlive hlen harg htakes hioctl =>
    rw [seen_view hlive]
    obtain ⟨r, hr, rfl⟩ := Option.map_eq_some_iff.mp hioctl
    simp [seenAlive, hlen, harg, htakes, GuestsState.view, monitorIoctl_register_row hr]
  | reportNothing hlive hready => rw [seen_view hlive, seenAlive, if_neg hready]
  | @reportRaises g value dirs n found granted hlive hready hraises =>
    rw [seen_view hlive, seenAlive, if_pos hready]
    rcases hraises with hnone | rfl
    · rw [hnone]
      rfl
    · cases dirs.bind (readReport n) <;> simp [GuestsState.view]
  | reportUnpacked hlive hready hr _ =>
    rw [seen_view hlive, seenAlive, if_pos hready, hr]
    simp
  | report hlive hready hr _ hioctl =>
    rw [seen_view hlive, seenAlive, if_pos hready, hr, GuestsState.ioctl_view hioctl (by simp)
      (by simp)]
    simp
  | verdict hlive hioctl =>
    rw [seen_view hlive]
    exact GuestsState.ioctl_view hioctl (by split <;> simp) (by split <;> simp)
  | watchNothing hlive hready => rw [seen_view hlive, seenAlive, if_neg hready]
  | watchRaises hlive hready hnone =>
    rw [seen_view hlive, seenAlive, if_pos hready, hnone]
    rfl
  | watchUnpacked hlive hready hr hrep =>
    rw [seen_view hlive, seenAlive, if_pos hready, hr]
    simp only [hrep]
  | watch hlive hready hr hrep hioctl =>
    rw [seen_view hlive, seenAlive, if_pos hready, hr]
    obtain ⟨r, hr, rfl⟩ := Option.map_eq_some_iff.mp hioctl
    obtain ⟨w, hw, rfl⟩ := Option.map_eq_some_iff.mp hr
    simp only [hrep, GuestsState.view, monitorWatch_row hw]
  | ring => exact (ite_self _).symm
  | irq _ _ hirq =>
    simp only [GuestsState.view, (monitorIrq_frame hirq).1]
    exact (ite_self _).symm

/-- What `d` writes without naming `e` leaves the view of `e` alone. -/
theorem seen_of_keepsOff {s t : GuestsState} {a : GuestAct} (ha : a.Varies d)
    (h : KeepsOff xsTakes d e s a t) (v : Option Row × Bool) : seen xsTakes e a v = v := by
  unfold seen
  by_cases hv : v.2 = true
  · rw [if_pos hv]
  rw [if_neg hv]
  cases a with
  | register g value env =>
    cases value with
    | none => rfl
    | some x =>
      simp only [seenAlive]
      split
      · next hx =>
        obtain ⟨htakes, arg, harg, hne⟩ := h ha x rfl hx
        simp [harg, hne, htakes]
      · rfl
  | report g value dirs n found granted =>
    simp only [seenAlive]
    split
    · next hx =>
      obtain ⟨hf, r, hr, _⟩ := h ha hx
      simp [hr, hf]
    · rfl
  | watch g value n =>
    simp only [seenAlive]
    split
    · next hx =>
      obtain ⟨domid, pid, hr, hne⟩ := h ha hx
      rw [hr]
      simp only
      cases hp : packWatch domid pid with
      | none => rfl
      | some rep =>
        have hd : rep.domid.toNat ≠ e.toNat := by
          intro he
          refine hne rep hp (BitVec.eq_of_toNat_eq ?_)
          rw [BitVec.toNat_setWidth, he, Nat.mod_eq_of_lt e.isLt]
        simp [hd]
    · rfl
  | verdict | ring | irq => rfl

-- ════════════════════════════════════════════════════════════════════════
-- The rings of a guest
-- ════════════════════════════════════════════════════════════════════════

/-- Nothing on the pages of `d` asks about `e`. -/
def GuestsState.AsksNothing (d e : BitVec 16) (s : GuestsState) : Prop :=
  ∀ gref i, ((s.mon.page ⟨d, gref⟩).ring i).AsksNothingOf e.toNat

/-- A verdict is no request, whatever slot it goes to. -/
theorem monitorVerdict_asksNothingOf {st : MonitorState} {op : BitVec 32} {garbage : Message}
    {r : MonitorState × Int} (h : monitorVerdict z st op garbage = some r)
    (hm : op ≠ Op.mmuupdate) (hn : op ≠ Op.nxviolation) {ref : Ref} {e : ℕ}
    (hp : ∀ i, ((st.page ref).ring i).AsksNothingOf e) :
    ∀ i, ((r.1.page ref).ring i).AsksNothingOf e := by
  rcases monitorVerdict_cases h with hr | ⟨k, info, ring, resp, hop, hr⟩
  · rwa [hr]
  · intro i
    rw [hr]
    simp only [MonitorState.push]
    by_cases href : ref = ring
    · subst href
      simp only [Function.update_self, Ring.Shared.put]
      by_cases hi : i = Ring.slot z info.bring.rspProdPvt
      · rw [hi, Function.update_self]
        rintro (ho | ho)
        · exact absurd (hop.symm.trans ho) hm
        · exact absurd (hop.symm.trans ho) hn
      · rw [Function.update_of_ne hi]
        exact hp i
    · rw [Function.update_of_ne href]
      exact hp i

/-- No ioctl puts a request on a ring. -/
theorem monitorIoctl_asksNothingOf {st : MonitorState} {a : Ioctl} {r : MonitorState × Int}
    (h : monitorIoctl z st a = some r) {ref : Ref} {e : ℕ}
    (hp : ∀ i, ((st.page ref).ring i).AsksNothingOf e) :
    ∀ i, ((r.1.page ref).ring i).AsksNothingOf e := by
  cases a with
  | register arg env =>
    by_cases henv : env.Succeeds
    · obtain rfl := monitorIoctl_register_succeeds henv h
      exact hp
    · rwa [(monitorIoctl_register_failed henv h).page]
  | report rep granted =>
    cases h
    rwa [(monitorReport_mapsOnly granted st (monitorPopulateReport rep)).page]
  | watch arg =>
    obtain ⟨w, _, rfl⟩ := Option.map_eq_some_iff.mp h
    exact hp
  | resume garbage => exact monitorVerdict_asksNothingOf h (by decide) (by decide) hp
  | kill garbage => exact monitorVerdict_asksNothingOf h (by decide) (by decide) hp
  | dump | doneReport | deregister | other =>
    cases h
    exact hp

namespace GuestsState.AsksNothing

variable {s t : GuestsState}

theorem start : guestsStart.AsksNothing d e := by
  rintro gref i (h | h) <;> cases h

theorem ioctl (hs : s.AsksNothing d e) {a : Ioctl} (h : s.ioctl z a = some t) :
    t.AsksNothing d e := by
  obtain ⟨r, hr, rfl⟩ := Option.map_eq_some_iff.mp h
  exact fun gref => monitorIoctl_asksNothingOf hr (hs gref)

theorem step (hs : s.AsksNothing d e) {a : GuestAct} (h : guestsStep xsTakes z s a = some t)
    (hc : KeepsOff xsTakes d e s a t) : t.AsksNothing d e := by
  cases guestsStep_taken h with
  | waits | registerNothing | registerRaises | reportNothing | reportRaises | reportUnpacked
  | watchNothing | watchRaises | watchUnpacked => exact hs
  | register _ _ _ _ hioctl | report _ _ _ _ hioctl | verdict _ hioctl | watch _ _ _ _ hioctl =>
    exact hs.ioctl hioctl
  | registerRefused _ _ _ _ hioctl =>
    have ht := hs.ioctl hioctl
    exact ht
  | @ring ref page =>
    intro gref i
    by_cases href : ⟨d, gref⟩ = ref
    · subst href
      simp only [Function.update_self]
      exact hc rfl i
    · simp only [Function.update_of_ne href]
      exact hs gref i
  | @irq k garbage info ref r hi hring hr =>
    rw [monitorIrq_eq hi hring, Option.some.injEq] at hr
    subst hr
    intro gref i
    by_cases href : ⟨d, gref⟩ = ref
    · subst href
      simp only [Function.update_self]
      exact (irqLoop_asksNothingOf z (fun _ _ => rfl) _ _ (hs gref)).2 i
    · simp only [Function.update_of_ne href]
      exact hs gref i

/-- The responses on a ring of `d` do not depend on the row of `e`. -/
theorem answersRegardless (hs : s.AsksNothing d e) {a : GuestAct}
    (h : guestsStep xsTakes z s a = some t) : AnswersRegardless z d e s a t := by
  cases a with
  | irq g k garbage =>
    rintro rfl l hl
    cases guestsStep_taken h with
    | waits _ hcallback => exact hcallback.elim
    | @irq _ _ info ref r hi hring _ =>
      obtain ⟨g, gref⟩ := ref
      let st : MonitorState := { s.mon with domList := l }
      have hi' : st.infos[k]? = some info := hi
      have hring' : st.ringOf info = some ⟨g, gref⟩ := hring
      rw [monitorIrq_eq hi hring, monitorIrq_eq hi' hring', Option.map_some, Option.map_some]
      have heq : monitorIrqHandle z st.domList st.reportInProgress (st.page ⟨g, gref⟩) info.bring
          garbage = monitorIrqHandle z s.mon.domList s.mon.reportInProgress
            (s.mon.page ⟨g, gref⟩) info.bring garbage :=
        (irqLoop_asksNothingOf z hl _ _ (hs gref)).1
      simp only [heq]
      rfl
  | _ => trivial

end GuestsState.AsksNothing

/-- A report that does not name `e` maps no page of `e`. -/
theorem guestsStep_mapsNothingOf {s t : GuestsState} {a : GuestAct}
    (h : guestsStep xsTakes z s a = some t) (hc : KeepsOff xsTakes d e s a t) :
    MapsNothingOf d e s a t := by
  cases a with
  | report g value dirs n found granted =>
    rintro rfl area ref hne href
    cases guestsStep_taken h with
    | waits | reportNothing | reportRaises | reportUnpacked => exact absurd rfl hne
    | @report _ _ _ _ _ _ rep _ _ hready hr hp hioctl =>
      obtain ⟨_, r', hr', hrep⟩ := hc rfl hready
      rw [hr, Option.some.injEq] at hr'
      subst hr'
      obtain ⟨m, hm, rfl⟩ := Option.map_eq_some_iff.mp hioctl
      cases hm
      rw [monitorReport_mapped granted s.mon (monitorPopulateReport rep) hne href]
      exact hrep rep hp
  | _ => trivial

/-- Bindings that take a domain id as it is printed. -/
def takesPrinted (s : Text) : Bool := (int s).any fun n => s = print n.toNat

/-- Guest `g` leaves `value` in its registration node and the ring is mapped. -/
def registers (g : BitVec 16) (value : Text) : GuestAct :=
  .register g (some value) ⟨true, 0, 0, 40⟩

/-- Guest `g` asks for a watch of process 7 in `domid`. -/
def asksWatch (g : BitVec 16) (domid : ℕ) : GuestAct :=
  .watch g (some ['1']) (some (.announce (print domid) (print 7)))

/-- Guest `g` reports process 7 of `domid` with the page it granted as 9. -/
def reports (g : BitVec 16) (domid : ℕ) : GuestAct :=
  .report g (some ['1']) (some [print 9])
    ⟨some ['1'], some (print domid), some (print 7), some (AList.singleton (print 9) (print 5))⟩
    true fun _ => true

/-- Guest 1 asks on its ring to change a page-table entry of process 7 in `domid`. -/
def asksUpdate (domid : BitVec 32) : GuestAct :=
  .ring ⟨1, 8⟩ { Ring.sharedRingInit fun _ => { (default : Message) with
    operation := Op.mmuupdate
    domid := domid
    processId := 7 } with reqProd := 1 }

/-- The mark of process 7 in the row of domain 2 after a run. -/
def markOfSeven (as : List GuestAct) : Option (Option (BitVec 64)) :=
  (Lts.run (guestsStep takesPrinted ringSize) guestsStart as).map fun s =>
    (s.mon.domList 2).map (· 7)

/-- The operations an interrupt of guest 1 answers after a run. -/
def answersToOne (as : List GuestAct) : Option (List (BitVec 32)) :=
  (Lts.run (guestsStep takesPrinted ringSize) guestsStart as).bind fun s =>
    (monitorIrq ringSize s.mon 0 default).map fun r => r.2.map fun x => x.resp.operation

def bothRegister : List GuestAct :=
  [registers 1 "1:8:5:u".toList, registers 2 "2:8:6:u".toList]

/-- Guest 1 watches, reports and asks about its own process, between the steps of guest 2. -/
def guestOneAtWork : List GuestAct :=
  bothRegister ++ [asksWatch 1 1, asksWatch 2 2, asksUpdate 1, .irq 1 0 default, reports 1 1]

end Maitland
