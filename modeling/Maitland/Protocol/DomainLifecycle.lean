import Maitland.Server.Lifecycle

/-!
# The life of a domain

What the callbacks of main.py do over a whole run: which watches they set and take away, and
which ioctls they make.
-/

namespace Maitland

open Decimal Callback

/-- The ioctls of one callback for a report: after a `MONITOR_REPORT` that went through the verdict
is sent, unless the dump fails or the device cannot be opened again. -/
inductive ReportCalls (path : Text) (seen : Seen) : List MonitorCall → Prop where
  | failed (rep : ProcessReport) (hok : seen.deviceOk 1 = false) :
      ReportCalls path seen [⟨path, .report rep, false⟩]
  | noDump (rep : ProcessReport) (hok : seen.deviceOk 1 = true) (hdump : seen.dumpOk = false) :
      ReportCalls path seen [⟨path, .report rep, true⟩]
  | verdict (rep : ProcessReport) (hok : seen.deviceOk 1 = true) (hdump : seen.dumpOk = true) :
      ReportCalls path seen [⟨path, .report rep, true⟩,
        ⟨path, if seen.found then .kill else .resume, seen.deviceOk 6⟩]

/-- What a callback that ends may have done. -/
inductive Fired (s : ServerState) (w : XsWatch) (seen : Seen) : ServerState → Prop where
  | nothing : Fired s w seen s
  /-- It raised with the semaphore in its hands. -/
  | died (n : ℕ) (hsem : s.sem = n + 1) : Fired s w seen { s with sem := n }
  | up (v : Text) (n : ℤ) (hfn : w.fn = .watchDomainUp) (hvalue : seen.value = some v)
      (hint : int v = some n) (hpos : 0 < n) :
      Fired s w seen { s with
        watches := s.watches.erase w ++ [⟨registerPath v, .watchDomainRegister⟩] }
  | registered (arg : UspaceInfo) (down report watchreport : Text)
      (hfn : w.fn = .watchDomainRegister) (hok : seen.deviceOk 1 = true) (hsem : 0 < s.sem) :
      Fired s w seen
        ⟨s.sem, s.watches.erase w ++ [⟨down, .watchDomainDown⟩, ⟨report, .watchDomainReport⟩,
          ⟨watchreport, .watchDomainWatchreport⟩], s.calls ++ [⟨w.path, .register arg, true⟩]⟩
  /-- It raised after the ioctl. -/
  | registerDied (arg : UspaceInfo) (n : ℕ) (watches : List XsWatch)
      (hfn : w.fn = .watchDomainRegister) (hsem : s.sem = n + 1)
      (hwatches : watches = s.watches ∨ ∃ p, watches = s.watches ++ [⟨p, .watchDomainDown⟩]) :
      Fired s w seen ⟨n, watches, s.calls ++ [⟨w.path, .register arg, seen.deviceOk 1⟩]⟩
  | reported (calls : List MonitorCall) (hfn : w.fn = .watchDomainReport)
      (hcalls : ReportCalls w.path seen calls) : Fired s w seen { s with calls := s.calls ++ calls }
  | watched (rep : WatchReport) (hfn : w.fn = .watchDomainWatchreport)
      (hok : seen.deviceOk 1 = true) :
      Fired s w seen
        ⟨s.sem, s.watches.erase w, s.calls ++ [⟨w.path, .watch rep, true⟩]⟩
  | watchFailed (rep : WatchReport) (hfn : w.fn = .watchDomainWatchreport)
      (hok : seen.deviceOk 1 = false) :
      Fired s w seen { s with calls := s.calls ++ [⟨w.path, .watch rep, false⟩] }

/-- What `fire` makes of the end of a callback. -/
def settle (w : XsWatch) : Except Semaphore.Stop Bool × ServerState → Option ServerState
  | (.error .blocked, _) => none
  | (.error .raised, t) => some t
  | (.ok true, t) => some t
  | (.ok false, t) => some { t with watches := t.watches.erase w }

section Inversion

variable {xs : Bindings} {s t : ServerState} {w : XsWatch} {seen : Seen}

theorem fired_up (hw : w ∈ s.watches) (hfn : w.fn = .watchDomainUp)
    (ht : settle w ((watchDomainUpCb seen).run s) = some t) : Fired s w seen t := by
  rw [watchDomainUpCb] at ht
  cases hint : seen.value.bind int with
  | none =>
    rw [hint, run_attempt_none] at ht
    obtain rfl := Option.some.inj ht
    exact .nothing
  | some n =>
    obtain ⟨v, hvalue, hv⟩ := Option.bind_eq_some_iff.mp hint
    rw [hint, run_attempt_some] at ht
    by_cases hpos : 0 < n
    · rw [if_pos hpos, run_xswatch, run_pure, hvalue, Option.getD_some] at ht
      obtain rfl := Option.some.inj ht
      dsimp only
      rw [List.erase_append_left _ hw]
      exact .up v n hfn hvalue hv hpos
    · rw [if_neg hpos, run_pure] at ht
      obtain rfl := Option.some.inj ht
      exact .nothing

theorem fired_down (ht : settle w ((watchDomainDownCb seen).run s) = some t) :
    Fired s w seen t := by
  rw [watchDomainDownCb] at ht
  by_cases hnone : seen.value.isNone = true
  · rw [if_pos hnone] at ht
    obtain rfl := Option.some.inj ht
    exact .nothing
  · rw [if_neg hnone] at ht
    obtain rfl := Option.some.inj ht
    exact .nothing

theorem fired_register (hw : w ∈ s.watches) (hfn : w.fn = .watchDomainRegister)
    (ht : settle w ((watchDomainRegisterCb xs w.path seen).run s) = some t) :
    Fired s w seen t := by
  obtain ⟨sem, watches, calls⟩ := s
  cases sem with
  | zero => cases ht
  | succ n =>
    rw [watchDomainRegisterCb, run_acquire, run_release] at ht
    cases hvalue : seen.value with
    | none =>
      rw [hvalue, run_attempt_none] at ht
      obtain rfl := Option.some.inj ht
      exact .nothing
    | some value =>
      rw [hvalue, run_attempt_some] at ht
      by_cases hlen : 0 < value.length
      · rw [if_pos hlen, run_acquire, run_ensure] at ht
        by_cases hopen : seen.deviceOk 0 = true
        · rw [if_pos hopen] at ht
          cases hparse : parseRegister value with
          | none =>
            rw [hparse, run_attempt_none] at ht
            obtain rfl := Option.some.inj ht
            exact .died n rfl
          | some arg =>
            rw [hparse, run_attempt_some, run_doMonitorOp] at ht
            by_cases hok : seen.deviceOk 1 = true
            · rw [if_pos hok, run_ensure] at ht
              by_cases hpath : xs.hasDomainPath arg.domid.toNat = true
              · rw [if_pos hpath, run_xswatch, run_ensure] at ht
                by_cases htakes : (value.splitOn ':').head?.any xs.xsTakes = true
                · rw [if_pos htakes, run_xswatch, run_xswatch, run_release, run_pure] at ht
                  obtain rfl := Option.some.inj ht
                  simp only [List.append_assoc, List.erase_append_left _ hw]
                  exact .registered arg _ _ _ hfn hok (Nat.succ_pos n)
                · rw [if_neg htakes] at ht
                  obtain rfl := Option.some.inj ht
                  rw [← hok]
                  exact .registerDied arg n _ hfn rfl (.inr ⟨_, rfl⟩)
              · rw [if_neg hpath] at ht
                obtain rfl := Option.some.inj ht
                rw [← hok]
                exact .registerDied arg n _ hfn rfl (.inl rfl)
            · rw [if_neg hok] at ht
              obtain rfl := Option.some.inj ht
              rw [← eq_false_of_ne_true hok]
              exact .registerDied arg n _ hfn rfl (.inl rfl)
        · rw [if_neg hopen] at ht
          obtain rfl := Option.some.inj ht
          exact .died n rfl
      · rw [if_neg hlen, run_pure] at ht
        obtain rfl := Option.some.inj ht
        exact .nothing

/-- The end of the callback, after the clean-up of the node. -/
theorem fired_report_calls (hfn : w.fn = .watchDomainReport) {r : Reading}
    (ht : settle w ((do
      let rep ← attempt (packReport r)
      ensure (seen.deviceOk 0)
      doMonitorOp w.path (.report rep) (seen.deviceOk 1)
      ensure seen.dumpOk
      doMonitorOp w.path (if seen.found then .kill else .resume) (seen.deviceOk 6)
      return true : Callback Bool).run s) = some t) : Fired s w seen t := by
  cases hpack : packReport r with
  | none =>
    rw [hpack, run_attempt_none] at ht
    obtain rfl := Option.some.inj ht
    exact .nothing
  | some rep =>
    rw [hpack, run_attempt_some, run_ensure] at ht
    by_cases hopen : seen.deviceOk 0 = true
    · rw [if_pos hopen, run_doMonitorOp] at ht
      by_cases hok : seen.deviceOk 1 = true
      · rw [if_pos hok, run_ensure] at ht
        by_cases hdump : seen.dumpOk = true
        · rw [if_pos hdump, run_doMonitorOp, run_pure] at ht
          have hverdict := Fired.reported (s := s) _ hfn (.verdict rep hok hdump)
          rw [List.append_cons] at hverdict
          by_cases hsent : seen.deviceOk 6 = true
          · rw [if_pos hsent] at ht
            obtain rfl := Option.some.inj ht
            rwa [hsent] at hverdict
          · rw [if_neg hsent] at ht
            obtain rfl := Option.some.inj ht
            rwa [eq_false_of_ne_true hsent] at hverdict
        · rw [if_neg hdump] at ht
          obtain rfl := Option.some.inj ht
          exact .reported _ hfn (.noDump rep hok (eq_false_of_ne_true hdump))
      · rw [if_neg hok] at ht
        obtain rfl := Option.some.inj ht
        exact .reported _ hfn (.failed rep (eq_false_of_ne_true hok))
    · rw [if_neg hopen] at ht
      obtain rfl := Option.some.inj ht
      exact .nothing

theorem fired_report (hfn : w.fn = .watchDomainReport)
    (ht : settle w ((watchDomainReportCb w.path seen).run s) = some t) :
    Fired s w seen t := by
  obtain ⟨sem, watches, calls⟩ := s
  cases sem with
  | zero => cases ht
  | succ n =>
    rw [watchDomainReportCb, run_acquire, run_release] at ht
    by_cases hready : IsReady seen.value
    · rw [if_pos hready, run_acquire] at ht
      -- What goes wrong under the semaphore keeps it.
      cases hread : seen.dirs.bind (readReport seen.node) with
      | none =>
        cases hdirs : seen.dirs with
        | none =>
          rw [hdirs, run_attempt_none] at ht
          obtain rfl := Option.some.inj ht
          exact .died n rfl
        | some dirs =>
          rw [hdirs, Option.bind_some] at hread
          rw [hdirs, run_attempt_some, hread, run_attempt_none] at ht
          obtain rfl := Option.some.inj ht
          exact .died n rfl
      | some r =>
        obtain ⟨dirs, hdirs, hr⟩ := Option.bind_eq_some_iff.mp hread
        rw [hdirs, run_attempt_some, hr, run_attempt_some] at ht
        cases hchildren : seen.children with
        | none =>
          rw [hchildren, run_attempt_none] at ht
          obtain rfl := Option.some.inj ht
          exact .died n rfl
        | some children =>
          rw [hchildren, run_attempt_some, run_release] at ht
          exact fired_report_calls hfn ht
    · rw [if_neg hready, run_pure] at ht
      obtain rfl := Option.some.inj ht
      exact .nothing

theorem fired_watchreport (hw : w ∈ s.watches) (hfn : w.fn = .watchDomainWatchreport)
    (ht : settle w ((watchDomainWatchreportCb w.path seen).run s) = some t) :
    Fired s w seen t := by
  obtain ⟨sem, watches, calls⟩ := s
  cases sem with
  | zero => cases ht
  | succ n =>
    rw [watchDomainWatchreportCb, run_acquire, run_release] at ht
    cases hvalue : seen.value with
    | none =>
      rw [hvalue, run_attempt_none] at ht
      obtain rfl := Option.some.inj ht
      exact .nothing
    | some value =>
      rw [hvalue, run_attempt_some] at ht
      by_cases hlen : 0 < value.length
      · rw [if_pos hlen, run_acquire] at ht
        cases hread : readWatch seen.watchNode with
        | none =>
          rw [hread, run_attempt_none] at ht
          obtain rfl := Option.some.inj ht
          exact .died n rfl
        | some r =>
          rw [hread, run_attempt_some, run_release] at ht
          cases hpack : packWatch r.1 r.2 with
          | none =>
            rw [hpack, run_attempt_none] at ht
            obtain rfl := Option.some.inj ht
            exact .nothing
          | some rep =>
            rw [hpack, run_attempt_some, run_ensure] at ht
            by_cases hopen : seen.deviceOk 0 = true
            · rw [if_pos hopen, run_doMonitorOp] at ht
              by_cases hok : seen.deviceOk 1 = true
              · rw [if_pos hok, run_pure] at ht
                obtain rfl := Option.some.inj ht
                exact .watched rep hfn hok
              · rw [if_neg hok] at ht
                obtain rfl := Option.some.inj ht
                exact .watchFailed rep hfn (eq_false_of_ne_true hok)
            · rw [if_neg hopen] at ht
              obtain rfl := Option.some.inj ht
              exact .nothing
      · rw [if_neg hlen, run_pure] at ht
        obtain rfl := Option.some.inj ht
        exact .nothing

/-- A step of the server is one of these. -/
theorem fired_of_fire (ht : fire xs s (w, seen) = some t) :
    w ∈ s.watches ∧ Fired s w seen t := by
  have hmem : w ∈ s.watches := by
    by_contra hw
    rw [fire, if_neg hw] at ht
    cases ht
  have hsettle : settle w ((w.fn.callback xs w.path seen).run s) = some t := by
    rw [fire, if_pos hmem] at ht
    exact ht
  refine ⟨hmem, ?_⟩
  cases hfn : w.fn with
  | watchDomainUp =>
    rw [hfn] at hsettle
    exact fired_up hmem hfn hsettle
  | watchDomainDown =>
    rw [hfn] at hsettle
    exact fired_down hsettle
  | watchDomainRegister =>
    rw [hfn] at hsettle
    exact fired_register hmem hfn hsettle
  | watchDomainReport =>
    rw [hfn] at hsettle
    exact fired_report hfn hsettle
  | watchDomainWatchreport =>
    rw [hfn] at hsettle
    exact fired_watchreport hmem hfn hsettle

end Inversion

/-- A `MONITOR_REGISTER` that a watch of this path made, whether it went through or not. -/
def MonitorCall.RegistersAt (path : Text) (c : MonitorCall) : Bool :=
  c.path = path && match c.op with
    | .register _ => true
    | _ => false

section Lifecycle

variable (xs : Bindings)

def ServerState.upWatches (d : ℕ) (s : ServerState) : ℕ :=
  s.watches.count ⟨xs.domidPath d, .watchDomainUp⟩

def ServerState.registerWatches (d : ℕ) (s : ServerState) : ℕ :=
  s.watches.count ⟨registerPath (print d), .watchDomainRegister⟩

def ServerState.registrations (d : ℕ) (s : ServerState) : ℕ :=
  s.calls.countP (MonitorCall.RegistersAt (registerPath (print d)))

/-- A domain is waited for, or its registration is, or that was forwarded.  Once an exception has
kept the semaphore, the watch of a registration that was forwarded may be left. -/
structure LifecycleInv (d : ℕ) (s : ServerState) : Prop where
  sem_le : s.sem ≤ 1
  watches_le : s.upWatches xs d + s.registerWatches d ≤ 1
  calls_le : s.upWatches xs d + s.registrations d ≤ 1
  alive : 0 < s.sem → s.upWatches xs d + s.registerWatches d + s.registrations d ≤ 1
  upPath : ∀ w ∈ s.watches, w.fn = .watchDomainUp → ∃ i, w.path = xs.domidPath i
  not_deregister : ∀ c ∈ s.calls, c.op ≠ .deregister

/-- What dom0 has written: the `domid` of a running domain is its number. -/
def TrustedUp (e : XsWatch × Seen) : Prop :=
  e.1.fn = .watchDomainUp → ∀ i, e.1.path = xs.domidPath i →
    ∀ v n, e.2.value = some v → int v = some n → 0 < n → v = print i

variable {xs} {s t : ServerState} {w : XsWatch} {d : ℕ}

theorem count_erase_append {watches : List XsWatch} (hw : w ∈ watches) (new : List XsWatch)
    (a : XsWatch) :
    (watches.erase w ++ new).count a + (if w = a then 1 else 0) =
      watches.count a + new.count a := by
  rw [List.count_append]
  by_cases ha : w = a
  · subst ha
    have hpos : 0 < watches.count w := List.count_pos_iff.mpr hw
    rw [List.count_erase_self, if_pos rfl]
    omega
  · rw [List.count_erase_of_ne (Ne.symm ha), if_neg ha, Nat.add_zero]

theorem domidPath_injective (xs : Bindings) : Function.Injective xs.domidPath := fun _ _ h =>
  xs.getDomainPath_injective (List.append_cancel_right h)

theorem registerPath_injective : Function.Injective registerPath := fun _ _ h =>
  List.append_cancel_left h

/-- The steps that do not touch the two kinds of watches, and make no registration. -/
theorem LifecycleInv.congr (h : LifecycleInv xs d s) (hsem : t.sem ≤ s.sem)
    (hup : t.upWatches xs d ≤ s.upWatches xs d)
    (hregister : t.registerWatches d = s.registerWatches d)
    (hregistered : t.registrations d = s.registrations d)
    (hpath : ∀ w ∈ t.watches, w.fn = .watchDomainUp → w ∈ s.watches)
    (hcalls : ∀ c ∈ t.calls, c ∈ s.calls ∨ c.op ≠ .deregister) : LifecycleInv xs d t where
  sem_le := hsem.trans h.sem_le
  watches_le := by
    have := h.watches_le
    omega
  calls_le := by
    have := h.calls_le
    omega
  alive hpos := by
    have := h.alive (by omega)
    omega
  upPath w hw hfn := h.upPath w (hpath w hw hfn) hfn
  not_deregister c hc := (hcalls c hc).elim (h.not_deregister c) id

theorem registrations_append (s : ServerState) (calls : List MonitorCall) :
    ServerState.registrations d { s with calls := s.calls ++ calls } = s.registrations d +
      calls.countP (MonitorCall.RegistersAt (registerPath (print d))) := by
  rw [ServerState.registrations, List.countP_append]
  rfl

theorem LifecycleInv.up (h : LifecycleInv xs d s) (hw : w ∈ s.watches)
    (hfn : w.fn = .watchDomainUp) {i : ℕ} (hpath : w.path = xs.domidPath i) :
    LifecycleInv xs d { s with
      watches := s.watches.erase w ++ [⟨registerPath (print i), .watchDomainRegister⟩] } := by
  obtain ⟨path, fn⟩ := w
  dsimp only at hfn hpath
  subst hfn hpath
  have hup := count_erase_append hw [⟨registerPath (print i), .watchDomainRegister⟩]
    ⟨xs.domidPath d, .watchDomainUp⟩
  have hregister := count_erase_append hw [⟨registerPath (print i), .watchDomainRegister⟩]
    ⟨registerPath (print d), .watchDomainRegister⟩
  rw [if_neg (by simp)] at hregister
  -- For the domain itself one watch gives way to the other, for another nothing changes.
  have hsum : ∀ t : ServerState, t.watches = s.watches.erase ⟨xs.domidPath i, .watchDomainUp⟩ ++
      [⟨registerPath (print i), .watchDomainRegister⟩] →
      t.upWatches xs d ≤ s.upWatches xs d ∧
      t.upWatches xs d + t.registerWatches d = s.upWatches xs d + s.registerWatches d := by
    intro t ht
    simp only [ServerState.upWatches, ServerState.registerWatches, ht]
    have hnot : [(⟨registerPath (print i), .watchDomainRegister⟩ : XsWatch)].count
        ⟨xs.domidPath d, .watchDomainUp⟩ = 0 := List.count_eq_zero.mpr (by simp)
    by_cases hid : i = d
    · subst hid
      rw [if_pos rfl, hnot] at hup
      rw [List.count_singleton_self] at hregister
      omega
    · have hother : [(⟨registerPath (print i), .watchDomainRegister⟩ : XsWatch)].count
          ⟨registerPath (print d), .watchDomainRegister⟩ = 0 := List.count_eq_zero.mpr (by
        simpa using fun h => hid (print_injective (registerPath_injective h)).symm)
      rw [if_neg (by simpa using fun h => hid (domidPath_injective xs h)), hnot] at hup
      rw [hother] at hregister
      omega
  obtain ⟨hle, hsame⟩ := hsum { s with
    watches := s.watches.erase ⟨xs.domidPath i, .watchDomainUp⟩ ++
      [⟨registerPath (print i), .watchDomainRegister⟩] } rfl
  have hcalls : ServerState.registrations d { s with
      watches := s.watches.erase ⟨xs.domidPath i, .watchDomainUp⟩ ++
        [⟨registerPath (print i), .watchDomainRegister⟩] } = s.registrations d := rfl
  refine ⟨h.sem_le, by have := h.watches_le; omega, by have := h.calls_le; omega,
    fun hpos => by have := h.alive hpos; omega, fun w hw hfn => ?_, h.not_deregister⟩
  rcases List.mem_append.mp hw with hw | hw
  · exact h.upPath w (List.mem_of_mem_erase hw) hfn
  · obtain rfl := List.mem_singleton.mp hw
    cases hfn

/-- The counts when a watch of another kind than the first two gives way to others. -/
theorem watches_of_erase_append (xs : Bindings) (d : ℕ) {watches new : List XsWatch}
    (hw : w ∈ watches) (hup : w.fn ≠ .watchDomainUp)
    (hnew : ∀ x ∈ new, x.fn ≠ .watchDomainUp ∧ x.fn ≠ .watchDomainRegister) :
    (watches.erase w ++ new).count ⟨xs.domidPath d, .watchDomainUp⟩ =
      watches.count ⟨xs.domidPath d, .watchDomainUp⟩ ∧
    (watches.erase w ++ new).count ⟨registerPath (print d), .watchDomainRegister⟩ +
        (if w = ⟨registerPath (print d), .watchDomainRegister⟩ then 1 else 0) =
      watches.count ⟨registerPath (print d), .watchDomainRegister⟩ := by
  have h₁ := count_erase_append hw new ⟨xs.domidPath d, .watchDomainUp⟩
  have h₂ := count_erase_append hw new ⟨registerPath (print d), .watchDomainRegister⟩
  rw [if_neg fun h => hup (congrArg XsWatch.fn h),
    List.count_eq_zero.mpr fun hmem => (hnew _ hmem).1 rfl] at h₁
  rw [List.count_eq_zero.mpr fun hmem => (hnew _ hmem).2 rfl] at h₂
  exact ⟨h₁, h₂⟩

theorem registersAt_register {path p : Text} {arg : UspaceInfo} {ok : Bool} :
    [(⟨path, .register arg, ok⟩ : MonitorCall)].countP (MonitorCall.RegistersAt p) =
      if path = p then 1 else 0 := by
  by_cases hpath : path = p
  · simp [MonitorCall.RegistersAt, hpath]
  · simp [MonitorCall.RegistersAt, hpath]

/-- The ioctl of a registration, with its watch gone after it. -/
theorem LifecycleInv.registered (h : LifecycleInv xs d s) {path : Text}
    (hw : ⟨path, .watchDomainRegister⟩ ∈ s.watches) (arg : UspaceInfo) {new : List XsWatch}
    (hnew : ∀ x ∈ new, x.fn ≠ .watchDomainUp ∧ x.fn ≠ .watchDomainRegister) (hsem : 0 < s.sem)
    (ht : t = ⟨s.sem, s.watches.erase ⟨path, .watchDomainRegister⟩ ++ new,
      s.calls ++ [⟨path, .register arg, true⟩]⟩) : LifecycleInv xs d t := by
  obtain ⟨hup, hregister⟩ := watches_of_erase_append xs d hw (by simp) hnew
  have hcalls := registrations_append (d := d) s [⟨path, .register arg, true⟩]
  rw [registersAt_register] at hcalls
  simp only [XsWatch.mk.injEq, and_true] at hregister
  have hup' : t.upWatches xs d = s.upWatches xs d := by rw [ht]; exact hup
  have hregister' : t.registerWatches d + (if path = registerPath (print d) then 1 else 0) =
      s.registerWatches d := by rw [ht]; exact hregister
  have hcalls' : t.registrations d = s.registrations d +
      (if path = registerPath (print d) then 1 else 0) := by rw [ht]; exact hcalls
  have halive := h.alive hsem
  refine ⟨by rw [ht]; exact h.sem_le, by omega, by omega, fun _ => by omega, ?_, ?_⟩
  · rw [ht]
    intro w hw hfn
    rcases List.mem_append.mp hw with hw | hw
    · exact h.upPath w (List.mem_of_mem_erase hw) hfn
    · exact absurd hfn (hnew w hw).1
  · rw [ht]
    intro c hc
    rcases List.mem_append.mp hc with hc | hc
    · exact h.not_deregister c hc
    · obtain rfl := List.mem_singleton.mp hc
      exact fun h => by cases h

/-- The same with its watch left, and the semaphore gone. -/
theorem LifecycleInv.registerDied (h : LifecycleInv xs d s) {path : Text}
    (hw : ⟨path, .watchDomainRegister⟩ ∈ s.watches) (arg : UspaceInfo) (ok : Bool)
    {watches : List XsWatch}
    (hwatches : watches = s.watches ∨ ∃ p, watches = s.watches ++ [⟨p, .watchDomainDown⟩]) {n : ℕ}
    (hsem : s.sem = n + 1) (ht : t = ⟨n, watches, s.calls ++ [⟨path, .register arg, ok⟩]⟩) :
    LifecycleInv xs d t := by
  have hcalls := registrations_append (d := d) s [⟨path, .register arg, ok⟩]
  rw [registersAt_register] at hcalls
  have hcalls' : t.registrations d = s.registrations d +
      (if path = registerPath (print d) then 1 else 0) := by rw [ht]; exact hcalls
  have hcount : ∀ a : XsWatch, a.fn ≠ .watchDomainDown → t.watches.count a = s.watches.count a := by
    intro a ha
    rw [ht]
    rcases hwatches with rfl | ⟨p, rfl⟩
    · rfl
    · have hnot : [(⟨p, .watchDomainDown⟩ : XsWatch)].count a = 0 := List.count_eq_zero.mpr
        fun hmem => ha (by rw [List.mem_singleton.mp hmem])
      rw [List.count_append, hnot, Nat.add_zero]
  have hup : t.upWatches xs d = s.upWatches xs d := hcount _ (by simp)
  have hregister : t.registerWatches d = s.registerWatches d := hcount _ (by simp)
  have hpos : path = registerPath (print d) → 0 < s.registerWatches d := by
    rintro rfl
    exact List.count_pos_iff.mpr hw
  have halive := h.alive (by omega)
  have hsem' : t.sem = n := by rw [ht]
  have hle := h.sem_le
  refine ⟨by omega, by omega, ?_, fun hpos => by omega, fun w hw hfn => ?_, ?_⟩
  · by_cases hpath : path = registerPath (print d)
    · have := hpos hpath
      rw [if_pos hpath] at hcalls'
      omega
    · rw [if_neg hpath] at hcalls'
      omega
  · refine h.upPath w (List.count_pos_iff.mp ?_) hfn
    rw [← hcount w (by simp [hfn])]
    exact List.count_pos_iff.mpr hw
  · rw [ht]
    intro c hc
    rcases List.mem_append.mp hc with hc | hc
    · exact h.not_deregister c hc
    · obtain rfl := List.mem_singleton.mp hc
      exact fun h => by cases h

theorem ReportCalls.not_registersAt {path p : Text} {seen : Seen} {calls : List MonitorCall}
    (h : ReportCalls path seen calls) :
    ∀ c ∈ calls, c.RegistersAt p = false ∧ c.op ≠ .deregister := by
  intro c hc
  cases h with
  | failed | noDump =>
    obtain rfl := List.mem_singleton.mp hc
    exact ⟨by simp [MonitorCall.RegistersAt], fun h => by cases h⟩
  | verdict rep hok hdump =>
    rcases List.mem_pair.mp hc with rfl | rfl
    · exact ⟨by simp [MonitorCall.RegistersAt], fun h => by cases h⟩
    · cases seen.found <;> exact ⟨by simp [MonitorCall.RegistersAt], fun h => by cases h⟩

theorem watch_not_registersAt {path : Text} (rep : WatchReport) (ok : Bool) :
    ∀ p, ∀ c ∈ [(⟨path, .watch rep, ok⟩ : MonitorCall)], c.RegistersAt p = false := by
  intro p c hc
  obtain rfl := List.mem_singleton.mp hc
  simp [MonitorCall.RegistersAt]

theorem registrations_of_none (s : ServerState) {calls : List MonitorCall}
    (h : ∀ p, ∀ c ∈ calls, c.RegistersAt p = false) :
    ServerState.registrations d { s with calls := s.calls ++ calls } = s.registrations d := by
  rw [registrations_append, List.countP_eq_zero.mpr, Nat.add_zero]
  intro c hc
  rw [h _ c hc]
  exact Bool.false_ne_true

/-- Every step of the server keeps the invariant of every domain. -/
theorem LifecycleInv.fired {seen : Seen} (h : LifecycleInv xs d s) (hw : w ∈ s.watches)
    (htrusted : w.fn = .watchDomainUp → ∀ i, w.path = xs.domidPath i →
      ∀ v n, seen.value = some v → int v = some n → 0 < n → v = print i)
    (ht : Fired s w seen t) : LifecycleInv xs d t := by
  cases ht with
  | nothing => exact h
  | died n hsem =>
    exact h.congr (by dsimp only; omega) (Nat.le_refl _) rfl rfl (fun _ hw _ => hw)
      fun _ hc => .inl hc
  | up v n hfn hvalue hint hpos =>
    obtain ⟨i, hpath⟩ := h.upPath w hw hfn
    rw [htrusted hfn i hpath v n hvalue hint hpos]
    exact h.up hw hfn hpath
  | registered arg down report watchreport hfn _ hsem =>
    obtain ⟨path, fn⟩ := w
    dsimp only at hfn
    subst hfn
    refine h.registered hw arg (fun x hx => ?_) hsem rfl
    simp only [List.mem_cons, List.not_mem_nil, or_false] at hx
    rcases hx with rfl | rfl | rfl <;> exact ⟨by simp, by simp⟩
  | registerDied arg n watches hfn hsem hwatches =>
    obtain ⟨path, fn⟩ := w
    dsimp only at hfn
    subst hfn
    exact h.registerDied hw arg _ hwatches hsem rfl
  | reported calls hfn hcalls =>
    refine h.congr (Nat.le_refl _) (Nat.le_refl _) rfl ?_ (fun _ hw _ => hw) fun c hc => ?_
    · exact registrations_of_none s fun p c hc => (hcalls.not_registersAt c hc).1
    · exact (List.mem_append.mp hc).imp_right fun hc =>
        (hcalls.not_registersAt (p := w.path) c hc).2
  | watched rep hfn _ =>
    have hempty : ∀ x ∈ ([] : List XsWatch), x.fn ≠ .watchDomainUp ∧ x.fn ≠ .watchDomainRegister :=
      fun x hx => by cases hx
    obtain ⟨hup, hregister⟩ := watches_of_erase_append xs d hw (by rw [hfn]; simp) hempty
    have hother : w ≠ ⟨registerPath (print d), .watchDomainRegister⟩ := fun h => by
      rw [h] at hfn
      cases hfn
    rw [List.append_nil] at hup hregister
    rw [if_neg hother] at hregister
    refine h.congr (Nat.le_refl _) (Nat.le_of_eq hup) hregister ?_
      (fun _ hw _ => List.mem_of_mem_erase hw) fun c hc => ?_
    · exact registrations_of_none ⟨s.sem, s.watches.erase w, s.calls⟩
        (watch_not_registersAt rep true)
    · exact (List.mem_append.mp hc).imp_right fun hc => by
        obtain rfl := List.mem_singleton.mp hc
        exact fun h => by cases h
  | watchFailed rep hfn _ =>
    refine h.congr (Nat.le_refl _) (Nat.le_refl _) rfl
      (registrations_of_none s (watch_not_registersAt rep false)) (fun _ hw _ => hw) fun c hc => ?_
    exact (List.mem_append.mp hc).imp_right fun hc => by
      obtain rfl := List.mem_singleton.mp hc
      exact fun h => by cases h

theorem lifecycleInv_start (xs : Bindings) (d : ℕ) : LifecycleInv xs d (serverStart xs) := by
  have hnodup : (serverStart xs).watches.Nodup := by
    refine List.Nodup.map (fun i j h => ?_) List.nodup_range'
    exact domidPath_injective xs (XsWatch.mk.inj h).1
  have hregister : (serverStart xs).registerWatches d = 0 := List.count_eq_zero.mpr fun hmem => by
    obtain ⟨i, -, h⟩ := List.mem_map.mp hmem
    have hfn : WatchFn.watchDomainUp = .watchDomainRegister := congrArg XsWatch.fn h
    cases hfn
  have hup : (serverStart xs).upWatches xs d ≤ 1 := List.nodup_iff_count_le_one.mp hnodup _
  have hcalls : (serverStart xs).registrations d = 0 := rfl
  refine ⟨Nat.le_refl _, by omega, by omega, fun _ => by omega, fun w hw _ => ?_, fun c hc => ?_⟩
  · obtain ⟨i, -, rfl⟩ := List.mem_map.mp hw
    exact ⟨i, rfl⟩
  · cases hc

/-- In every run of the server in which the `domid` of every running domain is its number, and for
every domain: its registration node is forwarded at most once, whatever the guests write there
and whatever fails; once it has been, the server does not wait for the domain to come up again;
and it never deregisters one. -/
theorem registered_at_most_once (xs : Bindings) {events : List (XsWatch × Seen)}
    (htrusted : ∀ e ∈ events, TrustedUp xs e) {s : ServerState}
    (hrun : Lts.run (fire xs) (serverStart xs) events = some s) (d : ℕ) :
    s.calls.countP (MonitorCall.RegistersAt (registerPath (print d))) ≤ 1 ∧
      (∀ c ∈ s.calls, c.RegistersAt (registerPath (print d)) →
        ⟨xs.domidPath d, .watchDomainUp⟩ ∉ s.watches) ∧
      ∀ c ∈ s.calls, c.op ≠ .deregister := by
  have hinv : LifecycleInv xs d s := by
    have hall : Lts.Along (fire xs) (fun _ e _ => TrustedUp xs e) (serverStart xs) events :=
      Lts.Along.of_mem (fun e he _ _ => htrusted e he) _
    refine Lts.Along.invariant (fun s e t hs ht he => ?_) hall hrun (lifecycleInv_start xs d)
    obtain ⟨hw, hfired⟩ := fired_of_fire ht
    exact hs.fired hw he hfired
  have hle := hinv.calls_le
  refine ⟨Nat.le_trans (Nat.le_add_left _ _) hle, fun c hc hregisters hmem => ?_,
    hinv.not_deregister⟩
  have hcalled : 0 < s.registrations d := List.countP_pos_iff.mpr ⟨c, hc, hregisters⟩
  have hwaiting : 0 < s.upWatches xs d := List.count_pos_iff.mpr hmem
  omega

end Lifecycle

/-- The ioctls of one callback that makes any. -/
inductive CallBlock (e : XsWatch × Seen) : List MonitorCall → Prop where
  | register (arg : UspaceInfo) (hfn : e.1.fn = .watchDomainRegister) :
      CallBlock e [⟨e.1.path, .register arg, e.2.deviceOk 1⟩]
  | watch (rep : WatchReport) (hfn : e.1.fn = .watchDomainWatchreport) :
      CallBlock e [⟨e.1.path, .watch rep, e.2.deviceOk 1⟩]
  | report (calls : List MonitorCall) (hfn : e.1.fn = .watchDomainReport)
      (hcalls : ReportCalls e.1.path e.2 calls) : CallBlock e calls

/-- The ioctls are those of some of the events, in their order. -/
def CallsOf (events : List (XsWatch × Seen)) (s : ServerState) : Prop :=
  ∃ (served : List (XsWatch × Seen)) (blocks : List (List MonitorCall)),
    served.Sublist events ∧ List.Forall₂ CallBlock served blocks ∧ s.calls = blocks.flatten

def MonitorCall.IsRegister (c : MonitorCall) : Bool := match c.op with
  | .register _ => true
  | _ => false

/-- A `MONITOR_WATCH` that went through. -/
def MonitorCall.Watched (c : MonitorCall) : Bool := c.ok && match c.op with
  | .watch _ => true
  | _ => false

/-- A watch that only a registration sets. -/
def XsWatch.AfterRegister (w : XsWatch) : Bool := match w.fn with
  | .watchDomainUp | .watchDomainRegister => false
  | _ => true

/-- What the watches allow, after the ioctls so far. -/
structure CallsInv (s : ServerState) : Prop where
  first : (∃ w ∈ s.watches, w.AfterRegister) ∨ s.calls ≠ [] → ∃ c ∈ s.calls.head?, c.IsRegister
  watched_le : s.watches.countP (·.fn = .watchDomainWatchreport) +
    s.calls.countP MonitorCall.Watched ≤ s.calls.countP MonitorCall.IsRegister

section Calls

variable {s t : ServerState} {w : XsWatch} {seen : Seen}

/-- A callback makes no ioctl or the block of its event. -/
theorem Fired.calls (ht : Fired s w seen t) :
    t.calls = s.calls ∨ ∃ block, CallBlock (w, seen) block ∧ t.calls = s.calls ++ block := by
  cases ht with
  | nothing | died | up => exact .inl rfl
  | registered arg down report watchreport hfn hok hsem =>
    refine .inr ⟨_, .register arg hfn, ?_⟩
    rw [hok]
  | registerDied arg n watches hfn hsem hwatches => exact .inr ⟨_, .register arg hfn, rfl⟩
  | reported calls hfn hcalls => exact .inr ⟨_, .report calls hfn hcalls, rfl⟩
  | watched rep hfn hok =>
    refine .inr ⟨_, .watch rep hfn, ?_⟩
    rw [hok]
  | watchFailed rep hfn hok =>
    refine .inr ⟨_, .watch rep hfn, ?_⟩
    rw [hok]

theorem CallsOf.snoc {events : List (XsWatch × Seen)} (h : CallsOf events s)
    (ht : Fired s w seen t) : CallsOf (events ++ [(w, seen)]) t := by
  obtain ⟨served, blocks, hsub, hblocks, hcalls⟩ := h
  rcases ht.calls with hsame | ⟨block, hblock, hnew⟩
  · exact ⟨served, blocks, hsub.trans (List.sublist_append_left _ _), hblocks, hsame.trans hcalls⟩
  · refine ⟨served ++ [(w, seen)], blocks ++ [block], hsub.append (List.Sublist.refl _),
      List.rel_append hblocks (.cons hblock .nil), ?_⟩
    rw [hnew, hcalls, List.flatten_append, List.flatten_singleton]

/-- The first call stays the first. -/
theorem head?_append_of_isRegister {calls new : List MonitorCall}
    (h : ∃ c ∈ calls.head?, c.IsRegister) : ∃ c ∈ (calls ++ new).head?, c.IsRegister := by
  obtain ⟨c, hc, hreg⟩ := h
  refine ⟨c, ?_, hreg⟩
  cases calls with
  | nil => cases hc
  | cons c' calls => exact hc

theorem ReportCalls.counts {path : Text} {calls : List MonitorCall}
    (h : ReportCalls path seen calls) :
    calls.countP MonitorCall.Watched = 0 ∧ calls.countP MonitorCall.IsRegister = 0 := by
  cases h with
  | failed | noDump => simp [MonitorCall.Watched, MonitorCall.IsRegister]
  | verdict rep hok hdump =>
    cases seen.found <;> simp [MonitorCall.Watched, MonitorCall.IsRegister]

theorem countP_erase_of_mem (p : XsWatch → Bool) {l : List XsWatch} (hw : w ∈ l) :
    (l.erase w).countP p + (if p w then 1 else 0) = l.countP p := by
  have hperm := (List.perm_cons_erase hw).countP_eq p
  rw [hperm, List.countP_cons]

/-- Ioctls that are made by a watch which only a registration sets. -/
theorem CallsInv.after (h : CallsInv s) (hw : w ∈ s.watches) (hafter : w.AfterRegister)
    {block : List MonitorCall} (hcalls : t.calls = s.calls ++ block)
    (hle : t.watches.countP (·.fn = .watchDomainWatchreport) +
      t.calls.countP MonitorCall.Watched ≤ t.calls.countP MonitorCall.IsRegister) :
    CallsInv t := by
  refine ⟨fun _ => ?_, hle⟩
  rw [hcalls]
  exact head?_append_of_isRegister (h.first (.inl ⟨w, hw, hafter⟩))

/-- The ioctl of a registration. -/
theorem CallsInv.register (h : CallsInv s) (path : Text) (arg : UspaceInfo) (ok : Bool)
    (hcalls : t.calls = s.calls ++ [⟨path, .register arg, ok⟩])
    (hle : t.watches.countP (·.fn = .watchDomainWatchreport) ≤
      s.watches.countP (·.fn = .watchDomainWatchreport) + 1) : CallsInv t := by
  have hbound := h.watched_le
  refine ⟨fun _ => ?_, ?_⟩
  · rw [hcalls]
    by_cases hnil : s.calls = []
    · rw [hnil]
      exact ⟨_, rfl, rfl⟩
    · exact head?_append_of_isRegister (h.first (.inr hnil))
  · have hwatched : [(⟨path, .register arg, ok⟩ : MonitorCall)].countP MonitorCall.Watched = 0 := by
      simp [MonitorCall.Watched]
    have hregister :
        [(⟨path, .register arg, ok⟩ : MonitorCall)].countP MonitorCall.IsRegister = 1 := by
      simp [MonitorCall.IsRegister]
    rw [hcalls, List.countP_append, List.countP_append, hwatched, hregister]
    omega

theorem CallsInv.fired (h : CallsInv s) (hw : w ∈ s.watches) (ht : Fired s w seen t) :
    CallsInv t := by
  have hbound := h.watched_le
  have herase := countP_erase_of_mem (fun x => x.fn = .watchDomainWatchreport) hw
  cases ht with
  | nothing => exact h
  | died n hsem => exact ⟨h.first, hbound⟩
  | up v n hfn hvalue hint hpos =>
    refine ⟨fun hsome => h.first (hsome.imp_left ?_), ?_⟩
    · rintro ⟨x, hx, hafter⟩
      rcases List.mem_append.mp hx with hx | hx
      · exact ⟨x, List.mem_of_mem_erase hx, hafter⟩
      · obtain rfl := List.mem_singleton.mp hx
        cases hafter
    · have hnew : [(⟨registerPath v, .watchDomainRegister⟩ : XsWatch)].countP
          (·.fn = .watchDomainWatchreport) = 0 := rfl
      dsimp only
      rw [List.countP_append, hnew]
      omega
  | registered arg down report watchreport hfn _ hsem =>
    refine h.register w.path arg true rfl ?_
    have hnew : [(⟨down, .watchDomainDown⟩ : XsWatch), ⟨report, .watchDomainReport⟩,
        ⟨watchreport, .watchDomainWatchreport⟩].countP (·.fn = .watchDomainWatchreport) = 1 := rfl
    dsimp only
    rw [List.countP_append, hnew]
    omega
  | registerDied arg n watches hfn hsem hwatches =>
    refine h.register w.path arg _ rfl ?_
    rcases hwatches with rfl | ⟨p, rfl⟩
    · exact Nat.le_succ _
    · have hnew : [(⟨p, .watchDomainDown⟩ : XsWatch)].countP
          (·.fn = .watchDomainWatchreport) = 0 := rfl
      dsimp only
      rw [List.countP_append, hnew]
      omega
  | reported calls hfn hcalls =>
    obtain ⟨hwatched, hregister⟩ := hcalls.counts
    refine h.after hw (by rw [XsWatch.AfterRegister, hfn]) rfl ?_
    dsimp only
    rw [List.countP_append, List.countP_append, hwatched, hregister]
    omega
  | watched rep hfn _ =>
    refine h.after hw (by rw [XsWatch.AfterRegister, hfn]) rfl ?_
    have hwatched : [(⟨w.path, .watch rep, true⟩ : MonitorCall)].countP MonitorCall.Watched = 1 :=
      by simp [MonitorCall.Watched]
    have hregister : [(⟨w.path, .watch rep, true⟩ : MonitorCall)].countP
        MonitorCall.IsRegister = 0 := by simp [MonitorCall.IsRegister]
    rw [if_pos (by simpa using hfn)] at herase
    dsimp only
    rw [List.countP_append, List.countP_append, hwatched, hregister]
    omega
  | watchFailed rep hfn _ =>
    refine h.after hw (by rw [XsWatch.AfterRegister, hfn]) rfl ?_
    have hwatched : [(⟨w.path, .watch rep, false⟩ : MonitorCall)].countP MonitorCall.Watched = 0 :=
      by simp [MonitorCall.Watched]
    have hregister : [(⟨w.path, .watch rep, false⟩ : MonitorCall)].countP
        MonitorCall.IsRegister = 0 := by simp [MonitorCall.IsRegister]
    dsimp only
    rw [List.countP_append, List.countP_append, hwatched, hregister]
    omega

theorem callsInv_start (xs : Bindings) : CallsInv (serverStart xs) := by
  have hups : ∀ w ∈ (serverStart xs).watches, w.fn = .watchDomainUp := by
    intro w hw
    obtain ⟨i, -, rfl⟩ := List.mem_map.mp hw
    rfl
  have hnone : (serverStart xs).watches.countP (·.fn = .watchDomainWatchreport) = 0 :=
    List.countP_eq_zero.mpr fun w hw => by simp [hups w hw]
  refine ⟨?_, by rw [hnone]; exact Nat.le_refl _⟩
  rintro (⟨w, hw, hafter⟩ | hne)
  · rw [XsWatch.AfterRegister, hups w hw] at hafter
    cases hafter
  · exact absurd rfl hne

/-- In every run of the server, whatever it reads and whatever fails: the ioctls are those of one
callback after the other, each a registration, a watch, or a report with its verdict, which is
missing only where the report, the dump or the opening of the device for the verdict fails; the
first of all is a registration; and no more `MONITOR_WATCH`es go through than registrations are
made. -/
theorem server_ioctls_in_blocks (xs : Bindings) {events : List (XsWatch × Seen)}
    (hrun : Lts.run (fire xs) (serverStart xs) events = some s) :
    CallsOf events s ∧ (s.calls ≠ [] → ∃ c ∈ s.calls.head?, c.IsRegister) ∧
      s.calls.countP MonitorCall.Watched ≤ s.calls.countP MonitorCall.IsRegister := by
  have hinv : CallsInv s := by
    refine Lts.invariant (fun s e t hs ht => ?_) hrun (callsInv_start xs)
    obtain ⟨hw, hfired⟩ := fired_of_fire ht
    exact hs.fired hw hfired
  have hcalls : CallsOf events s := by
    refine Lts.run_history CallsOf (fun _ s e t hs ht => ?_) hrun ⟨[], [], .slnil, .nil, rfl⟩
    exact hs.snoc (fired_of_fire ht).2
  have hle := hinv.watched_le
  exact ⟨hcalls, fun hne => hinv.first (.inr hne), by omega⟩

end Calls

/-- The paths of Xenstore, with bindings that take any number. -/
def xenBindings : Bindings where
  getDomainPath i := "/local/domain/".toList ++ print i
  hasDomainPath _ := true
  xsTakes _ := true
  getDomainPath_injective _ _ h := print_injective (List.append_cancel_left h)

/-- What is read when a node has this value. -/
def seenValue (value : Text) : Seen where
  value := some value
  dirs := none
  node := .empty
  children := none
  watchNode := none
  found := false
  deviceOk _ := true

/-- Domain 5 comes up and registers. -/
def domainFiveEvents : List (XsWatch × Seen) :=
  [(⟨xenBindings.domidPath 5, .watchDomainUp⟩, seenValue (print 5)),
    (⟨registerPath (print 5), .watchDomainRegister⟩, seenValue "5:2:3:u".toList)]

/-- Its report is found at this path from then on. -/
def domainFiveReady : Text := "/malpage/report/5/ready".toList

theorem run_domainFiveEvents :
    ∃ s, Lts.run (fire xenBindings) (serverStart xenBindings) domainFiveEvents = some s ∧
      s.sem = 1 ∧ s.calls = [⟨registerPath (print 5), .register ⟨5, 2, 3⟩, true⟩] ∧
      ⟨domainFiveReady, .watchDomainReport⟩ ∈ s.watches := by
  have hup : ⟨xenBindings.domidPath 5, .watchDomainUp⟩ ∈ (serverStart xenBindings).watches :=
    List.mem_map.mpr ⟨5, by decide, rfl⟩
  obtain ⟨t, ht, hsem, hcalls, hmem⟩ : ∃ t, fire xenBindings (serverStart xenBindings)
      (⟨xenBindings.domidPath 5, .watchDomainUp⟩, seenValue (print 5)) = some t ∧
        t.sem = 1 ∧ t.calls = [] ∧ ⟨registerPath (print 5), .watchDomainRegister⟩ ∈ t.watches := by
    have hint : (seenValue (print 5)).value.bind int = some ((5 : ℕ) : ℤ) := int_print 5
    rw [fire, if_pos hup]
    simp only [WatchFn.callback, watchDomainUpCb]
    rw [hint, run_attempt_some, if_pos (by decide), run_xswatch, run_pure]
    refine ⟨_, rfl, rfl, rfl, ?_⟩
    rw [List.erase_append_left _ hup]
    exact List.mem_append_right _ (List.mem_singleton.mpr rfl)
  obtain ⟨sem, watches, calls⟩ := t
  dsimp only at hsem hcalls hmem
  subst hsem hcalls
  have hregister : fire xenBindings ⟨1, watches, []⟩
      (⟨registerPath (print 5), .watchDomainRegister⟩, seenValue "5:2:3:u".toList) =
        some ⟨1, List.erase (watches ++ [⟨xenBindings.domidPath 5, .watchDomainDown⟩] ++
          [⟨domainFiveReady, .watchDomainReport⟩] ++
          [⟨"/malpage/watch/5/ready".toList, .watchDomainWatchreport⟩])
            ⟨registerPath (print 5), .watchDomainRegister⟩,
          [⟨registerPath (print 5), .register ⟨5, 2, 3⟩, true⟩]⟩ := by
    rw [fire, if_pos hmem]
    rfl
  refine ⟨_, (Lts.run_cons_eq_some _).mpr ⟨_, ht, (Lts.run_cons_eq_some _).mpr
    ⟨_, hregister, rfl⟩⟩, rfl, rfl, ?_⟩
  exact (List.mem_erase_of_ne fun h => by cases congrArg XsWatch.fn h).mpr (by simp)

theorem registered_at_most_once_domainFive :
    ∃ s, Lts.run (fire xenBindings) (serverStart xenBindings) domainFiveEvents = some s ∧
      s.calls.countP (MonitorCall.RegistersAt (registerPath (print 5))) ≤ 1 ∧
      (∀ c ∈ s.calls, c.RegistersAt (registerPath (print 5)) →
        ⟨xenBindings.domidPath 5, .watchDomainUp⟩ ∉ s.watches) ∧
      ∀ c ∈ s.calls, c.op ≠ .deregister := by
  obtain ⟨s, hrun, -⟩ := run_domainFiveEvents
  refine ⟨s, hrun, registered_at_most_once xenBindings (fun e he hfn i hpath v n hv _ _ => ?_)
    hrun 5⟩
  rcases List.mem_pair.mp he with rfl | rfl
  · obtain rfl := domidPath_injective xenBindings hpath
    exact (Option.some.inj hv).symm
  · cases hfn

/-- It reports its process 7, in whose only page grep finds something. -/
def domainFiveReport : XsWatch × Seen :=
  (⟨domainFiveReady, .watchDomainReport⟩, {
    value := some ['1']
    dirs := some [print 9]
    node := ⟨some ['1'], some (print 5), some (print 7), some (AList.singleton (print 9) (print 4))⟩
    children := some []
    watchNode := none
    found := true
    deviceOk _ := true })

theorem server_ioctls_in_blocks_domainFive :
    ∃ s, Lts.run (fire xenBindings) (serverStart xenBindings)
        (domainFiveEvents ++ [domainFiveReport]) = some s ∧
      s.calls = [⟨registerPath (print 5), .register ⟨5, 2, 3⟩, true⟩,
        ⟨domainFiveReady, .report ⟨7, 5, 0, [4], [9], 1⟩, true⟩,
        ⟨domainFiveReady, .kill, true⟩] ∧
      CallsOf (domainFiveEvents ++ [domainFiveReport]) s ∧
      (s.calls ≠ [] → ∃ c ∈ s.calls.head?, c.IsRegister) ∧
      s.calls.countP MonitorCall.Watched ≤ s.calls.countP MonitorCall.IsRegister := by
  obtain ⟨⟨sem, watches, calls⟩, hrun, hsem, hcalls, hmem⟩ := run_domainFiveEvents
  dsimp only at hsem hcalls hmem
  subst hsem hcalls
  have hreport : fire xenBindings
      ⟨1, watches, [⟨registerPath (print 5), .register ⟨5, 2, 3⟩, true⟩]⟩ domainFiveReport =
    some ⟨1, watches,
      [⟨registerPath (print 5), .register ⟨5, 2, 3⟩, true⟩,
        ⟨domainFiveReady, .report ⟨7, 5, 0, [4], [9], 1⟩, true⟩,
        ⟨domainFiveReady, .kill, true⟩]⟩ := by
    rw [fire, domainFiveReport, if_pos hmem]
    rfl
  have hall : Lts.run (fire xenBindings) (serverStart xenBindings)
      (domainFiveEvents ++ [domainFiveReport]) = some _ :=
    (Lts.run_append_eq_some _).mpr ⟨_, hrun, (Lts.run_cons_eq_some _).mpr ⟨_, hreport, rfl⟩⟩
  exact ⟨_, hall, rfl, server_ioctls_in_blocks xenBindings hall⟩

end Maitland
