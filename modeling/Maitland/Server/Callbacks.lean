import Maitland.Library.Semaphore
import Maitland.Server.Register
import Maitland.Server.Report
import Maitland.Server.Watch

/-!
# The callbacks and the global semaphore

The three callbacks of main.py as far as `global_sem` goes: where they take it and give
it back, and where they may raise.  What they read from Xenstore is what the guest has
written by then, and is given here.  The device can be opened and its ioctls return.
-/

namespace Maitland

open Decimal Semaphore

/-- `xsTakes` says for which `values[0]` the xenstore bindings go through: as a number in
`get_domain_path` and `set_permissions`, as the end of a path in `mkdir`.  They raise on
the others. -/
def watchDomainRegister (xsTakes : Text → Bool) (value : Option Text) : Prog Bool := do
  acquire
  release
  -- `len(None)`
  let value ← attempt value
  if 0 < value.length then
    acquire
    let _arg ← attempt (parseRegister value)
    attempt (if (value.splitOn ':').head?.any xsTakes then some () else none)
    release
    return false
  else
    return true

/-- `dirs` is the listing of `grefs` and `children` that of the node for the clean-up, with
`none` for a node that is not there, which is no list to go through. -/
def watchDomainReportSem (value : Option Text) (dirs : Option (List Text)) (node : ReportNode)
    (children : Option (List Text)) : Prog Bool := do
  acquire
  release
  if IsReady value then
    acquire
    let dirs ← attempt dirs
    let r ← attempt (readReport node dirs)
    let _ ← attempt children
    release
    let _rep ← attempt (packReport r)
    return true
  else
    return true

def watchDomainWatchreport (value : Option Text) (node : Option WatchNode) : Prog Bool := do
  acquire
  release
  -- `len(None)`
  let value ← attempt value
  if 0 < value.length then
    acquire
    let r ← attempt (readWatch node)
    release
    let _rep ← attempt (packWatch r.1 r.2)
    return false
  else
    return true

/-- An event of a watch, with what the callback reads. -/
inductive ServerEvent where
  | register (value : Option Text)
  | report (value : Option Text) (dirs : Option (List Text)) (node : ReportNode)
      (children : Option (List Text))
  | watch (value : Option Text) (node : Option WatchNode)

def ServerEvent.callback (xsTakes : Text → Bool) : ServerEvent → Prog Bool
  | .register value => watchDomainRegister xsTakes value
  | .report value dirs node children => watchDomainReportSem value dirs node children
  | .watch value node => watchDomainWatchreport value node

/-- The thread that serves the watches makes one callback after the other and survives
their exceptions.  A callback that blocks is not got past. -/
def serverStep (xsTakes : Text → Bool) (sem : ℕ) (e : ServerEvent) : Option ℕ :=
  ended (run (e.callback xsTakes) sem)

/-! ## What a guest may write -/

/-- `int` takes the text. -/
def Numeric (s : Text) : Prop := (int s).isSome

/-- The text is a number that fits an `unsigned int`. -/
def FitsWord (s : Text) : Prop := ∃ n, int s = some n ∧ 0 ≤ n ∧ n < 2 ^ 32

/-- A node is there and its value is a number. -/
def HoldsNumber (value : Option Text) : Prop := ∃ s, value = some s ∧ Numeric s

/-- At least four fields, of which the first three are numbers that fit and the first is
a text the bindings take. -/
def RegisterWellFormed (xsTakes : Text → Bool) (value : Text) : Prop :=
  ∃ domid gref evtchn uuid rest, value.splitOn ':' = domid :: gref :: evtchn :: uuid :: rest ∧
    FitsWord domid ∧ FitsWord gref ∧ FitsWord evtchn ∧ xsTakes domid = true

/-- A registration that is not empty is in the form of `malpage_register`; a report that is
announced lists its references, has numbers in all places and is still there for the clean-up;
a watch that is announced has numbers. -/
def ServerEvent.WellFormed (xsTakes : Text → Bool) : ServerEvent → Prop
  | .register value => ∀ v, value = some v → v ≠ [] → RegisterWellFormed xsTakes v
  | .report value dirs node children => ∀ v, value = some v → v ≠ [] →
    (∃ ds, dirs = some ds ∧
      ∀ dir ∈ ds, Numeric dir ∧ HoldsNumber (node.grefs.bind fun grefs => grefs.lookup dir)) ∧
    HoldsNumber node.domid ∧ HoldsNumber node.pid ∧ children.isSome
  | .watch value node => ∀ v, value = some v → v ≠ [] →
    HoldsNumber (node.bind WatchNode.domid) ∧ HoldsNumber (node.bind WatchNode.pid)

-- ════════════════════════════════════════════════════════════════════════
-- Parsing succeeds on what is well formed
-- ════════════════════════════════════════════════════════════════════════

theorem pack_isSome_iff {w : ℕ} {n : ℤ} : (pack w n).isSome ↔ 0 ≤ n ∧ n < 2 ^ w := by
  rw [pack]
  split <;> simp_all

theorem holdsNumber_iff {value : Option Text} : HoldsNumber value ↔ (value.bind int).isSome := by
  cases value <;> simp [HoldsNumber, Numeric]

theorem fitsWord_iff {s : Text} : FitsWord s ↔ ((int s).bind (pack 32)).isSome := by
  cases h : int s with
  | none => simp [FitsWord, h]
  | some n => simp only [FitsWord, h, Option.some.injEq, exists_eq_left', Option.bind_some,
      pack_isSome_iff]

theorem parseRegister_isSome_iff {value : Text} :
    (parseRegister value).isSome ↔
      ∃ domid gref evtchn uuid rest,
        value.splitOn ':' = domid :: gref :: evtchn :: uuid :: rest ∧
          FitsWord domid ∧ FitsWord gref ∧ FitsWord evtchn := by
  simp only [fitsWord_iff]
  rw [parseRegister]
  split
  · next domid gref evtchn uuid rest hsplit =>
    constructor
    · intro h
      refine ⟨domid, gref, evtchn, uuid, rest, hsplit, ?_⟩
      simpa [Option.isSome_iff_exists, Option.bind_eq_some_iff] using h
    · rintro ⟨domid', gref', evtchn', uuid', rest', hsplit', hfit⟩
      rw [hsplit] at hsplit'
      cases hsplit'
      simpa [Option.isSome_iff_exists, Option.bind_eq_some_iff] using hfit
  · next hne =>
    refine iff_of_false (by simp) ?_
    rintro ⟨domid, gref, evtchn, uuid, rest, hsplit, _⟩
    exact hne _ _ _ _ _ hsplit

theorem registerWellFormed_iff {xsTakes : Text → Bool} {value : Text} :
    RegisterWellFormed xsTakes value ↔
      (parseRegister value).isSome ∧ (value.splitOn ':').head?.any xsTakes = true := by
  rw [parseRegister_isSome_iff]
  constructor
  · rintro ⟨domid, gref, evtchn, uuid, rest, hsplit, hd, hg, he, htakes⟩
    refine ⟨⟨domid, gref, evtchn, uuid, rest, hsplit, hd, hg, he⟩, ?_⟩
    rw [hsplit]
    exact htakes
  · rintro ⟨⟨domid, gref, evtchn, uuid, rest, hsplit, hd, hg, he⟩, htakes⟩
    rw [hsplit] at htakes
    exact ⟨domid, gref, evtchn, uuid, rest, hsplit, hd, hg, he, htakes⟩

theorem readWatch_isSome_iff {node : Option WatchNode} :
    (readWatch node).isSome ↔
      HoldsNumber (node.bind WatchNode.domid) ∧ HoldsNumber (node.bind WatchNode.pid) := by
  rw [holdsNumber_iff, holdsNumber_iff, readWatch]
  cases (node.bind WatchNode.domid).bind int <;> cases (node.bind WatchNode.pid).bind int <;> simp

theorem mapM_isSome_iff {α β : Type} {f : α → Option β} {l : List α} :
    (l.mapM f).isSome ↔ ∀ x ∈ l, (f x).isSome := by
  induction l with
  | nil => simp
  | cons x l ih =>
    rw [List.mapM_cons, List.forall_mem_cons, ← ih]
    cases f x <;> cases l.mapM f <;> simp

theorem readGref_isSome_iff {grefs : Option Directory} {dir : Text} :
    (readGref grefs dir).isSome ↔
      Numeric dir ∧ HoldsNumber (grefs.bind fun grefs => grefs.lookup dir) := by
  rw [holdsNumber_iff, readGref, Numeric]
  cases int dir with
  | none => simp
  | some gref =>
    cases grefs.bind fun grefs => grefs.lookup dir with
    | none => simp
    | some tmp => cases hi : int tmp <;> simp [hi]

theorem readReport_isSome_iff {node : ReportNode} {dirs : List Text} :
    (readReport node dirs).isSome ↔
      (∀ dir ∈ dirs,
        Numeric dir ∧ HoldsNumber (node.grefs.bind fun grefs => grefs.lookup dir)) ∧
      HoldsNumber node.domid ∧ HoldsNumber node.pid := by
  simp only [← readGref_isSome_iff]
  rw [← mapM_isSome_iff, holdsNumber_iff, holdsNumber_iff, readReport]
  cases dirs.mapM (readGref node.grefs) <;> cases node.domid.bind int <;>
    cases node.pid.bind int <;> simp

theorem isReady_iff {value : Option Text} : IsReady value ↔ ∃ v, value = some v ∧ v ≠ [] := by
  cases value <;> simp [IsReady, List.length_pos_iff]

theorem forall_nonempty_iff {value : Option Text} {p : Prop} :
    (∀ v, value = some v → v ≠ [] → p) ↔ (IsReady value → p) := by
  rw [isReady_iff]
  constructor
  · rintro h ⟨v, hv, hne⟩
    exact h v hv hne
  · exact fun h v hv hne => h ⟨v, hv, hne⟩

theorem ServerEvent.wellFormed_report_iff {xsTakes : Text → Bool} {value : Option Text}
    {dirs : Option (List Text)} {node : ReportNode} {children : Option (List Text)} :
    (ServerEvent.report value dirs node children).WellFormed xsTakes ↔
      (IsReady value → (dirs.bind (readReport node)).isSome ∧ children.isSome) := by
  rw [ServerEvent.WellFormed, forall_nonempty_iff]
  cases dirs with
  | none => simp
  | some ds => simp [readReport_isSome_iff, and_assoc]

theorem ServerEvent.wellFormed_watch_iff {xsTakes : Text → Bool} {value : Option Text}
    {node : Option WatchNode} :
    (ServerEvent.watch value node).WellFormed xsTakes ↔
      (IsReady value → (readWatch node).isSome) := by
  rw [ServerEvent.WellFormed, forall_nonempty_iff, readWatch_isSome_iff]

-- ════════════════════════════════════════════════════════════════════════
-- The semaphore after a callback
-- ════════════════════════════════════════════════════════════════════════

/-- The form of the two callbacks that take `len(value)` as it is. -/
theorem balanced_of_nonempty {value : Option Text} {ok : Text → Prop} {body : Text → Prog Bool}
    (h : ∀ v, v ≠ [] → Balanced (ok v) (body v)) :
    Balanced (∀ v, value = some v → v ≠ [] → ok v) (do
      acquire
      release
      let v ← attempt value
      if 0 < v.length then body v else return true) := by
  refine Balanced.acquire_release ?_
  cases value with
  | none =>
    refine balanced_of_ended (fun n => ?_) (by simp)
    rw [run_bind_error (run_attempt_none _)]
    rfl
  | some v =>
    by_cases hv : v = []
    · refine balanced_of_ended (fun n => ?_) (by simp [hv])
      rw [run_bind_ok (run_attempt_some _ _), if_neg (by simp [hv])]
      rfl
    · intro n
      rw [run_bind_ok (run_attempt_some _ _), if_pos (List.length_pos_iff.mpr hv)]
      simpa [hv] using h v hv n

theorem watchDomainRegister_balanced (xsTakes : Text → Bool) (value : Option Text) :
    Balanced ((ServerEvent.register value).WellFormed xsTakes)
      (watchDomainRegister xsTakes value) := by
  refine balanced_of_nonempty fun v _ => ?_
  have hsection := (GivesBack.attempt (x := parseRegister v) fun _ =>
    GivesBack.attempt (x := if (v.splitOn ':').head?.any xsTakes then some () else none) fun _ =>
      GivesBack.release (p := pure false) fun _ => rfl).acquire
  refine hsection.congr ?_
  rw [registerWellFormed_iff, Option.isSome_iff_exists]
  simp

theorem watchDomainWatchreport_balanced (xsTakes : Text → Bool) (value : Option Text)
    (node : Option WatchNode) :
    Balanced ((ServerEvent.watch value node).WellFormed xsTakes)
      (watchDomainWatchreport value node) := by
  refine balanced_of_nonempty fun v _ => ?_
  have hsection := (GivesBack.attempt (x := readWatch node) fun r =>
    GivesBack.release (p := attempt (packWatch r.1 r.2) >>= fun _ => pure false)
      fun n => ended_attempt_pure _ _ n).acquire
  refine hsection.congr ?_
  rw [← readWatch_isSome_iff, Option.isSome_iff_exists]
  simp

theorem watchDomainReportSem_balanced (xsTakes : Text → Bool) (value : Option Text)
    (dirs : Option (List Text)) (node : ReportNode) (children : Option (List Text)) :
    Balanced ((ServerEvent.report value dirs node children).WellFormed xsTakes)
      (watchDomainReportSem value dirs node children) := by
  refine Balanced.congr ?_ ServerEvent.wellFormed_report_iff.symm
  refine Balanced.acquire_release ?_
  by_cases hv : IsReady value
  · have hsection := (GivesBack.attempt (x := dirs) fun ds =>
      GivesBack.attempt (x := readReport node ds) fun r =>
        GivesBack.attempt (x := children) fun _ =>
          GivesBack.release (p := attempt (packReport r) >>= fun _ => pure true)
            fun n => ended_attempt_pure _ _ n).acquire
    rw [if_pos hv]
    refine hsection.congr ?_
    cases dirs <;> simp [hv, Option.isSome_iff_exists]
  · rw [if_neg hv]
    exact balanced_of_ended (fun n => rfl) fun hready => absurd hready hv

theorem ServerEvent.balanced (xsTakes : Text → Bool) (e : ServerEvent) :
    Balanced (e.WellFormed xsTakes) (e.callback xsTakes) := by
  cases e with
  | register value => exact watchDomainRegister_balanced xsTakes value
  | report value dirs node children =>
    exact watchDomainReportSem_balanced xsTakes value dirs node children
  | watch value node => exact watchDomainWatchreport_balanced xsTakes value node

/-- No callback gets past its first `acquire` without the semaphore. -/
theorem ServerEvent.blocked (xsTakes : Text → Bool) (e : ServerEvent) :
    serverStep xsTakes 0 e = none := by
  cases e <;> exact congrArg ended (run_acquire_blocked _)

end Maitland
