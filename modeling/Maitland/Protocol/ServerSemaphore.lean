import Maitland.Library.Run
import Maitland.Protocol.Isolation
import Maitland.Server.Callbacks

/-!
# The semaphore over sequences of events

One exception under `global_sem` and the thread that serves the watches of all guests
blocks at its next callback.
-/

namespace Maitland

open Decimal Semaphore

variable {xsTakes : Text → Bool}

theorem snd_of_ended {α : Type} {r : Except Stop α × ℕ} {n : ℕ} (h : ended r = some n) :
    r.2 = n := by
  obtain ⟨_ | _, m⟩ := r
  · next e =>
    cases e with
    | raised => simpa [ended] using h
    | blocked => simp [ended] at h
  · simpa [ended] using h

/-- One callback from a count that lets it in. -/
theorem ServerEvent.run_snd_iff (e : ServerEvent) (n : ℕ) :
    (run (e.callback xsTakes) (n + 1)).2 = n + 1 ↔ e.WellFormed xsTakes := by
  obtain ⟨hok, hnot⟩ := e.balanced xsTakes n
  by_cases h : e.WellFormed xsTakes
  · exact iff_of_true (snd_of_ended (hok h)) h
  · refine iff_of_false ?_ h
    rw [hnot h]
    simp

theorem serverStep_wellFormed {e : ServerEvent} (h : e.WellFormed xsTakes) (n : ℕ) :
    serverStep xsTakes (n + 1) e = some (n + 1) :=
  (e.balanced xsTakes n).1 h

theorem serverStep_malformed {e : ServerEvent} (h : ¬e.WellFormed xsTakes) (n : ℕ) :
    serverStep xsTakes (n + 1) e = some n :=
  congrArg ended ((e.balanced xsTakes n).2 h)

/-- Without the semaphore no sequence of events is got through. -/
theorem run_serverStep_zero (es : List ServerEvent) :
    Lts.run (serverStep xsTakes) 0 es ≠ some 1 := by
  cases es with
  | nil => simp
  | cons e es =>
    rw [Lts.run_cons, ServerEvent.blocked]
    simp

/-- A callback leaves the semaphore as it found it exactly when what it reads is well
formed, and a sequence of events is got through with the semaphore given back exactly
when all of them are. -/
theorem semaphore_given_back_iff (xsTakes : Text → Bool) :
    (∀ (e : ServerEvent) (n : ℕ),
      (run (e.callback xsTakes) (n + 1)).2 = n + 1 ↔ e.WellFormed xsTakes) ∧
    ∀ es : List ServerEvent,
      Lts.run (serverStep xsTakes) 1 es = some 1 ↔ ∀ e ∈ es, e.WellFormed xsTakes := by
  refine ⟨fun e n => e.run_snd_iff n, fun es => ?_⟩
  induction es with
  | nil => simp
  | cons e es ih =>
    rw [Lts.run_cons, List.forall_mem_cons]
    by_cases h : e.WellFormed xsTakes
    · rw [serverStep_wellFormed h 0, Option.bind_some, ih]
      exact (and_iff_right h).symm
    · rw [serverStep_malformed h 0, Option.bind_some]
      exact iff_of_false (run_serverStep_zero es) fun hall => h hall.1

/-- A guest writes one letter to its register node: the callback raises with the semaphore
in its hands, and no later callback for any guest is got through. -/
theorem one_letter_stops_the_server :
    run ((ServerEvent.register (some ['x'])).callback fun _ => true) 1 = (.error .raised, 0) ∧
      ∀ e, Lts.run (serverStep fun _ => true) 1 [.register (some ['x']), e] = none := by
  have hrun : run ((ServerEvent.register (some ['x'])).callback fun _ => true) 1 =
      (.error .raised, 0) := rfl
  refine ⟨hrun, fun e => ?_⟩
  rw [Lts.run_cons, serverStep, hrun]
  exact congrArg (Option.bind · _) (ServerEvent.blocked _ e)

-- ════════════════════════════════════════════════════════════════════════
-- The server among the guests
-- ════════════════════════════════════════════════════════════════════════

/-- The event that an action of a guest is for the server. -/
def GuestAct.event : GuestAct → Option ServerEvent
  | .register _ value _ => some (.register value)
  | .report _ value dirs n found _ =>
    some (.report value dirs n (if found then some [] else none))
  | .watch _ value n => some (.watch value n)
  | .verdict .. | .ring .. | .irq .. => none

theorem GuestsState.dead_of_ioctl {z : Ring.Size} {s t : GuestsState} {a : Ioctl}
    (h : s.ioctl z a = some t) : t.dead = s.dead := by
  obtain ⟨r, _, rfl⟩ := Option.map_eq_some_iff.mp h
  rfl

/-- An action is at most one event. -/
theorem GuestAct.no_malformed_event {a : GuestAct} {e : ServerEvent} (he : a.event = some e)
    (hwf : e.WellFormed xsTakes) : ¬∃ e, a.event = some e ∧ ¬e.WellFormed xsTakes := by
  rintro ⟨e', he', hmal⟩
  rw [he, Option.some.injEq] at he'
  exact hmal (he' ▸ hwf)

/-- The server of the whole system dies at exactly the events that keep the semaphore. -/
theorem guestsStep_dead_iff {z : Ring.Size} {s t : GuestsState} {a : GuestAct}
    (hs : s.dead = false) (ht : guestsStep xsTakes z s a = some t) :
    t.dead = true ↔ ∃ e, a.event = some e ∧ ¬e.WellFormed xsTakes := by
  have hlive : ¬s.dead = true := by simp [hs]
  cases guestsStep_taken ht with
  | waits hdead _ => exact absurd hdead hlive
  | registerNothing _ hnone =>
    refine iff_of_false hlive (GuestAct.no_malformed_event rfl ?_)
    exact fun v hv hne => absurd (List.length_pos_iff.mpr hne) (hnone v hv)
  | @registerRaises _ v _ _ hlen hparse =>
    refine iff_of_true rfl ⟨_, rfl, fun hwf => ?_⟩
    have hsome := (registerWellFormed_iff.mp (hwf v rfl (List.length_pos_iff.mp hlen))).1
    simp [hparse] at hsome
  | @registerRefused _ v _ _ _ _ hlen _ htakes _ =>
    refine iff_of_true rfl ⟨_, rfl, fun hwf => ?_⟩
    exact htakes (registerWellFormed_iff.mp (hwf v rfl (List.length_pos_iff.mp hlen))).2
  | register _ _ hparse htakes hioctl =>
    rw [GuestsState.dead_of_ioctl hioctl]
    refine iff_of_false hlive (GuestAct.no_malformed_event rfl ?_)
    rintro v ⟨⟩ _
    exact registerWellFormed_iff.mpr ⟨by simp [hparse], htakes⟩
  | reportNothing _ hready | watchNothing _ hready =>
    refine iff_of_false hlive (GuestAct.no_malformed_event rfl ?_)
    exact forall_nonempty_iff.mpr fun h => absurd h hready
  | reportRaises _ hready hraises =>
    refine iff_of_true rfl ⟨_, rfl, fun hwf => ?_⟩
    obtain ⟨hread, hfound⟩ := ServerEvent.wellFormed_report_iff.mp hwf hready
    rcases hraises with hnone | rfl
    · simp [hnone] at hread
    · simp at hfound
  | reportUnpacked _ _ hr _ =>
    refine iff_of_false hlive (GuestAct.no_malformed_event rfl ?_)
    exact ServerEvent.wellFormed_report_iff.mpr fun _ => by simp [hr]
  | report _ _ hr _ hioctl =>
    rw [GuestsState.dead_of_ioctl hioctl]
    refine iff_of_false hlive (GuestAct.no_malformed_event rfl ?_)
    exact ServerEvent.wellFormed_report_iff.mpr fun _ => by simp [hr]
  | verdict _ hioctl =>
    rw [GuestsState.dead_of_ioctl hioctl]
    exact iff_of_false hlive (by simp [GuestAct.event])
  | watchRaises _ hready hnone =>
    refine iff_of_true rfl ⟨_, rfl, fun hwf => ?_⟩
    have hread := ServerEvent.wellFormed_watch_iff.mp hwf hready
    simp [hnone] at hread
  | watchUnpacked _ _ hr _ =>
    refine iff_of_false hlive (GuestAct.no_malformed_event rfl ?_)
    exact ServerEvent.wellFormed_watch_iff.mpr fun _ => by simp [hr]
  | watch _ _ hr _ hioctl =>
    rw [GuestsState.dead_of_ioctl hioctl]
    refine iff_of_false hlive (GuestAct.no_malformed_event rfl ?_)
    exact ServerEvent.wellFormed_watch_iff.mpr fun _ => by simp [hr]
  | ring | irq => exact iff_of_false hlive (by simp [GuestAct.event])

end Maitland
