import Mathlib.Data.Nat.Notation

/-!
# Machines that run until they halt

`runFuel` takes steps until there is none. Pieces of a run are put together with `Reaches`, which
keeps the fuel out of the way.
-/

namespace Halting

variable {σ : Type*} {step : σ → Option σ}

def runFuel (step : σ → Option σ) : ℕ → σ → Option σ
  | 0, _ => none
  | n + 1, s =>
    match step s with
    | some t => runFuel step n t
    | none => some s

/-- Some number of steps leads from the one state to the other. -/
def Reaches (step : σ → Option σ) (s t : σ) : Prop :=
  ∃ k, ∀ n, runFuel step (n + k) s = runFuel step n t

theorem Reaches.refl (s : σ) : Reaches step s s := ⟨0, fun _ => rfl⟩

theorem Reaches.head {s t u : σ} (hs : step s = some t) (h : Reaches step t u) :
    Reaches step s u := by
  obtain ⟨k, hk⟩ := h
  exact ⟨k + 1, fun n => by rw [← Nat.add_assoc, runFuel, hs]; exact hk n⟩

theorem Reaches.trans {s t u : σ} (h : Reaches step s t) (h' : Reaches step t u) :
    Reaches step s u := by
  obtain ⟨k, hk⟩ := h
  obtain ⟨k', hk'⟩ := h'
  exact ⟨k' + k, fun n => by rw [← Nat.add_assoc, hk, hk']⟩

/-- Two states with the same step run alike. -/
theorem Reaches.of_same_step {s s' t u : σ} (hs : step s = some u) (hs' : step s' = some u)
    (h : Reaches step s' t) : Reaches step s t := by
  obtain ⟨k, hk⟩ := h
  refine ⟨k, fun n => ?_⟩
  rw [← hk n]
  cases n + k with
  | zero => rfl
  | succ j => rw [runFuel, runFuel, hs, hs']

/-- A run that reaches a state without a step ends there, whatever fuel is left. -/
theorem Reaches.halts {s t : σ} (h : Reaches step s t) (ht : step t = none) :
    ∃ k, ∀ n, k ≤ n → runFuel step n s = some t := by
  obtain ⟨k, hk⟩ := h
  refine ⟨k + 1, fun n hn => ?_⟩
  obtain ⟨d, rfl⟩ := Nat.exists_eq_add_of_le hn
  rw [show k + 1 + d = d + 1 + k by omega, hk, runFuel, ht]

end Halting
