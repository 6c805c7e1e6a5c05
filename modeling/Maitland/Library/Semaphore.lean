import Mathlib.Data.Nat.Notation

/-!
# Programs with a counting semaphore

A program may raise anywhere, and what it has done to the semaphore by then stays done.
An `acquire` at zero blocks.
-/

namespace Semaphore

/-- How a program ends without returning. -/
inductive Stop where
  | raised
  | blocked
  deriving DecidableEq

abbrev Prog := ExceptT Stop (StateM ℕ)

variable {α β : Type}

def acquire : Prog Unit := do
  let count ← get
  if count = 0 then throw .blocked else set (count - 1)

def release : Prog Unit := modify (· + 1)

/-- A computation that raises when it has no value. -/
def attempt : Option α → Prog α
  | some a => pure a
  | none => throw .raised

/-- How the program ends from the count `n`, and the count then. -/
def run (p : Prog α) (n : ℕ) : Except Stop α × ℕ := StateT.run (ExceptT.run p) n

/-- The count after a program that ends, by a return or by raising. -/
def ended : Except Stop α × ℕ → Option ℕ
  | (.error .blocked, _) => none
  | (_, n) => some n

@[simp] theorem run_acquire_zero : run acquire 0 = (.error .blocked, 0) := rfl

@[simp] theorem run_acquire_succ (n : ℕ) : run acquire (n + 1) = (.ok (), n) := rfl

@[simp] theorem run_release (n : ℕ) : run release n = (.ok (), n + 1) := rfl

@[simp] theorem run_attempt_some (a : α) (n : ℕ) : run (attempt (some a)) n = (.ok a, n) := rfl

@[simp] theorem run_attempt_none (n : ℕ) :
    run (attempt (none : Option α)) n = (.error .raised, n) := rfl

theorem run_bind_ok {p : Prog α} {n m : ℕ} {a : α} (h : run p n = (.ok a, m)) (f : α → Prog β) :
    run (p >>= f) n = run (f a) m := by
  have hp : StateT.run (ExceptT.run p) n = (Except.ok a, m) := h
  rw [run, ExceptT.run_bind, StateT.run_bind, hp]
  rfl

theorem run_bind_error {p : Prog α} {n m : ℕ} {e : Stop} (h : run p n = (.error e, m))
    (f : α → Prog β) : run (p >>= f) n = (.error e, m) := by
  have hp : StateT.run (ExceptT.run p) n = (Except.error e, m) := h
  rw [run, ExceptT.run_bind, StateT.run_bind, hp]
  rfl

/-- A section whose steps cannot raise gives back what it takes. -/
theorem run_acquire_release (f : Prog β) (n : ℕ) :
    run (acquire >>= fun _ => release >>= fun _ => f) (n + 1) = run f (n + 1) := by
  rw [run_bind_ok (run_acquire_succ n), run_bind_ok (run_release n)]

/-- Without a count the program is stuck at its first `acquire`. -/
theorem run_acquire_blocked (f : Unit → Prog β) : run (acquire >>= f) 0 = (.error .blocked, 0) :=
  run_bind_error run_acquire_zero f

/-- What comes after the section may raise: the count stays. -/
theorem ended_attempt_pure (x : Option α) (b : β) (n : ℕ) :
    ended (run (attempt x >>= fun _ => pure b) n) = some n := by
  cases x with
  | none =>
    rw [run_bind_error (run_attempt_none n)]
    rfl
  | some a =>
    rw [run_bind_ok (run_attempt_some a n)]
    rfl

variable {ok ok' : Prop} {p : Prog β}

/-- The program gives back what it takes when `ok` holds, by a return or with an exception
after it, and otherwise raises with one count in its hands. -/
def Balanced (ok : Prop) (p : Prog β) : Prop :=
  ∀ n, (ok → ended (run p (n + 1)) = some (n + 1)) ∧ (¬ok → run p (n + 1) = (.error .raised, n))

/-- The same of what is left of a program that has taken its count. -/
def GivesBack (ok : Prop) (p : Prog β) : Prop :=
  ∀ n, (ok → ended (run p n) = some (n + 1)) ∧ (¬ok → run p n = (.error .raised, n))

theorem Balanced.congr (h : Balanced ok p) (hok : ok ↔ ok') : Balanced ok' p := by
  rwa [← propext hok]

/-- What takes nothing and ends is balanced. -/
theorem balanced_of_ended (h : ∀ n, ended (run p (n + 1)) = some (n + 1)) (hok : ok) :
    Balanced ok p :=
  fun n => ⟨fun _ => h n, fun hnot => absurd hok hnot⟩

theorem Balanced.acquire_release (h : Balanced ok p) :
    Balanced ok (acquire >>= fun _ => release >>= fun _ => p) := by
  intro n
  rw [run_acquire_release]
  exact h n

theorem GivesBack.acquire (h : GivesBack ok p) :
    Balanced ok (Semaphore.acquire >>= fun _ => p) := by
  intro n
  rw [run_bind_ok (run_acquire_succ n)]
  exact h n

/-- The next step of the section may raise. -/
theorem GivesBack.attempt {x : Option α} {ok : α → Prop} {f : α → Prog β}
    (h : ∀ a, GivesBack (ok a) (f a)) :
    GivesBack (∃ a, x = some a ∧ ok a) (Semaphore.attempt x >>= f) := by
  intro n
  cases x with
  | none =>
    rw [run_bind_error (run_attempt_none n)]
    exact ⟨by simp, fun _ => rfl⟩
  | some a =>
    rw [run_bind_ok (run_attempt_some a n)]
    simpa using h a n

theorem GivesBack.release (h : ∀ n, ended (run p n) = some n) :
    GivesBack True (Semaphore.release >>= fun _ => p) := by
  intro n
  rw [run_bind_ok (run_release n)]
  exact ⟨fun _ => h (n + 1), fun hnot => absurd trivial hnot⟩

end Semaphore
