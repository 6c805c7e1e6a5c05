import Mathlib.Data.Int.Notation
import Maitland.Cache.Client

/-!
# Submissions to a scanner that may be busy

`monitorSubmitHash` as a whole, with its retry loop: the scanner may answer `"0"`, and
its connection may be denied.  The name server finds the table.
-/

namespace Maitland

/-- What `submitHash` answers: `"g"`, `"b"` or `"0"`. -/
inductive Answer where
  | verdict (status : Status)
  | busy
  deriving DecidableEq

/-- One call of `submitHash`: an answer, or `ConnectionDeniedError`. -/
inductive Attempt where
  | answer (a : Answer)
  | denied
  deriving DecidableEq

/-- A round of the retry loop: the call it begins with, and the one it makes when that
was denied. -/
structure Round where
  first : Attempt
  again : Attempt
  deriving DecidableEq

/-- `none` is the exception of the second call, which nothing catches. -/
def Round.result (r : Round) : Option Answer :=
  match r.first with
  | .answer a => some a
  | .denied =>
    match r.again with
    | .answer a => some a
    | .denied => none

/-- `while (result == "0" and repeats >= 0)`, with the number of rounds left and the
number of those made. -/
def submitLoop (rounds : ℕ → Round) : ℕ → ℕ → Answer → Option Answer
  | 0, _, result => some result
  | n + 1, k, result =>
    if result = .busy then (rounds k).result.bind (submitLoop rounds n (k + 1)) else some result

def repeatsIfConnDenied : ℤ := 10

/-- `repeats + 1` at the head of the loop. -/
def submitRounds (arg1 : ℤ) : ℕ := (min arg1 repeatsIfConnDenied + 1).toNat

variable {Page Id : Type*}

def HashClass.withStatus {St St' : Type} (x : HashClass Page Id St) (st : St') :
    HashClass Page Id St' :=
  ⟨x.hashKey, x.id0, x.id1, x.id2, st⟩

/-- A call with what the scanner will answer it. -/
structure Submission (Page Id : Type*) where
  processData : ProcessData Page Id
  arg1 : ℤ
  rounds : ℕ → Round

section Submit

variable [DecidableEq Page] [DecidableEq Id]

/-- The table after the call and what it returns, `none` for an exception.  With a
negative `arg1` the table is never looked up and its proxy is missing. -/
def monitorSubmitHash (l : HashTable Page Id Answer) (c : Submission Page Id) :
    HashTable Page Id Answer × Option Answer :=
  if c.arg1 < 0 then (l, none)
  else
    match c.processData.pageList.getLast? with
    | none => (l, some (.verdict .good))
    | some page =>
      let hashClassObj := (c.processData.hashClass page).withStatus (.verdict .bad)
      match searchHashList l hashClassObj with
      | some status => (l, some status)
      | none =>
        match submitLoop c.rounds (submitRounds c.arg1) 0 .busy with
        | none => (l, none)
        | some result =>
          (appendList (masterCleanUp l) (hashClassObj.withStatus result), some result)

/-- The loop runs out of rounds with `"0"` exactly when each of them ends with it. -/
theorem submitLoop_eq_busy_iff (rounds : ℕ → Round) (n k : ℕ) :
    submitLoop rounds n k .busy = some .busy ↔ ∀ i < n, (rounds (k + i)).result = some .busy := by
  induction n generalizing k with
  | zero => simp [submitLoop]
  | succ n ih =>
    rw [submitLoop, if_pos rfl]
    cases hr : (rounds k).result with
    | none =>
      refine iff_of_false (by simp) fun h => ?_
      have h0 := h 0 (Nat.succ_pos n)
      rw [Nat.add_zero, hr] at h0
      cases h0
    | some a =>
      cases a with
      | verdict v =>
        have hleave : submitLoop rounds n (k + 1) (.verdict v) = some (.verdict v) := by
          cases n with
          | zero => rfl
          | succ n => rw [submitLoop, if_neg (by simp)]
        rw [Option.bind_some, hleave]
        refine iff_of_false (by simp) fun h => ?_
        have h0 := h 0 (Nat.succ_pos n)
        rw [Nat.add_zero, hr] at h0
        cases h0
      | busy =>
        rw [Option.bind_some, ih]
        constructor
        · intro h i hi
          cases i with
          | zero => exact hr
          | succ i =>
            rw [Nat.add_comm i 1, ← Nat.add_assoc]
            exact h i (by omega)
        · intro h i hi
          rw [Nat.add_assoc, Nat.add_comm 1 i]
          exact h (i + 1) (by omega)

end Submit

end Maitland
