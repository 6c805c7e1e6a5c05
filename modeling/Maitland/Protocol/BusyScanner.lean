import Maitland.Cache.Submit
import Maitland.Protocol.VerdictCache

/-!
# What a busy scanner leaves in the verdict table

Any sequence of calls of `monitorSubmitHash`, with whatever the scanner answers to
each.  Where it answers at once, a call is a run of one client of the table.
-/

namespace Maitland

variable {Page Id : Type*} [DecidableEq Page] [DecidableEq Id]

/-- The table and what the calls returned. -/
structure SubmitState (Page Id : Type*) where
  table : HashTable Page Id Answer
  answers : List (Option Answer)

def submitStep (s : SubmitState Page Id) (c : Submission Page Id) :
    Option (SubmitState Page Id) :=
  let r := monitorSubmitHash s.table c
  some ⟨r.1, s.answers ++ [r.2]⟩

def submitStart : SubmitState Page Id := ⟨[], []⟩

/-- Every entry holds a verdict. -/
def OnlyVerdicts (l : HashTable Page Id Answer) : Prop := ∀ e ∈ l, ∃ v, e.status = .verdict v

/-- The call finds no entry for its data, and every round the scanner has for it ends
with `"0"`. -/
def Exhausted (l : HashTable Page Id Answer) (c : Submission Page Id) : Prop :=
  0 ≤ c.arg1 ∧ (∃ page, c.processData.pageList.getLast? = some page ∧
      searchHashList l ((c.processData.hashClass page).withStatus (.verdict .bad)) = none) ∧
    ∀ k < submitRounds c.arg1, (c.rounds k).result = some .busy

theorem onlyVerdicts_appendList {l : HashTable Page Id Answer} (h : OnlyVerdicts l)
    (x : HashClass Page Id Answer) (v : Status) :
    OnlyVerdicts (appendList (masterCleanUp l) (x.withStatus (.verdict v))) := by
  intro e he
  rcases mem_appendList he with he | rfl
  · exact h e (mem_masterCleanUp he)
  · exact ⟨v, rfl⟩

/-- An entry with `"0"` goes in: what is not in the table is not in it after the
clean-up either. -/
theorem not_onlyVerdicts_appendList {l : HashTable Page Id Answer} {x : HashClass Page Id Answer}
    (h : searchHashList l x = none) :
    ¬OnlyVerdicts (appendList (masterCleanUp l) (x.withStatus .busy)) := by
  have hnone : searchHashList (masterCleanUp l) (x.withStatus .busy) = none := by
    rw [searchHashList_eq_none_iff] at h ⊢
    exact fun e he => h e (mem_masterCleanUp he)
  rw [appendList_of_none hnone]
  intro hall
  obtain ⟨v, hv⟩ := hall (x.withStatus .busy) (List.mem_append_right _ (List.mem_singleton.mpr rfl))
  cases hv

/-- From a table of verdicts a call leads to one, unless every round ended with `"0"`. -/
theorem monitorSubmitHash_onlyVerdicts_iff {l : HashTable Page Id Answer} (h : OnlyVerdicts l)
    (c : Submission Page Id) : OnlyVerdicts (monitorSubmitHash l c).1 ↔ ¬Exhausted l c := by
  unfold Exhausted monitorSubmitHash
  by_cases harg : c.arg1 < 0
  · rw [if_pos harg]
    exact iff_of_true h fun hex => absurd hex.1 (by omega)
  rw [if_neg harg]
  cases hp : c.processData.pageList.getLast? with
  | none => exact iff_of_true h (by rintro ⟨_, ⟨page, ⟨⟩, _⟩, _⟩)
  | some page =>
    dsimp only
    cases hs : searchHashList l ((c.processData.hashClass page).withStatus (.verdict .bad)) with
    | some status =>
      refine iff_of_true h ?_
      rintro ⟨_, ⟨page', hp', hs'⟩, _⟩
      cases hp'
      rw [hs] at hs'
      cases hs'
    | none =>
      have hloop := submitLoop_eq_busy_iff c.rounds (submitRounds c.arg1) 0
      simp only [Nat.zero_add] at hloop
      cases hr : submitLoop c.rounds (submitRounds c.arg1) 0 .busy with
      | none =>
        refine iff_of_true h fun hex => ?_
        rw [hloop.mpr hex.2.2] at hr
        cases hr
      | some result =>
        cases result with
        | verdict v =>
          refine iff_of_true (onlyVerdicts_appendList h _ v) fun hex => ?_
          rw [hloop.mpr hex.2.2] at hr
          cases hr
        | busy =>
          refine iff_of_false (not_onlyVerdicts_appendList hs) (not_not.mpr ?_)
          exact ⟨by omega, ⟨page, rfl, hs⟩, hloop.mp hr⟩

/-- What a call does to the table is a run of remote calls. -/
theorem monitorSubmitHash_tableCalls (l : HashTable Page Id Answer) (c : Submission Page Id) :
    ∃ calls, ∀ log, ∃ u, Lts.run tableStep ⟨l, log⟩ calls = some u ∧
      u.table = (monitorSubmitHash l c).1 := by
  unfold monitorSubmitHash
  by_cases harg : c.arg1 < 0
  · rw [if_pos harg]
    exact ⟨[], fun log => ⟨_, rfl, rfl⟩⟩
  rw [if_neg harg]
  cases c.processData.pageList.getLast? with
  | none => exact ⟨[], fun log => ⟨_, rfl, rfl⟩⟩
  | some page =>
    obtain ⟨x, hx⟩ : ∃ x : HashClass Page Id Answer,
      x = (c.processData.hashClass page).withStatus (.verdict .bad) := ⟨_, rfl⟩
    simp only [← hx]
    cases searchHashList l x with
    | some status => exact ⟨[.searchHashList x], fun log => ⟨_, rfl, rfl⟩⟩
    | none =>
      cases submitLoop c.rounds (submitRounds c.arg1) 0 .busy with
      | none => exact ⟨[.searchHashList x], fun log => ⟨_, rfl, rfl⟩⟩
      | some result =>
        exact ⟨[.searchHashList x, .masterCleanUp, .appendList (x.withStatus result)],
          fun log => ⟨_, rfl, rfl⟩⟩

/-- The rules of the table hold of entries with `"0"` too. -/
theorem submissions_table_logged {cs : List (Submission Page Id)} {s : SubmitState Page Id}
    (hr : Lts.run submitStep submitStart cs = some s) :
    ∃ log, Fifo.Logged HashClass.key log s.table := by
  refine @Lts.invariant _ _ _ (fun s => ∃ log, Fifo.Logged HashClass.key log s.table) ?_ _ _ _ hr
    ⟨[], Fifo.Logged.nil⟩
  rintro s c t ⟨log, h⟩ ht
  obtain rfl := Option.some.inj ht
  obtain ⟨calls, hcalls⟩ := monitorSubmitHash_tableCalls s.table c
  obtain ⟨u, hu, htable⟩ := hcalls log
  refine ⟨u.log, ?_⟩
  dsimp only
  rw [← htable]
  exact Lts.invariant (fun _ _ _ h ht => tableStep_logged h ht) hu h

/-- Over every sequence of calls the table holds verdicts only, exactly as long as no
call that has to ask the scanner is answered `"0"` to the last of its rounds. -/
theorem only_verdicts_cached_iff (cs : List (Submission Page Id)) :
    Lts.Along submitStep (fun _ _ t => OnlyVerdicts t.table) submitStart cs ↔
      Lts.Along submitStep (fun s c _ => ¬Exhausted s.table c) submitStart cs := by
  have hstart : OnlyVerdicts (submitStart : SubmitState Page Id).table := fun e he => nomatch he
  have hexact : ∀ (s : SubmitState Page Id) (c : Submission Page Id) (t : SubmitState Page Id),
      OnlyVerdicts s.table → submitStep s c = some t →
        (OnlyVerdicts t.table ↔ ¬Exhausted s.table c) := by
    intro s c t hs ht
    rw [← Option.some.inj ht]
    exact monitorSubmitHash_onlyVerdicts_iff hs c
  refine @Lts.along_iff _ _ _ _ _ (fun s => OnlyVerdicts s.table) hexact ?_ _ hstart cs
  exact fun s c t hs ht hc => (hexact s c t hs ht).mpr hc

/-- A process with page 1, while the scanner is busy. -/
def whileBusy : Submission ℕ ℕ := ⟨⟨[1], 7, 0, 3⟩, 2, fun _ => ⟨.answer .busy, .denied⟩⟩

/-- The same process when the scanner has time for it. -/
def whileFree : Submission ℕ ℕ :=
  ⟨⟨[1], 7, 0, 3⟩, 2, fun _ => ⟨.answer (.verdict .good), .denied⟩⟩

/-- Three rounds of `"0"` are cached, and the scanner is not asked again. -/
theorem busy_answer_is_replayed :
    ¬Lts.Along submitStep (fun _ _ t => OnlyVerdicts t.table) submitStart [whileBusy] ∧
      (Lts.run submitStep submitStart [whileBusy, whileFree]).map SubmitState.answers =
        some [some .busy, some .busy] := by
  refine ⟨fun h => ?_, by decide⟩
  obtain ⟨v, hv⟩ := (h _ rfl).1 ⟨1, 7, 0, 3, .busy⟩ (List.mem_singleton.mpr rfl)
  cases hv

/-- The entry in a table that may hold `"0"` too. -/
def HashClass.lift (x : HashClass Page Id) : HashClass Page Id Answer :=
  x.withStatus (.verdict x.status)

theorem searchHashList_lift (l : HashTable Page Id) (x : HashClass Page Id) (st : Answer) :
    searchHashList (l.map HashClass.lift) (x.withStatus st) =
      (searchHashList l x).map Answer.verdict := by
  rw [searchHashList, searchHashList, ← List.map_reverse, List.find?_map, Option.map_map,
    Option.map_map]
  rfl

omit [DecidableEq Page] [DecidableEq Id] in
theorem masterCleanUp_lift (l : HashTable Page Id) :
    masterCleanUp (l.map HashClass.lift) = (masterCleanUp l).map HashClass.lift := by
  rw [masterCleanUp, masterCleanUp, List.length_map]
  split
  · cases l <;> rfl
  · rfl

theorem appendList_lift (l : HashTable Page Id) (x : HashClass Page Id) :
    appendList (l.map HashClass.lift) x.lift = (appendList l x).map HashClass.lift := by
  have hs : searchHashList (l.map HashClass.lift) x.lift = _ :=
    searchHashList_lift l x (.verdict x.status)
  cases h : searchHashList l x with
  | none =>
    rw [h] at hs
    rw [appendList_of_none h, appendList_of_none hs, List.map_append]
    rfl
  | some st =>
    rw [h] at hs
    rw [appendList_of_some h, appendList_of_some hs]

/-- A scanner that answers `v` to whatever it is asked. -/
def answersAtOnce (v : Status) (_ : ℕ) : Round := ⟨.answer (.verdict v), .denied⟩

theorem submitLoop_answersAtOnce (v : Status) {n : ℕ} (hn : 0 < n) :
    submitLoop (answersAtOnce v) n 0 .busy = some (.verdict v) := by
  obtain ⟨n, rfl⟩ := Nat.exists_eq_succ_of_ne_zero (Nat.ne_of_gt hn)
  rw [submitLoop, if_pos rfl]
  cases n with
  | zero => rfl
  | succ n => rfl

/-- With such a scanner a call is a run of one client, to the same table and answer. -/
theorem monitorSubmitHash_refines (V : ProcessData Page Id → Status) {s : CacheState Page Id}
    {rest : List (ClientPc Page Id)} (hc : s.clients = .idle :: rest) (d : ProcessData Page Id)
    {arg1 : ℤ} (harg : 0 ≤ arg1) :
    ∃ as t v, Lts.run (cacheStep V) s as = some t ∧ t.clients = s.clients ∧
      t.answers = s.answers ++ [(d, v)] ∧
      monitorSubmitHash (s.table.map HashClass.lift) ⟨d, arg1, answersAtOnce (V d)⟩ =
        (t.table.map HashClass.lift, some (.verdict v)) := by
  obtain ⟨table, clients, answers⟩ := s
  obtain rfl := hc
  have hneg : ¬arg1 < 0 := by omega
  have hrounds : 0 < submitRounds arg1 := by
    unfold submitRounds repeatsIfConnDenied
    omega
  rw [monitorSubmitHash, if_neg hneg]
  cases hp : d.pageList.getLast? with
  | none =>
    refine ⟨[.submit 0 d], ⟨table, .idle :: rest, answers ++ [(d, .good)]⟩, .good, ?_, rfl, rfl,
      rfl⟩
    simp [Lts.run_cons, cacheStep, CacheState.answer, hp]
  | some page =>
    dsimp only
    rw [searchHashList_lift]
    cases hs : searchHashList table (d.hashClass page) with
    | some status =>
      refine ⟨[.submit 0 d, .search 0], ⟨table, .idle :: rest, answers ++ [(d, status)]⟩, status,
        ?_, rfl, rfl, rfl⟩
      simp [Lts.run_cons, cacheStep, CacheState.move, CacheState.answer, hp, hs]
    | none =>
      refine ⟨submitAlone d, _, V d, run_submitAlone_full rfl hp hs, rfl, rfl, ?_⟩
      rw [Option.map_none, submitLoop_answersAtOnce (V d) hrounds]
      dsimp only
      rw [masterCleanUp_lift, ← appendList_lift]
      rfl

end Maitland
