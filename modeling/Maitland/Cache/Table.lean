import Maitland.Library.Fifo

/-!
# The verdict table

`ClientSideHashTableClass` of service_client_control.py: one list of scanned
pages behind remote calls that exclude each other.  The methods work on the list
and on the size limit of the module, not on the class attributes of the same names.
-/

namespace Maitland

/-- The verdicts `"g"` and `"b"`. -/
inductive Status where
  | good
  | bad
  deriving DecidableEq

/-- `HashClass` of serviceHash.py, less the list `data`, which stays empty. -/
structure HashClass (Page Id : Type*) (St : Type := Status) where
  hashKey : Page
  id0 : Id
  id1 : Id
  id2 : Id
  /-- `"b"` until a result is known. -/
  status : St
  deriving DecidableEq

variable {Page Id : Type*} {St : Type}

/-- What `searchHashList` compares: every identifier but `id0`. -/
def HashClass.key (x : HashClass Page Id St) : Page × Id × Id := (x.hashKey, x.id1, x.id2)

abbrev HashTable (Page Id : Type*) (St : Type := Status) := List (HashClass Page Id St)

def localHashTableMaxSize : ℕ := 100

section Methods

variable [DecidableEq Page] [DecidableEq Id]

/-- The index runs down from the last entry.  `none` is the answer `[0, ...]`. -/
def searchHashList (l : HashTable Page Id St) (x : HashClass Page Id St) : Option St :=
  (l.reverse.find? fun e => x.hashKey = e.hashKey ∧ x.id1 = e.id1 ∧ x.id2 = e.id2).map
    HashClass.status

/-- `thisList.remove(thisList[0])` takes the first entry that is the first entry. -/
def cleanup : HashTable Page Id St → HashTable Page Id St
  | [] => []
  | _ :: rest => rest

def masterCleanUp (l : HashTable Page Id St) : HashTable Page Id St :=
  if localHashTableMaxSize ≤ l.length then cleanup l else l

def appendList (l : HashTable Page Id St) (x : HashClass Page Id St) : HashTable Page Id St :=
  match searchHashList l x with
  | some _ => l
  | none => l ++ [x]

theorem searchHashList_eq_none_iff {l : HashTable Page Id St} {x : HashClass Page Id St} :
    searchHashList l x = none ↔ ∀ e ∈ l, e.key ≠ x.key := by
  simp only [searchHashList, Option.map_eq_none_iff, List.find?_eq_none, List.mem_reverse,
    decide_eq_true_eq, HashClass.key, ne_eq, Prod.mk.injEq]
  refine forall₂_congr fun e _ => not_congr ?_
  simp only [@eq_comm _ x.hashKey, @eq_comm _ x.id1, @eq_comm _ x.id2]

/-- What is found is the status of an entry with the key. -/
theorem exists_of_searchHashList {l : HashTable Page Id St} {x : HashClass Page Id St} {st : St}
    (h : searchHashList l x = some st) : ∃ e ∈ l, e.key = x.key ∧ e.status = st := by
  obtain ⟨e, he, rfl⟩ := Option.map_eq_some_iff.mp h
  have hm := List.find?_some he
  simp only [decide_eq_true_eq] at hm
  obtain ⟨hk, h1, h2⟩ := hm
  refine ⟨e, List.mem_reverse.mp (List.mem_of_find?_eq_some he), ?_, rfl⟩
  rw [HashClass.key, HashClass.key, hk, h1, h2]

theorem searchHashList_eq_some_iff {l : HashTable Page Id St} (hl : Fifo.Unique HashClass.key l)
    {x : HashClass Page Id St} {st : St} :
    searchHashList l x = some st ↔ ∃ e ∈ l, e.key = x.key ∧ e.status = st := by
  refine ⟨exists_of_searchHashList, ?_⟩
  rintro ⟨e, he, hk, rfl⟩
  cases hs : searchHashList l x with
  | none => exact absurd hk (searchHashList_eq_none_iff.mp hs e he)
  | some st =>
    obtain ⟨f, hf, hkf, rfl⟩ := exists_of_searchHashList hs
    rw [hl.eq_of_key hf he (hkf.trans hk.symm)]

theorem appendList_of_none {l : HashTable Page Id St} {x : HashClass Page Id St}
    (h : searchHashList l x = none) : appendList l x = l ++ [x] := by
  rw [appendList, h]

theorem appendList_of_some {l : HashTable Page Id St} {x : HashClass Page Id St} {st : St}
    (h : searchHashList l x = some st) : appendList l x = l := by
  rw [appendList, h]

omit [DecidableEq Page] [DecidableEq Id] in
theorem length_masterCleanUp (l : HashTable Page Id St) :
    (masterCleanUp l).length = if localHashTableMaxSize ≤ l.length then l.length - 1
      else l.length := by
  rw [masterCleanUp]
  split
  · cases l <;> simp [cleanup]
  · rfl

omit [DecidableEq Page] [DecidableEq Id] in
theorem mem_masterCleanUp {l : HashTable Page Id St} {e : HashClass Page Id St}
    (h : e ∈ masterCleanUp l) : e ∈ l := by
  rw [masterCleanUp] at h
  split at h
  · cases l with
    | nil => exact h
    | cons x rest => exact List.mem_cons_of_mem x h
  · exact h

theorem mem_appendList {l : HashTable Page Id St} {x e : HashClass Page Id St}
    (h : e ∈ appendList l x) : e ∈ l ∨ e = x := by
  rw [appendList] at h
  split at h
  · exact .inl h
  · exact (List.mem_append.mp h).imp id List.mem_singleton.mp

theorem length_appendList (l : HashTable Page Id St) (x : HashClass Page Id St) :
    (appendList l x).length = if searchHashList l x = none then l.length + 1 else l.length := by
  cases h : searchHashList l x with
  | none => simp [appendList_of_none h]
  | some st => simp [appendList_of_some h]

/-- A remote call of some client. -/
inductive TableCall (Page Id : Type*) (St : Type := Status) where
  | searchHashList (x : HashClass Page Id St)
  | masterCleanUp
  | appendList (x : HashClass Page Id St)

/-- The table with a log of the entries that came and went. -/
structure TableState (Page Id : Type*) (St : Type := Status) where
  table : HashTable Page Id St
  log : List (Fifo.Event (HashClass Page Id St))

def tableStep (s : TableState Page Id St) :
    TableCall Page Id St → Option (TableState Page Id St)
  | .searchHashList _ => some s
  | .masterCleanUp => some
    { table := masterCleanUp s.table
      log := if localHashTableMaxSize ≤ s.table.length then
        s.log ++ (s.table.take 1).map .evicted else s.log }
  | .appendList x => some
    { table := appendList s.table x
      log := match searchHashList s.table x with
        | some _ => s.log
        | none => s.log ++ [.inserted x] }

def tableStart : TableState Page Id St := ⟨[], []⟩

theorem tableStep_logged {s t : TableState Page Id St} {a : TableCall Page Id St}
    (h : Fifo.Logged HashClass.key s.log s.table) (ht : tableStep s a = some t) :
    Fifo.Logged HashClass.key t.log t.table := by
  cases a with
  | searchHashList x =>
    cases ht
    exact h
  | masterCleanUp =>
    cases ht
    simp only [masterCleanUp]
    by_cases hfull : localHashTableMaxSize ≤ s.table.length
    · rw [if_pos hfull, if_pos hfull]
      cases hl : s.table with
      | nil => simpa [hl, cleanup] using h
      | cons e rest =>
        rw [hl] at h
        exact h.evict
    · rwa [if_neg hfull, if_neg hfull]
  | appendList x =>
    cases ht
    cases hs : searchHashList s.table x with
    | some st => simpa only [appendList_of_some hs] using h
    | none =>
      simp only [appendList_of_none hs]
      exact h.insert (searchHashList_eq_none_iff.mp hs)

theorem table_logged {as : List (TableCall Page Id St)} {s : TableState Page Id St}
    (hr : Lts.run tableStep tableStart as = some s) :
    Fifo.Logged HashClass.key s.log s.table :=
  Lts.invariant (fun _ _ _ h ht => tableStep_logged h ht) hr Fifo.Logged.nil

/-- Over every sequence of calls: no two entries share a key, a search finds exactly
the entry that was inserted under the key and not evicted since, with the status of
that insertion, a later `appendList` under the key changes nothing, and entries go out
in the order they came in. -/
theorem verdict_table_invariant (as : List (TableCall Page Id St)) (s : TableState Page Id St)
    (hr : Lts.run tableStep tableStart as = some s) :
    (s.table.map HashClass.key).Nodup ∧
    (∀ x st, searchHashList s.table x = some st ↔
      ∃ e, Fifo.Present HashClass.key s.log e ∧ e.key = x.key ∧ e.status = st) ∧
    (∀ x st, searchHashList s.table x = some st →
      ∀ y, y.key = x.key → appendList s.table y = s.table) ∧
    Fifo.evictions s.log <+: Fifo.insertions s.log := by
  have h := table_logged hr
  refine ⟨h.unique, fun x st => ?_, fun x st hs y hy => ?_, ?_⟩
  · rw [searchHashList_eq_some_iff h.unique]
    simp only [h.mem]
  · have hsy : searchHashList s.table y = some st := by
      rw [searchHashList_eq_some_iff h.unique] at hs ⊢
      rwa [hy]
    exact appendList_of_some hsy
  · rw [h.order]
    exact List.prefix_append _ _

end Methods

/-- Page 1 of domain 2 is found good, and another process is scanned with the same page. -/
def pageScannedTwice : List (TableCall ℕ ℕ) :=
  [.masterCleanUp, .appendList ⟨1, 7, 0, 2, .good⟩, .searchHashList ⟨1, 8, 0, 2, .bad⟩,
    .masterCleanUp, .appendList ⟨1, 8, 0, 2, .bad⟩]

theorem verdict_table_invariant_pageScannedTwice :
    ∃ s, Lts.run tableStep tableStart pageScannedTwice = some s ∧
      searchHashList s.table ⟨1, 9, 0, 2, .bad⟩ = some .good ∧
      ∃ e, Fifo.Present HashClass.key s.log e ∧ e.key = (1, 0, 2) ∧ e.status = .good :=
  ⟨_, rfl, by decide, ((verdict_table_invariant pageScannedTwice _ rfl).2.1
    ⟨1, 9, 0, 2, .bad⟩ .good).mp (by decide)⟩

end Maitland
