import Maitland.Cache.Client
import Mathlib.Data.Set.Basic

/-!
# Answers and size of the verdict table

What any number of clients get out of the table when their remote calls come in
any order, and how far the table can grow.
-/

namespace Maitland

variable {Page Id : Type*}

/-- On the data `D` the scanner finds nothing in an empty page list and goes by the key
alone. -/
structure GoesByKey (V : ProcessData Page Id → Status) (D : Set (ProcessData Page Id)) : Prop where
  empty : ∀ d ∈ D, d.pageList = [] → V d = .good
  congr : ∀ d ∈ D, ∀ d' ∈ D, d.key = d'.key → V d = V d'

/-- The client works on data of `D` and has the scanner's result once it has one. -/
def ClientPc.Sound (V : ProcessData Page Id → Status) (D : Set (ProcessData Page Id)) :
    ClientPc Page Id → Prop
  | .idle => True
  | .search d x | .scan d x => d ∈ D ∧ d.key = some x.key
  | .clean d x result => d ∈ D ∧ d.key = some x.key ∧ result = V d
  | .append d x result => d ∈ D ∧ d.key = some x.key ∧ result = V d ∧ x.status = V d

/-- Every entry is the scanner's result on data with its key. -/
structure CacheState.Sound (V : ProcessData Page Id → Status) (D : Set (ProcessData Page Id))
    (s : CacheState Page Id) : Prop where
  table : ∀ e ∈ s.table, ∃ d ∈ D, d.key = some e.key ∧ e.status = V d
  clients : ∀ pc ∈ s.clients, pc.Sound V D
  answers : ∀ p ∈ s.answers, p.2 = V p.1

namespace CacheState.Sound

variable {V : ProcessData Page Id → Status} {D : Set (ProcessData Page Id)}
  {s : CacheState Page Id}

theorem start (n : ℕ) : (cacheStart n).Sound V D where
  table e he := by cases he
  clients pc hpc := by
    rw [List.eq_of_mem_replicate hpc]
    trivial
  answers p hp := by cases hp

theorem client (h : s.Sound V D) {c : ℕ} {pc : ClientPc Page Id} (hc : s.clients[c]? = some pc) :
    pc.Sound V D :=
  h.clients pc (List.mem_of_getElem? hc)

theorem move (h : s.Sound V D) {pc : ClientPc Page Id} (hpc : pc.Sound V D) (c : ℕ) :
    (s.move c pc).Sound V D :=
  ⟨h.table, Lts.forall_mem_set h.clients hpc c, h.answers⟩

theorem answer (h : s.Sound V D) {d : ProcessData Page Id} {result : Status}
    (hr : result = V d) (c : ℕ) : (s.answer c d result).Sound V D := by
  refine ⟨h.table, Lts.forall_mem_set (y := .idle) h.clients trivial c, fun p hp => ?_⟩
  rcases List.mem_append.mp hp with hp | hp
  · exact h.answers p hp
  · rw [List.mem_singleton.mp hp]
    exact hr

end CacheState.Sound

variable [DecidableEq Page] [DecidableEq Id] (V : ProcessData Page Id → Status)

/-- What a step does, one case for each way through `monitorSubmitHash`. -/
inductive CacheTaken (s : CacheState Page Id) : CacheAct Page Id → CacheState Page Id → Prop
  | noPages {c d} : s.clients[c]? = some .idle → d.pageList = [] →
      CacheTaken s (.submit c d) (s.answer c d .good)
  | begin {c d page} : s.clients[c]? = some .idle → d.pageList.getLast? = some page →
      CacheTaken s (.submit c d) (s.move c (.search d (d.hashClass page)))
  | hit {c d x status} : s.clients[c]? = some (.search d x) →
      searchHashList s.table x = some status → CacheTaken s (.search c) (s.answer c d status)
  | miss {c d x} : s.clients[c]? = some (.search d x) →
      searchHashList s.table x = none → CacheTaken s (.search c) (s.move c (.scan d x))
  | scan {c d x} : s.clients[c]? = some (.scan d x) →
      CacheTaken s (.scan c) (s.move c (.clean d x (V d)))
  | clean {c d x result} : s.clients[c]? = some (.clean d x result) →
      CacheTaken s (.clean c) { s.move c (.append d { x with status := result } result) with
        table := masterCleanUp s.table }
  | append {c d x result} : s.clients[c]? = some (.append d x result) →
      CacheTaken s (.append c) { s.answer c d result with table := appendList s.table x }

variable {V} {s t : CacheState Page Id} {a : CacheAct Page Id}

theorem cacheStep_taken (h : cacheStep V s a = some t) : CacheTaken V s a t := by
  cases a with
  | submit c d =>
    simp only [cacheStep] at h
    split at h
    · next hc =>
      split at h
      · next page hp =>
        cases h
        exact .begin hc hp
      · next hp =>
        cases h
        exact .noPages hc (List.getLast?_eq_none_iff.mp hp)
    · cases h
  | search c =>
    simp only [cacheStep] at h
    split at h
    · next d x hc =>
      split at h
      · next status hs =>
        cases h
        exact .hit hc hs
      · next hs =>
        cases h
        exact .miss hc hs
    · cases h
  | scan c =>
    simp only [cacheStep] at h
    split at h
    · next d x hc =>
      cases h
      exact .scan hc
    · cases h
  | clean c =>
    simp only [cacheStep] at h
    split at h
    · next d x result hc =>
      cases h
      exact .clean hc
    · cases h
  | append c =>
    simp only [cacheStep] at h
    split at h
    · next d x result hc =>
      cases h
      exact .append hc
    · cases h

/-- A step of a client is at most one remote call on the table. -/
theorem cacheStep_tableCalls (ht : cacheStep V s a = some t) :
    ∃ calls, ∀ log, ∃ u, Lts.run tableStep ⟨s.table, log⟩ calls = some u ∧ u.table = t.table := by
  cases cacheStep_taken ht with
  | noPages _ _ | begin _ _ | scan _ => exact ⟨[], fun log => ⟨_, rfl, rfl⟩⟩
  | @hit _ _ x _ _ _ | @miss _ _ x _ _ => exact ⟨[.searchHashList x], fun log => ⟨_, rfl, rfl⟩⟩
  | clean _ => exact ⟨[.masterCleanUp], fun log => ⟨_, rfl, rfl⟩⟩
  | @append _ _ x _ _ => exact ⟨[.appendList x], fun log => ⟨_, rfl, rfl⟩⟩

/-- What the clients do to the table is a run of its calls, so what holds of all of those
holds here. -/
theorem clients_table_logged {n : ℕ} {as : List (CacheAct Page Id)}
    (hr : Lts.run (cacheStep V) (cacheStart n) as = some s) :
    ∃ log, Fifo.Logged HashClass.key log s.table := by
  refine @Lts.invariant _ _ _ (fun s => ∃ log, Fifo.Logged HashClass.key log s.table) ?_ _ _ _ hr
    ⟨[], Fifo.Logged.nil⟩
  rintro s a t ⟨log, h⟩ ht
  obtain ⟨calls, hcalls⟩ := cacheStep_tableCalls ht
  obtain ⟨u, hu, htable⟩ := hcalls log
  refine ⟨u.log, htable ▸ ?_⟩
  exact Lts.invariant (fun _ _ _ h ht => tableStep_logged h ht) hu h

theorem CacheState.Sound.step {D : Set (ProcessData Page Id)} (hV : GoesByKey V D)
    (h : s.Sound V D) (ht : cacheStep V s a = some t) (ha : ∀ c d, a = .submit c d → d ∈ D) :
    t.Sound V D := by
  cases cacheStep_taken ht with
  | noPages _ hp => exact h.answer (hV.empty _ (ha _ _ rfl) hp).symm _
  | begin _ hp =>
    refine h.move ?_ _
    refine ⟨ha _ _ rfl, ?_⟩
    rw [ProcessData.key, hp]
    rfl
  | hit hc hs =>
    obtain ⟨hd, hk⟩ := h.client hc
    obtain ⟨e, he, hke, rfl⟩ := exists_of_searchHashList hs
    obtain ⟨d', hd', hkd', hst⟩ := h.table e he
    refine h.answer ?_ _
    rw [hst]
    exact hV.congr d' hd' _ hd (by rw [hkd', hk, hke])
  | @miss c d x hc _ =>
    have hsearch := h.client hc
    have hpc : (ClientPc.scan d x).Sound V D := hsearch
    exact h.move hpc c
  | @scan c d x hc =>
    obtain ⟨hd, hk⟩ := h.client hc
    have hpc : (ClientPc.clean d x (V d)).Sound V D := ⟨hd, hk, rfl⟩
    exact h.move hpc c
  | @clean c d x result hc =>
    obtain ⟨hd, hk, hr⟩ := h.client hc
    have hpc : (ClientPc.append d { x with status := result } result).Sound V D :=
      ⟨hd, hk, hr, hr⟩
    have hm := h.move hpc c
    exact ⟨fun e he => h.table e (mem_masterCleanUp he), hm.clients, hm.answers⟩
  | @append c d x result hc =>
    obtain ⟨hd, hk, hr, hst⟩ := h.client hc
    have hm := h.answer hr c
    refine ⟨fun e he => ?_, hm.clients, hm.answers⟩
    rcases mem_appendList he with he | rfl
    · exact h.table e he
    · exact ⟨_, hd, hk, hst⟩

/-- The calls of one client alone on data that is not in the table. -/
def submitAlone (d : ProcessData Page Id) : List (CacheAct Page Id) :=
  [.submit 0 d, .search 0, .scan 0, .clean 0, .append 0]

/-- A call on data that is not found. -/
theorem run_submitAlone_full {rest : List (ClientPc Page Id)} (hc : s.clients = .idle :: rest)
    {d : ProcessData Page Id} {page : Page} (hp : d.pageList.getLast? = some page)
    (hmiss : searchHashList s.table (d.hashClass page) = none) :
    Lts.run (cacheStep V) s (submitAlone d) = some ⟨appendList (masterCleanUp s.table)
      { d.hashClass page with status := V d }, s.clients, s.answers ++ [(d, V d)]⟩ := by
  obtain ⟨table, clients, answers⟩ := s
  obtain rfl := hc
  simp [submitAlone, Lts.run_cons, cacheStep, CacheState.move, CacheState.answer, hp, hmiss]

/-- With room in the table nothing goes out. -/
theorem run_submitAlone {rest : List (ClientPc Page Id)} (hc : s.clients = .idle :: rest)
    {d : ProcessData Page Id} {page : Page} (hp : d.pageList.getLast? = some page)
    (hmiss : searchHashList s.table (d.hashClass page) = none)
    (hroom : s.table.length < localHashTableMaxSize) :
    Lts.run (cacheStep V) s (submitAlone d) = some ⟨s.table ++
      [{ d.hashClass page with status := V d }], s.clients, s.answers ++ [(d, V d)]⟩ := by
  have hclean : masterCleanUp s.table = s.table := if_neg (Nat.not_le.mpr hroom)
  have happend : appendList s.table { d.hashClass page with status := V d } =
      s.table ++ [{ d.hashClass page with status := V d }] := appendList_of_none hmiss
  rw [run_submitAlone_full hc hp hmiss, hclean, happend]

/-- The client that put the verdict on `d` into the table gets it for `d'`. -/
theorem run_two_submissions {d d' : ProcessData Page Id} {k : Page × Id × Id}
    (hd : d.key = some k) (hd' : d'.key = some k) :
    ∃ s, Lts.run (cacheStep V) (cacheStart 1) (submitAlone d ++ [.submit 0 d', .search 0]) =
      some s ∧ (d', V d) ∈ s.answers := by
  obtain ⟨page, hp, rfl⟩ := Option.map_eq_some_iff.mp hd
  obtain ⟨page', hp', hk⟩ := Option.map_eq_some_iff.mp hd'
  let x : HashClass Page Id := { d.hashClass page with status := V d }
  have hfirst : Lts.run (cacheStep V) (cacheStart 1) (submitAlone d) =
      some ⟨[x], [.idle], [(d, V d)]⟩ := run_submitAlone rfl hp rfl (Nat.succ_pos _)
  have hfound : searchHashList [x] (d'.hashClass page') = some (V d) := by
    have hu : Fifo.Unique HashClass.key [x] := List.nodup_singleton _
    exact (searchHashList_eq_some_iff hu).mpr ⟨x, by simp, hk.symm, rfl⟩
  refine ⟨⟨[x], [.idle], [(d, V d), (d', V d)]⟩, ?_, by simp⟩
  rw [Lts.run_append, hfirst]
  simp [Lts.run_cons, cacheStep, CacheState.move, CacheState.answer, hp', hfound]

/-- Every call returns the scanner's verdict, for any number of clients and in every
order of their calls, exactly when the scanner goes by the key on what is submitted. -/
theorem cache_agrees_iff (V : ProcessData Page Id → Status) (D : Set (ProcessData Page Id)) :
    (∀ n as s, (∀ c d, CacheAct.submit c d ∈ as → d ∈ D) →
      Lts.run (cacheStep V) (cacheStart n) as = some s → ∀ p ∈ s.answers, p.2 = V p.1) ↔
      GoesByKey V D := by
  constructor
  · intro h
    have empty : ∀ d ∈ D, d.pageList = [] → V d = .good := by
      intro d hd hp
      have hr : Lts.run (cacheStep V) (cacheStart 1) [.submit 0 d] =
          some ⟨[], [.idle], [(d, .good)]⟩ := by
        rw [Lts.run_cons, cacheStep, hp]
        rfl
      exact (h 1 _ _ (by simp [hd]) hr (d, .good) (by simp)).symm
    refine ⟨empty, fun d hd d' hd' hk => ?_⟩
    cases hkey : d.key with
    | none =>
      have hp : ∀ e : ProcessData Page Id, e.key = none → e.pageList = [] := by
        intro e he
        exact List.getLast?_eq_none_iff.mp (Option.map_eq_none_iff.mp he)
      rw [empty d hd (hp d hkey), empty d' hd' (hp d' (hk ▸ hkey))]
    | some k =>
      obtain ⟨s, hs, hmem⟩ := run_two_submissions (V := V) hkey (hk ▸ hkey)
      refine h 1 _ s ?_ hs (d', V d) hmem
      intro c e he
      simp only [submitAlone, List.mem_append, List.mem_cons, CacheAct.submit.injEq, reduceCtorEq,
        List.not_mem_nil, or_false] at he
      rcases he with ⟨_, rfl⟩ | ⟨_, rfl⟩
      · exact hd
      · exact hd'
  · intro hV n as s has hr
    have hc : Lts.Along (cacheStep V) (fun _ a _ => ∀ c d, a = .submit c d → d ∈ D)
        (cacheStart n) as := by
      refine Lts.Along.of_mem ?_ _
      intro a ha _ _ c d hd
      exact has c d (hd ▸ ha)
    exact (Lts.Along.invariant (fun _ _ _ h ht ha => h.step hV ht ha) hc hr
      (CacheState.Sound.start n)).answers

/-- A scanner that finds page 13 bad. -/
def findsThirteen (d : ProcessData ℕ ℕ) : Status := if 13 ∈ d.pageList then .bad else .good

/-- A process with page 13 shares its last page with one that was found good. -/
theorem shared_page_hides_a_bad_one :
    (Lts.run (cacheStep findsThirteen) (cacheStart 1)
      (submitAlone ⟨[1, 2], 7, 0, 3⟩ ++ [.submit 0 ⟨[13, 2], 8, 0, 3⟩, .search 0])).map
        CacheState.answers = some [(⟨[1, 2], 7, 0, 3⟩, .good), (⟨[13, 2], 8, 0, 3⟩, .good)] ∧
    findsThirteen ⟨[13, 2], 8, 0, 3⟩ = .bad := by
  decide

-- ════════════════════════════════════════════════════════════════════════
-- Size
-- ════════════════════════════════════════════════════════════════════════

/-- The client has made room and not yet inserted. -/
def ClientPc.isBetween : ClientPc Page Id → Bool
  | .append .. => true
  | _ => false

/-- How many clients are between their `masterCleanUp` and their `appendList`. -/
def CacheState.between (s : CacheState Page Id) : ℕ := s.clients.countP ClientPc.isBetween

def CacheState.WithinLimit (s : CacheState Page Id) : Prop :=
  s.table.length ≤ localHashTableMaxSize

/-- An `appendList` that inserts finds the table below its limit. -/
def InsertsBelowLimit (s : CacheState Page Id) (a : CacheAct Page Id) (_ : CacheState Page Id) :
    Prop :=
  match a with
  | .append c => ∀ d x result, s.clients[c]? = some (.append d x result) →
      searchHashList s.table x = none → s.table.length < localHashTableMaxSize
  | _ => True

/-- The table and the clients about to insert: only the last two calls touch them. -/
theorem cacheStep_counts (ht : cacheStep V s a = some t) :
    ((∀ c, a ≠ .append c) ∧ t.table = s.table ∧ t.between = s.between) ∨
    (∃ c, a = .clean c ∧ t.table = masterCleanUp s.table ∧ t.between = s.between + 1) ∨
    ∃ c d x result, a = .append c ∧ s.clients[c]? = some (.append d x result) ∧
      t.table = appendList s.table x ∧ t.between + 1 = s.between := by
  have moved {c : ℕ} {pc : ClientPc Page Id} (hc : s.clients[c]? = some pc)
      (pc' : ClientPc Page Id) := Lts.countP_move hc ClientPc.isBetween pc'
  cases cacheStep_taken ht with
  | noPages hc _ | begin hc _ | hit hc _ | miss hc _ | scan hc =>
    exact .inl ⟨fun _ => nofun, rfl, moved hc _⟩
  | clean hc => exact .inr (.inl ⟨_, rfl, rfl, moved hc _⟩)
  | append hc => exact .inr (.inr ⟨_, _, _, _, rfl, hc, rfl, moved hc _⟩)

/-- The entries and those the clients are about to add, for `N` clients that may be. -/
def CacheState.Fits (N : ℕ) (s : CacheState Page Id) : Prop :=
  s.table.length + s.between < localHashTableMaxSize + N

omit [DecidableEq Page] [DecidableEq Id] in
theorem CacheState.Fits.start (N n : ℕ) : (cacheStart n : CacheState Page Id).Fits N := by
  have hnone : (cacheStart n : CacheState Page Id).between = 0 := by
    simp [cacheStart, CacheState.between, List.countP_replicate, ClientPc.isBetween]
  have hmax : 0 < localHashTableMaxSize := by decide
  rw [CacheState.Fits, hnone]
  exact Nat.lt_add_right N hmax

theorem CacheState.Fits.step {N : ℕ} (h : s.Fits N) (ht : cacheStep V s a = some t)
    (hN : t.between ≤ N) : t.Fits N := by
  unfold CacheState.Fits at *
  have hmax : localHashTableMaxSize = 100 := rfl
  rcases cacheStep_counts ht with ⟨_, hl, hb⟩ | ⟨c, _, hl, hb⟩ | ⟨c, d, x, result, _, _, hl, hb⟩
  · rwa [hl, hb]
  · rw [hl, length_masterCleanUp]
    split <;> omega
  · rw [hl, length_appendList]
    split <;> omega

/-- While the table is within its limit, only an insertion at the limit leaves it. -/
theorem cacheStep_withinLimit_iff (ht : cacheStep V s a = some t)
    (h : s.WithinLimit) : t.WithinLimit ↔ InsertsBelowLimit s a t := by
  unfold CacheState.WithinLimit at *
  rcases cacheStep_counts ht with ⟨hne, hl, _⟩ | ⟨c, rfl, hl, _⟩ | ⟨c, d, x, result, rfl, hc, hl, _⟩
  · rw [hl]
    refine iff_of_true h ?_
    cases a with
    | append c => exact absurd rfl (hne c)
    | _ => trivial
  · refine iff_of_true ?_ trivial
    rw [hl, length_masterCleanUp]
    split <;> omega
  · rw [hl, length_appendList]
    constructor
    · intro hle d' x' result' hc' hs
      rw [hc, Option.some.injEq, ClientPc.append.injEq] at hc'
      obtain ⟨_, rfl, _⟩ := hc'
      rwa [if_pos hs] at hle
    · intro hroom
      split
      · next hs => exact hroom d x result hc hs
      · exact h

/-- The table stays within its limit in exactly the runs in which no client inserts at the
limit, and with at most `N` clients at a time between `masterCleanUp` and `appendList`
it holds less than `N` entries more than its limit. -/
theorem cache_size_bounded_iff (V : ProcessData Page Id → Status) (n : ℕ)
    (as : List (CacheAct Page Id)) :
    (Lts.Along (cacheStep V) (fun _ _ t => t.WithinLimit) (cacheStart n) as ↔
      Lts.Along (cacheStep V) InsertsBelowLimit (cacheStart n) as) ∧
    ∀ N, Lts.Along (cacheStep V) (fun _ _ t => t.between ≤ N) (cacheStart n) as →
      Lts.Along (cacheStep V) (fun _ _ t => t.table.length < localHashTableMaxSize + N)
        (cacheStart n) as := by
  constructor
  · have hstart : (cacheStart n : CacheState Page Id).WithinLimit := Nat.zero_le _
    refine Lts.along_iff ?_ ?_ hstart as
    · exact fun _ _ _ h ht => cacheStep_withinLimit_iff ht h
    · exact fun _ _ _ h ht hc => (cacheStep_withinLimit_iff ht h).mpr hc
  · intro N hN
    refine Lts.Along.of_invariant ?_ (CacheState.Fits.start N n) hN
    intro s a t h ht hc
    have ht := h.step ht hc
    exact ⟨Nat.lt_of_le_of_lt (Nat.le_add_right _ _) ht, ht⟩

/-- A process with the one page `k`. -/
def onePageProcess (k : ℕ) : ProcessData ℕ ℕ := ⟨[k], 7, 0, 3⟩

/-- Ninety-nine pages are in the table when two clients make room side by side. -/
def sideBySide : List (CacheAct ℕ ℕ) :=
  (List.range 99).flatMap (fun k => submitAlone (onePageProcess k)) ++
    [.submit 0 (onePageProcess 99), .submit 1 (onePageProcess 100), .search 0, .search 1,
      .scan 0, .scan 1, .clean 0, .clean 1, .append 0, .append 1]

/-- The entry of a page that was found good. -/
def goodEntry (k : ℕ) : HashClass ℕ ℕ := ⟨k, 7, 0, 3, .good⟩

/-- The first `k` pages one after the other fill the table. -/
theorem run_onePageProcesses {k : ℕ} (hk : k ≤ localHashTableMaxSize) :
    Lts.run (cacheStep fun _ => .good) (cacheStart 2)
      ((List.range k).flatMap fun i => submitAlone (onePageProcess i)) =
        some ⟨(List.range k).map goodEntry, [.idle, .idle],
          (List.range k).map fun i => (onePageProcess i, .good)⟩ := by
  induction k with
  | zero => rfl
  | succ k ih =>
    rw [List.range_succ, List.flatMap_append, Lts.run_append, ih (Nat.le_of_succ_le hk),
      Option.bind_some, List.flatMap_singleton]
    have hmiss : searchHashList ((List.range k).map goodEntry) ((onePageProcess k).hashClass k) =
        none := by
      rw [searchHashList_eq_none_iff]
      intro e he
      obtain ⟨i, hi, rfl⟩ := List.mem_map.mp he
      have hlt := List.mem_range.mp hi
      simp only [HashClass.key, goodEntry, onePageProcess, ProcessData.hashClass, ne_eq,
        Prod.mk.injEq]
      omega
    have hroom : ((List.range k).map goodEntry).length < localHashTableMaxSize := by
      rw [List.length_map, List.length_range]
      exact hk
    rw [run_submitAlone rfl rfl hmiss hroom]
    simp [goodEntry, onePageProcess, ProcessData.hashClass]

theorem two_clients_pass_the_limit :
    (Lts.run (cacheStep fun _ => .good) (cacheStart 2) sideBySide).map
      (fun s => s.table.length) = some 101 := by
  rw [sideBySide, Lts.run_append, run_onePageProcesses (by decide), Option.bind_some]
  decide +kernel

end Maitland
