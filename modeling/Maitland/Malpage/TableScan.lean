import Maitland.Malpage.Walk

/-!
# The scan of the page tables

`pfnlist`, which `malpage_generate_report` called before `pfnlist_vmarea`: it goes through
the four levels of the page table of a task, entry by entry.
-/

namespace Maitland

open LinkedList

/-- What `pfnlist` asks of a page table entry. -/
structure ScanOps (Pte : Type) extends PteOps Pte where
  pteFile : Pte → Bool
  /-- `pfn_to_mfn(pte_pfn(pte))` -/
  pfnToMfn : Pte → BitVec 64

/-- An entry of one of the upper three levels, with the table that `pgd_page_vaddr`,
`pud_page_vaddr` or `pmd_page_vaddr` makes of it. -/
structure DirEntry (Table : Type) where
  present : Bool
  isNone : Bool
  bad : Bool
  table : Option Table

/-- `PTRS_PER_PGD`, `PTRS_PER_PUD`, `PTRS_PER_PMD` and `PTRS_PER_PTE`. -/
def ptrsPerTable : ℕ := 512

abbrev PmdTable (Pte : Type) := BitVec 9 → DirEntry (BitVec 9 → Pte)
abbrev PudTable (Pte : Type) := BitVec 9 → DirEntry (PmdTable Pte)
abbrev PgdTable (Pte : Type) := BitVec 9 → DirEntry (PudTable Pte)

/-- The locals of `pfnlist` that hold the list; `pfnTail` is `tmp_pfn_root`. -/
structure ScanState extends WalkState where
  rootExists : Bool

/-- What a round does with a frame. -/
def ScanState.add (kzalloc : Kzalloc) (st : ScanState) (tmp : BitVec 64) :
    Except NoResult ScanState :=
  if tmp = 0 then .ok st
  -- The frame is stored through what `kzalloc` returned.
  else if kzalloc st.heap.fresh sizeofPfnLlNode = false then .error .invalidPointer
  else if st.rootExists = false then
    .ok ⟨⟨st.heap.alloc tmp, some st.heap.fresh, some st.heap.fresh⟩, true⟩
  else do
    let tmpPfn := st.heap.fresh
    let heap ← storeNext (st.heap.alloc tmp) st.pfnTail (some tmpPfn)
    let node ← deref heap st.pfnTail
    .ok ⟨⟨heap, st.pfnRoot, node.next⟩, true⟩

/-- `for(count = 0; count < end && list; count++)` -/
def scanTable {α : Type} (body : ScanState → α → Except NoResult ScanState) (st : ScanState) :
    Option (BitVec 9 → α) → Except NoResult ScanState
  | none => .ok st
  | some list => (List.range ptrsPerTable).foldlM (fun st i => body st (list (BitVec.ofNat 9 i))) st

/-- A round of one of the upper three loops. -/
def scanDir {α : Type} (body : ScanState → α → Except NoResult ScanState) (st : ScanState)
    (entry : DirEntry (BitVec 9 → α)) : Except NoResult ScanState :=
  if !entry.present || entry.isNone || entry.bad then .ok st else scanTable body st entry.table

section Source

variable {Pte : Type} (ops : ScanOps Pte) (kzalloc : Kzalloc)

/-- A round of the innermost loop. -/
def scanPte (st : ScanState) (pte : Pte) : Except NoResult ScanState :=
  if !ops.ptePresent pte || ops.pteFile pte then .ok st
  else st.add kzalloc (ops.pfnToMfn pte)

/-- `pfnlist`; `mm` is `task->mm` with its `pgd`, and either may be NULL.  The locals
`pfn_root` and `tmp_pfn_root` hold what `st` says.  `none` is the error that is returned when
there is no table. -/
def pfnlist (rounds : ℕ) (mm : Option (Option (PgdTable Pte))) (uniq : BitVec 32)
    (st : WalkState) : Except NoResult (Option (PfnHeap × Option ℕ)) := do
  -- `tsk_mm->pgd` is read before the check of `tsk_mm`.
  match ← valid mm with
  | none => .ok none
  | some pgd => do
    let st ← scanTable (scanDir (scanDir (scanDir (scanPte ops kzalloc)))) ⟨st, false⟩ (some pgd)
    if 0 < uniq.toInt then do
      let (heap, _) ← pfnlistMkunique rounds st.heap st.pfnRoot
      .ok (some (heap, st.pfnRoot))
    else .ok (some (st.heap, st.pfnRoot))

end Source

/-- The entries of a table, in order. -/
def tableEntries {α : Type} : Option (BitVec 9 → α) → List α
  | none => []
  | some list => (List.range ptrsPerTable).map fun i => list (BitVec.ofNat 9 i)

/-- The entries below one that is scanned. -/
def DirEntry.below {α : Type} (entry : DirEntry (BitVec 9 → α)) : List α :=
  if !entry.present || entry.isNone || entry.bad then [] else tableEntries entry.table

theorem scanTable_eq {α : Type} (body : ScanState → α → Except NoResult ScanState)
    (st : ScanState) (table : Option (BitVec 9 → α)) :
    scanTable body st table = (tableEntries table).foldlM body st := by
  cases table with
  | none => rfl
  | some list => rw [scanTable, tableEntries, List.foldlM_map]

theorem scanDir_eq {α : Type} (body : ScanState → α → Except NoResult ScanState)
    (st : ScanState) (entry : DirEntry (BitVec 9 → α)) :
    scanDir body st entry = entry.below.foldlM body st := by
  rw [scanDir, DirEntry.below]
  by_cases hskip : (!entry.present || entry.isNone || entry.bad) = true
  · rw [if_pos hskip, if_pos hskip]
    rfl
  · rw [if_neg hskip, if_neg hskip, scanTable_eq]

/-- The entries of the last level that the scan comes to, in its order. -/
def PgdTable.ptes {Pte : Type} (pgd : PgdTable Pte) : List Pte :=
  (((tableEntries (some pgd)).flatMap DirEntry.below).flatMap DirEntry.below).flatMap
    DirEntry.below

variable {Pte : Type} (ops : ScanOps Pte)

/-- The frames that the scan lists, before duplicates are removed. -/
def scanned (pgd : PgdTable Pte) : List (BitVec 64) :=
  ((pgd.ptes.filter fun pte => ops.ptePresent pte && !ops.pteFile pte).map ops.pfnToMfn).filter
    (· ≠ 0)

theorem mem_scanned {pgd : PgdTable Pte} {mfn : BitVec 64} :
    mfn ∈ scanned ops pgd ↔ mfn ≠ 0 ∧
      ∃ pte ∈ pgd.ptes, ops.ptePresent pte ∧ ops.pteFile pte = false ∧ ops.pfnToMfn pte = mfn := by
  simp only [scanned, List.mem_filter, List.mem_map, decide_eq_true_eq, Bool.and_eq_true,
    Bool.not_eq_true', and_assoc, and_comm (a := mfn ≠ 0)]

theorem scanned_ne_zero {pgd : PgdTable Pte} : ∀ mfn ∈ scanned ops pgd, mfn ≠ 0 :=
  fun _ hmfn => ((mem_scanned ops).mp hmfn).1

theorem scanPtes_eq (kzalloc : Kzalloc) (ptes : List Pte) (st : ScanState) :
    ptes.foldlM (scanPte ops kzalloc) st =
      (((ptes.filter fun pte => ops.ptePresent pte && !ops.pteFile pte).map ops.pfnToMfn).filter
        (· ≠ 0)).foldlM (ScanState.add kzalloc) st := by
  induction ptes generalizing st with
  | nil => rfl
  | cons pte ptes ih =>
    rw [List.foldlM_cons, scanPte]
    by_cases hskip : (!ops.ptePresent pte || ops.pteFile pte) = true
    · rw [if_pos hskip, List.filter_cons_of_neg (by simpa [imp_iff_not_or] using hskip)]
      exact ih st
    · rw [if_neg hskip, List.filter_cons_of_pos (by simpa using hskip), List.map_cons]
      by_cases hzero : ops.pfnToMfn pte = 0
      · rw [List.filter_cons_of_neg (by simpa using hzero), ScanState.add, if_pos hzero]
        exact ih st
      · rw [List.filter_cons_of_pos (by simpa using hzero), List.foldlM_cons]
        exact congrArg (Except.bind _) (funext ih)

/-- The scan adds the frames one by one. -/
theorem scan_eq (kzalloc : Kzalloc) (pgd : PgdTable Pte) (st : ScanState) :
    scanTable (scanDir (scanDir (scanDir (scanPte ops kzalloc)))) st (some pgd) =
      (scanned ops pgd).foldlM (ScanState.add kzalloc) st := by
  have hdir : ∀ {α : Type} (body : ScanState → α → Except NoResult ScanState),
      scanDir body = fun st entry => entry.below.foldlM body st :=
    fun body => funext fun st => funext (scanDir_eq body st)
  rw [scanTable_eq, hdir, hdir, hdir, ← foldlM_flatMap, ← foldlM_flatMap, ← foldlM_flatMap]
  exact scanPtes_eq ops kzalloc pgd.ptes st

/-- The locals hold a list of these frames, the nodes at `a` and after it. -/
structure ScanState.Lists (st : ScanState) (nodes : List (ℕ × BitVec 64)) : Prop where
  list : Segment st.heap st.pfnRoot nodes none
  tail : ∀ x ∈ nodes.getLast?, st.pfnTail = some x.1
  rootExists : st.rootExists = true

variable {kzalloc : Kzalloc}

/-- A frame goes to the end of the list, in a new node. -/
theorem ScanState.Lists.add {st : ScanState} {nodes : List (ℕ × BitVec 64)}
    (hst : st.Lists nodes) (hnodes : nodes ≠ []) {mfn : BitVec 64} (hne : mfn ≠ 0)
    (hserved : kzalloc st.heap.fresh sizeofPfnLlNode = true) :
    ∃ st' : ScanState, st'.Lists (nodes ++ [(st.heap.fresh, mfn)]) ∧
      st'.heap.fresh = st.heap.fresh + 1 ∧ st.add kzalloc mfn = .ok st' := by
  obtain ⟨hs, htail, hroot⟩ := hst
  obtain ⟨xs, ⟨a, v⟩, rfl⟩ := (List.eq_nil_or_concat nodes).resolve_left hnodes
  rw [List.concat_eq_append] at hs htail ⊢
  obtain ⟨h₁, hset, hs₁, hfresh, -⟩ := hs.snoc mfn
  have ha : st.pfnTail = some a := htail (a, v) (by simp)
  have hstore : storeNext (st.heap.alloc mfn) st.pfnTail (some st.heap.fresh) = .ok h₁ := by
    rw [storeNext, ha, Option.bind_some, hset, valid]
  -- The link of the old tail leads to the new node.
  have hcell : h₁.cells a = some ⟨v, some st.heap.fresh⟩ := by
    obtain ⟨p, hp, hrest⟩ := segment_append.mp hs₁
    obtain ⟨rfl, hnew⟩ := segment_singleton.mp hrest
    exact (segment_singleton.mp (segment_append.mp hp).choose_spec.2).2
  have hderef : deref h₁ st.pfnTail = .ok ⟨v, some st.heap.fresh⟩ := by
    rw [ha, deref_some hcell]
  refine ⟨⟨⟨h₁, st.pfnRoot, some st.heap.fresh⟩, true⟩, ⟨hs₁, fun x hx => ?_, rfl⟩, hfresh, ?_⟩
  · rw [List.getLast?_concat] at hx
    obtain rfl := Option.some.inj hx
    rfl
  · rw [ScanState.add, if_neg hne, if_neg (by simp [hserved]), if_neg (by simp [hroot])]
    simp only [bind, Except.bind, hstore, hderef]

theorem ScanState.Lists.adds {st : ScanState} {nodes : List (ℕ × BitVec 64)}
    (hst : st.Lists nodes) (hnodes : nodes ≠ []) {mfns : List (BitVec 64)}
    (hmfns : ∀ mfn ∈ mfns, mfn ≠ 0)
    (hserved : kzalloc.Serves sizeofPfnLlNode st.heap.fresh mfns.length) :
    ∃ st' : ScanState, ∃ new, st'.Lists (nodes ++ new) ∧ new.map Prod.snd = mfns ∧
      mfns.foldlM (ScanState.add kzalloc) st = .ok st' := by
  induction mfns generalizing st nodes with
  | nil => exact ⟨st, [], by rwa [List.append_nil], rfl, rfl⟩
  | cons mfn mfns ih =>
    obtain ⟨hfirst, hrest⟩ := Kzalloc.serves_succ.mp hserved
    obtain ⟨st₁, hst₁, hfresh, hadd⟩ := hst.add hnodes (hmfns mfn (by simp)) hfirst
    obtain ⟨st', new, hst', hnew, hadds⟩ :=
      ih hst₁ (by simp) (fun m hm => hmfns m (List.mem_cons_of_mem _ hm)) (by rwa [hfresh])
    refine ⟨st', (st.heap.fresh, mfn) :: new, by rwa [List.append_cons], ?_, ?_⟩
    · rw [List.map_cons, hnew]
    · rw [List.foldlM_cons, hadd]
      exact hadds

/-- With a frame to list, the scan builds the list of all, whatever the locals held. -/
theorem exists_scan (pgd : PgdTable Pte) (hne : scanned ops pgd ≠ []) {h : PfnHeap}
    (hserved : kzalloc.Serves sizeofPfnLlNode h.fresh (scanned ops pgd).length) :
    ∃ st' : ScanState, ∃ nodes, Segment st'.heap st'.pfnRoot nodes none ∧
      nodes.map Prod.snd = scanned ops pgd ∧ ∀ pfnRoot pfnTail,
        scanTable (scanDir (scanDir (scanDir (scanPte ops kzalloc)))) ⟨⟨h, pfnRoot, pfnTail⟩, false⟩
          (some pgd) = .ok st' := by
  obtain ⟨mfn, mfns, hlist⟩ := List.exists_cons_of_ne_nil hne
  have hmfns : ∀ m ∈ mfn :: mfns, m ≠ 0 := hlist ▸ scanned_ne_zero ops
  rw [hlist] at hserved
  obtain ⟨hfirst, hrest⟩ := Kzalloc.serves_succ.mp hserved
  let st₁ : ScanState := ⟨⟨h.alloc mfn, some h.fresh, some h.fresh⟩, true⟩
  have hst₁ : st₁.Lists [(h.fresh, mfn)] :=
    ⟨segment_singleton.mpr ⟨rfl, by rw [Heap.alloc_cells, Function.update_self]⟩,
      fun x hx => by obtain rfl := Option.some.inj hx; rfl, rfl⟩
  obtain ⟨st', new, hst', hnew, hadds⟩ :=
    hst₁.adds (List.cons_ne_nil _ _) (fun m hm => hmfns m (List.mem_cons_of_mem _ hm)) hrest
  refine ⟨st', _, hst'.list, ?_, fun pfnRoot pfnTail => ?_⟩
  · rw [hlist, List.map_append, hnew]
    rfl
  · rw [scan_eq, hlist, List.foldlM_cons, ScanState.add, if_neg (hmfns mfn (by simp)),
      if_neg (by simp [hfirst]), if_pos rfl]
    exact hadds

/-- A round that ends has been served. -/
theorem ScanState.served_of_add {st st' : ScanState} {mfn : BitVec 64} (hne : mfn ≠ 0)
    (hadd : st.add kzalloc mfn = .ok st') :
    kzalloc st.heap.fresh sizeofPfnLlNode = true ∧ st'.heap.fresh = st.heap.fresh + 1 := by
  rw [ScanState.add, if_neg hne] at hadd
  by_cases hserved : kzalloc st.heap.fresh sizeofPfnLlNode = true
  · refine ⟨hserved, ?_⟩
    rw [if_neg (by simp [hserved])] at hadd
    by_cases hroot : st.rootExists = false
    · rw [if_pos hroot] at hadd
      obtain rfl := Except.ok.inj hadd
      rfl
    · rw [if_neg hroot] at hadd
      obtain ⟨heap, hstore, hadd⟩ := bind_ok hadd
      obtain ⟨node, -, hadd⟩ := bind_ok hadd
      obtain rfl := Except.ok.inj hadd
      exact storeNext_fresh hstore
  · rw [if_pos (by simpa using hserved)] at hadd
    cases hadd

/-- So has a scan that ends. -/
theorem ScanState.served_of_adds {st st' : ScanState} {mfns : List (BitVec 64)}
    (hmfns : ∀ mfn ∈ mfns, mfn ≠ 0)
    (hadds : mfns.foldlM (ScanState.add kzalloc) st = .ok st') :
    kzalloc.Serves sizeofPfnLlNode st.heap.fresh mfns.length := by
  induction mfns generalizing st with
  | nil => exact fun i hi => absurd hi (Nat.not_lt_zero i)
  | cons mfn mfns ih =>
    rw [List.foldlM_cons] at hadds
    obtain ⟨st₁, hadd, hadds⟩ := bind_ok hadds
    obtain ⟨hfirst, hfresh⟩ := ScanState.served_of_add (hmfns mfn (by simp)) hadd
    have hrest := ih (fun m hm => hmfns m (List.mem_cons_of_mem _ hm)) hadds
    rw [hfresh] at hrest
    exact Kzalloc.serves_succ.mpr ⟨hfirst, hrest⟩

/-- Without one, nothing is allocated and `pfn_root` is left as it was. -/
theorem scan_nothing (pgd : PgdTable Pte) (hnil : scanned ops pgd = []) (st : ScanState) :
    scanTable (scanDir (scanDir (scanDir (scanPte ops kzalloc)))) st (some pgd) = .ok st := by
  rw [scan_eq, hnil]
  rfl

end Maitland
