import Maitland.Malpage.PfnList
import Maitland.Malpage.Report

/-!
# The page walk

`pfnlist_vmarea` collects the frames behind the memory areas of a task, and
`malpage_generate_report` makes a report of them.  An `unsigned long` and a `long` are a
`BitVec 64`, an `int` is a `BitVec 32`.
-/

namespace Maitland

open LinkedList MachineInt

/-- What the kernel has to tell of a page table entry.  A present entry is not empty. -/
structure PteOps (Pte : Type) where
  pteNone : Pte → Bool
  ptePresent : Pte → Bool
  pteMfn : Pte → BitVec 64
  not_none_of_present : ∀ pte, ptePresent pte = true → pteNone pte = false

/-- The four levels of a page table; `none` is an entry for which `pgd_none`, `pud_none`
or `pmd_none` holds.  `pte_offset_kernel` never gives NULL. -/
abbrev PageTable (Pte : Type) :=
  BitVec 9 → Option (BitVec 9 → Option (BitVec 9 → Option (BitVec 9 → Pte)))

/-- `PAGE_SIZE` -/
def pageSize : ℕ := 4096

/-- The index of an address in the tables of one level. -/
def tableIndex (shift : ℕ) (addr : BitVec 64) : BitVec 9 := (addr >>> shift).setWidth 9

/-- `pte_offset_kernel`, after `pgd_offset`, `pud_offset` and `pmd_offset`. -/
def PageTable.pte {Pte : Type} (table : PageTable Pte) (addr : BitVec 64) : Option Pte := do
  let pud ← table (tableIndex 39 addr)
  let pmd ← pud (tableIndex 30 addr)
  let ptes ← pmd (tableIndex 21 addr)
  some (ptes (tableIndex 12 addr))

/-- A `vm_area_struct` of an `anon_vma`; `writable` is `vm_flags & VM_WRITE`. -/
structure AnonVma where
  vmStart : BitVec 64
  vmEnd : BitVec 64
  writable : Bool

/-- A `vm_area_struct`. -/
structure Vma where
  vmStart : BitVec 64
  vmEnd : BitVec 64
  /-- `list_empty(&vma->anon_vma_node)` -/
  anonVmaNodeEmpty : Bool := true
  /-- The areas on the list of `anon_vma`, which may be NULL. -/
  anonVma : Option (List AnonVma) := none

/-- `mm_struct`, with the areas that `mmap` and `vm_next` link. -/
structure MmStruct (Pte : Type) where
  mmap : List Vma
  mapCount : BitVec 32
  pgd : PageTable Pte

/-- The nodes and the two locals of `pfnlist_vmarea` that hold the list. -/
structure WalkState where
  heap : PfnHeap
  pfnRoot : Option ℕ
  pfnTail : Option ℕ

/-- What a round does with `new_mfn`, which goes into a node of so many bytes. -/
def WalkState.addMfn (kzalloc : Kzalloc) (bytes : BitVec 64) (st : WalkState)
    (newMfn : BitVec 64) : Except NoResult WalkState :=
  if 0 < newMfn then
    -- `tmp_pfn->pfn = new_mfn` is a store through what `kzalloc` returned.
    if kzalloc st.heap.fresh bytes then
      let tmpPfn := st.heap.fresh
      let heap := st.heap.alloc newMfn
      match st.pfnRoot with
      | none => .ok ⟨heap, some tmpPfn, some tmpPfn⟩
      | some _ => do
        let heap ← storeNext heap st.pfnTail (some tmpPfn)
        let heap ← storeNext heap (some tmpPfn) none
        .ok ⟨heap, st.pfnRoot, some tmpPfn⟩
    else .error .invalidPointer
  else .ok st

section Source

variable {Pte : Type} (ops : PteOps Pte) (kzalloc : Kzalloc)

def addrToMfn (table : PageTable Pte) (addr : BitVec 64) : BitVec 64 :=
  match table (tableIndex 39 addr) with
  | none => 0
  | some pud =>
    match pud (tableIndex 30 addr) with
    | none => 0
    | some pmd =>
      match pmd (tableIndex 21 addr) with
      | none => 0
      | some ptes =>
        let pte := ptes (tableIndex 12 addr)
        if !ops.ptePresent pte || ops.pteNone pte then 0 else ops.pteMfn pte

/-- `while(current_vma_vm_length>=0)`: the area is probed every half page, and at its end
as well. -/
def vmaWalkLoop (bytes : BitVec 64) (table : PageTable Pte) (vmEnd : BitVec 64) :
    ℕ → BitVec 64 → WalkState → Except NoResult WalkState
  | 0, _, _ => .error .rounds
  | n + 1, length, st =>
    if 0 ≤ length.toInt then do
      let st ← st.addMfn kzalloc bytes (addrToMfn ops table (vmEnd - length))
      if length.toInt ≤ 0 then .ok st
      else
        let length := length - BitVec.ofNat 64 (pageSize / 2)
        vmaWalkLoop bytes table vmEnd n (if length.toInt < 0 then 0 else length) st
    else .ok st

/-- The walk over one area. -/
def vmaWalk (bytes : BitVec 64) (table : PageTable Pte) (rounds : ℕ) (vmStart vmEnd : BitVec 64)
    (st : WalkState) : Except NoResult WalkState :=
  vmaWalkLoop ops kzalloc bytes table vmEnd rounds (vmEnd - vmStart) st

/-- The part under `if(anon)`, whose nodes are of `sizeof(pfn_ll_node)+4` bytes. -/
def anonVmaWalk (table : PageTable Pte) (rounds : ℕ) (vma : Vma) (st : WalkState) :
    Except NoResult WalkState :=
  match vma.anonVma with
  | none => .ok st
  | some areas =>
    if vma.anonVmaNodeEmpty then .ok st
    else (areas.filter (·.writable)).foldlM
      (fun st area => vmaWalk ops kzalloc (sizeofPfnLlNode + 4) table rounds area.vmStart
        area.vmEnd st) st

/-- `do{ .. }while(current_vma && vma_count<vma_total)`: its first round reads through
`current_vma`, NULL or not. -/
def vmareaLoop (table : PageTable Pte) (rounds : ℕ) (anon : Bool) (vmaTotal : BitVec 32) :
    List Vma → BitVec 32 → WalkState → Except NoResult WalkState
  | [], _, _ => .error .invalidPointer
  | vma :: next, vmaCount, st => do
    let st ← vmaWalk ops kzalloc sizeofPfnLlNode table rounds vma.vmStart vma.vmEnd st
    let st ← if anon then anonVmaWalk ops kzalloc table rounds vma st else .ok st
    if next ≠ [] ∧ (vmaCount + 1).toInt < vmaTotal.toInt then
      vmareaLoop table rounds anon vmaTotal next (vmaCount + 1) st
    else .ok st

/-- `pfnlist_vmarea`, with the nodes it finds and what its two uninitialised locals
hold.  `mm` is `task->mm`, NULL for a task without memory. -/
def pfnlistVmarea (rounds : ℕ) (mm : Option (MmStruct Pte)) (duplicates anon : Bool)
    (st : WalkState) : Except NoResult (PfnHeap × Option ℕ) := do
  let tskMm ← valid mm
  let st ← vmareaLoop ops kzalloc tskMm.pgd rounds anon tskMm.mapCount tskMm.mmap 0 st
  if duplicates then do
    let (heap, _) ← pfnlistMkunique rounds st.heap st.pfnRoot
    .ok (heap, st.pfnRoot)
  else .ok (st.heap, st.pfnRoot)

/-- `sizeof(process_report_t)` -/
def sizeofProcessReport : BitVec 64 := 40

/-- `malpage_generate_report`, with the nodes it leaves behind: the list is not freed. -/
def malpageGenerateReport (rounds : ℕ) (pid : BitVec 32) (mm : Option (MmStruct Pte))
    (st : WalkState) : Except NoResult (PfnHeap × GuestReport) := do
  -- `rep->process_id = task->pid` is a store through what `kzalloc` returned.
  if kzalloc st.heap.fresh sizeofProcessReport then
    let (heap, tmpRoot) ← pfnlistVmarea ops kzalloc rounds mm true false st
    let pfnListLength ← pfnlistSize heap rounds tmpRoot
    let pfnList ← pfnlistMkarray heap kzalloc rounds tmpRoot pfnListLength
    .ok (heap,
      { processId := pid
        domid := 0
        pfnList := pfnList
        grefList := kzallocArray kzalloc heap (4 * pfnListLength.setWidth 64)
        pfnListLength := pfnListLength })
  else .error .invalidPointer

end Source

/-- The locals hold a list of these frames, with its last node in `pfn_tail`. -/
def WalkState.Lists (st : WalkState) (frames : List (BitVec 64)) : Prop :=
  ∃ xs : List (ℕ × BitVec 64), Segment st.heap st.pfnRoot xs none ∧ xs.map Prod.snd = frames ∧
    ∀ x ∈ xs.getLast?, st.pfnTail = some x.1

theorem WalkState.lists_nil (heap : PfnHeap) (pfnTail : Option ℕ) :
    WalkState.Lists ⟨heap, none, pfnTail⟩ [] :=
  ⟨[], rfl, rfl, fun x hx => by cases hx⟩

variable {kzalloc : Kzalloc} {bytes : BitVec 64} {st : WalkState} {frames : List (BitVec 64)}
  {newMfn : BitVec 64}

theorem zero_lt_of_ne_zero (hne : newMfn ≠ 0) : 0 < newMfn := by
  rw [BitVec.lt_def]
  have := mt BitVec.toNat_eq.mpr hne
  simp only [BitVec.ofNat_eq_ofNat, BitVec.toNat_ofNat] at this ⊢
  omega

/-- A node that is not served is written to all the same. -/
theorem WalkState.addMfn_of_not_served (st : WalkState) (hne : newMfn ≠ 0)
    (hnot : ¬kzalloc st.heap.fresh bytes = true) :
    st.addMfn kzalloc bytes newMfn = .error .invalidPointer := by
  rw [WalkState.addMfn, if_pos (zero_lt_of_ne_zero hne), if_neg hnot]

theorem WalkState.addMfn_of_ne_zero (st : WalkState) (hne : newMfn ≠ 0)
    (hserved : kzalloc st.heap.fresh bytes = true) :
    st.addMfn kzalloc bytes newMfn = (match st.pfnRoot with
      | none => .ok ⟨st.heap.alloc newMfn, some st.heap.fresh, some st.heap.fresh⟩
      | some _ => do
        let heap ← storeNext (st.heap.alloc newMfn) st.pfnTail (some st.heap.fresh)
        let heap ← storeNext heap (some st.heap.fresh) none
        .ok ⟨heap, st.pfnRoot, some st.heap.fresh⟩) := by
  rw [WalkState.addMfn, if_pos (zero_lt_of_ne_zero hne), if_pos hserved]

/-- With `pfn_tail` at the last node of a list, the new node goes to its end, wherever
`pfn_root` points. -/
theorem WalkState.addMfn_append {p : Option ℕ} {xs : List (ℕ × BitVec 64)} {a r : ℕ}
    {v : BitVec 64} (hs : Segment st.heap p (xs ++ [(a, v)]) none) (hroot : st.pfnRoot = some r)
    (htail : st.pfnTail = some a) (hne : newMfn ≠ 0)
    (hserved : kzalloc st.heap.fresh bytes = true) :
    ∃ h, st.addMfn kzalloc bytes newMfn = .ok ⟨h, some r, some st.heap.fresh⟩ ∧
      h.fresh = st.heap.fresh + 1 ∧
      Segment h p (xs ++ [(a, v)] ++ [(st.heap.fresh, newMfn)]) none := by
  obtain ⟨h₁, hset, hs₁, hfresh₁, -⟩ := hs.snoc newMfn
  -- The link of the new node is NULL already.
  have hnotin : st.heap.fresh ∉ (xs ++ [(a, v)]).map Prod.fst := fun hmem =>
    Nat.lt_irrefl _ (hs.lt_fresh hmem)
  obtain ⟨h₂, hset₂, hs₂, -, hfresh₂, -⟩ := hs₁.redirect hnotin none
  have hstore : storeNext (st.heap.alloc newMfn) st.pfnTail (some st.heap.fresh) = .ok h₁ := by
    rw [storeNext, htail, Option.bind_some, hset, valid]
  have hstore₂ : storeNext h₁ (some st.heap.fresh) none = .ok h₂ := by
    rw [storeNext, Option.bind_some, hset₂, valid]
  refine ⟨h₂, ?_, hfresh₂.trans hfresh₁, hs₂⟩
  rw [st.addMfn_of_ne_zero hne hserved, hroot]
  simp only [bind, Except.bind, hstore, hstore₂]

/-- A frame other than 0 goes to the end of the list. -/
theorem WalkState.Lists.addMfn (hst : st.Lists frames) (hne : newMfn ≠ 0)
    (hserved : kzalloc st.heap.fresh bytes = true) :
    ∃ st', st.addMfn kzalloc bytes newMfn = .ok st' ∧ st'.heap.fresh = st.heap.fresh + 1 ∧
      st'.Lists (frames ++ [newMfn]) := by
  obtain ⟨xs, hs, rfl, htail⟩ := hst
  rcases List.eq_nil_or_concat xs with rfl | ⟨xs, ⟨a, v⟩, rfl⟩
  · rw [st.addMfn_of_ne_zero hne hserved, show st.pfnRoot = none from hs]
    refine ⟨_, rfl, rfl, [(st.heap.fresh, newMfn)], segment_singleton.mpr ⟨rfl, ?_⟩, rfl, by simp⟩
    rw [Heap.alloc_cells, Function.update_self]
  · rw [List.concat_eq_append] at hs htail ⊢
    obtain ⟨r, hroot⟩ : ∃ r, st.pfnRoot = some r := by
      cases xs with
      | nil => exact ⟨a, hs.1⟩
      | cons x xs => exact ⟨x.1, hs.1⟩
    obtain ⟨h, hadd, hfresh, hs'⟩ :=
      WalkState.addMfn_append hs hroot (htail (a, v) (by simp)) hne hserved
    exact ⟨_, hadd, hfresh, _, hroot ▸ hs', by simp, by simp⟩

/-- The first of some requests, and the others. -/
theorem Kzalloc.serves_succ {a n : ℕ} :
    kzalloc.Serves bytes a (n + 1) ↔ kzalloc a bytes = true ∧ kzalloc.Serves bytes (a + 1) n := by
  constructor
  · intro hserved
    refine ⟨hserved 0 (Nat.succ_pos n), fun i hi => ?_⟩
    rw [Nat.add_assoc, Nat.add_comm 1]
    exact hserved (i + 1) (Nat.succ_lt_succ hi)
  · rintro ⟨hfirst, hrest⟩ i hi
    cases i with
    | zero => exact hfirst
    | succ i =>
      have hi' := hrest i (Nat.lt_of_succ_lt_succ hi)
      rwa [Nat.add_assoc, Nat.add_comm 1] at hi'

theorem WalkState.Lists.addMfns (hst : st.Lists frames) {mfns : List (BitVec 64)}
    (hmfns : ∀ mfn ∈ mfns, mfn ≠ 0) (hserved : kzalloc.Serves bytes st.heap.fresh mfns.length) :
    ∃ st', mfns.foldlM (WalkState.addMfn kzalloc bytes) st = .ok st' ∧
      st'.heap.fresh = st.heap.fresh + mfns.length ∧ st'.Lists (frames ++ mfns) := by
  induction mfns generalizing st frames with
  | nil => exact ⟨st, rfl, rfl, by rwa [List.append_nil]⟩
  | cons mfn mfns ih =>
    obtain ⟨hfirst, hrest⟩ := Kzalloc.serves_succ.mp hserved
    obtain ⟨st₁, hadd, hfresh₁, hst₁⟩ := hst.addMfn (hmfns mfn (by simp)) hfirst
    obtain ⟨st', hfold, hfresh, hst'⟩ :=
      ih hst₁ (fun m hm => hmfns m (List.mem_cons_of_mem _ hm)) (by rwa [hfresh₁])
    refine ⟨st', ?_, ?_, by rwa [List.append_cons]⟩
    · rw [List.foldlM_cons, hadd]
      exact hfold
    · rw [hfresh, hfresh₁, List.length_cons]
      omega

section Spec

variable {Pte : Type} (ops : PteOps Pte) {table : PageTable Pte} (kzalloc : Kzalloc)
  (bytes : BitVec 64)

theorem addrToMfn_eq (table : PageTable Pte) (addr : BitVec 64) :
    addrToMfn ops table addr =
      ((table.pte addr).filter ops.ptePresent).elim 0 ops.pteMfn := by
  simp only [addrToMfn, PageTable.pte]
  cases table (tableIndex 39 addr) with
  | none => rfl
  | some pud =>
    cases hpmd : pud (tableIndex 30 addr) with
    | none => simp [hpmd]
    | some pmd =>
      cases hptes : pmd (tableIndex 21 addr) with
      | none => simp [hpmd, hptes]
      | some ptes =>
        cases hpresent : ops.ptePresent (ptes (tableIndex 12 addr)) with
        | false => simp [hpmd, hptes, hpresent, Option.filter]
        | true =>
          have hnone := ops.not_none_of_present _ hpresent
          simp [hpmd, hptes, hpresent, hnone, Option.filter]

/-- All addresses of a page have one entry. -/
theorem addrToMfn_congr {addr addr' : BitVec 64} (h : addr >>> 12 = addr' >>> 12) :
    addrToMfn ops table addr = addrToMfn ops table addr' := by
  have hindex : ∀ k, tableIndex (12 + k) addr = tableIndex (12 + k) addr' := by
    intro k
    rw [tableIndex, tableIndex, BitVec.shiftRight_add, BitVec.shiftRight_add, h]
  simp only [addrToMfn, show tableIndex 39 addr = _ from hindex 27,
    show tableIndex 30 addr = _ from hindex 18, show tableIndex 21 addr = _ from hindex 9,
    show tableIndex 12 addr = _ from hindex 0]

/-- The addresses that the walk over an area of `k` half pages probes. -/
def probes (vmEnd : BitVec 64) : ℕ → List (BitVec 64)
  | 0 => [vmEnd]
  | k + 1 => (vmEnd - BitVec.ofNat 64 (pageSize / 2 * (k + 1))) :: probes vmEnd k

theorem mem_probes {vmEnd addr : BitVec 64} {k : ℕ} :
    addr ∈ probes vmEnd k ↔ ∃ i ≤ k, addr = vmEnd - BitVec.ofNat 64 (pageSize / 2 * i) := by
  induction k with
  | zero => simp [probes]
  | succ k ih =>
    rw [probes, List.mem_cons, ih]
    constructor
    · rintro (rfl | ⟨i, hi, rfl⟩)
      · exact ⟨k + 1, le_refl _, rfl⟩
      · exact ⟨i, by omega, rfl⟩
    · rintro ⟨i, hi, rfl⟩
      rcases Nat.lt_or_eq_of_le hi with hi | rfl
      · exact .inr ⟨i, by omega, rfl⟩
      · exact .inl rfl

/-- The frames that the probes give. -/
def probed (table : PageTable Pte) (vmEnd : BitVec 64) (k : ℕ) : List (BitVec 64) :=
  ((probes vmEnd k).map (addrToMfn ops table)).filter (· ≠ 0)

theorem mem_probed {table : PageTable Pte} {vmEnd mfn : BitVec 64} {k : ℕ}
    (h : mfn ∈ probed ops table vmEnd k) : mfn ≠ 0 :=
  of_decide_eq_true (List.mem_filter.mp h).2

/-- A frame of 0 adds nothing. -/
theorem foldlM_addMfn_filter (st : WalkState) (mfn : BitVec 64) (mfns : List (BitVec 64)) :
    ((mfn :: mfns).filter (· ≠ 0)).foldlM (WalkState.addMfn kzalloc bytes) st =
      (st.addMfn kzalloc bytes mfn).bind fun st' =>
        (mfns.filter (· ≠ 0)).foldlM (WalkState.addMfn kzalloc bytes) st' := by
  by_cases hzero : mfn = 0
  · subst hzero
    rfl
  · rw [List.filter_cons_of_pos (by simpa using hzero), List.foldlM_cons]
    rfl

/-- The walk over `k` half pages takes one round for each probe. -/
theorem vmaWalkLoop_eq (table : PageTable Pte) (vmEnd : BitVec 64) {k rounds : ℕ}
    (hk : pageSize / 2 * k < 2 ^ 63) (hrounds : k < rounds) (st : WalkState) :
    vmaWalkLoop ops kzalloc bytes table vmEnd rounds (BitVec.ofNat 64 (pageSize / 2 * k)) st =
      (probed ops table vmEnd k).foldlM (WalkState.addMfn kzalloc bytes) st := by
  induction k generalizing rounds st with
  | zero =>
    obtain ⟨n, rfl⟩ := Nat.exists_eq_add_one.mpr hrounds
    rw [vmaWalkLoop, if_pos (by decide), probed, probes, List.map_singleton, foldlM_addMfn_filter]
    simp only [Nat.mul_zero, BitVec.ofNat_eq_ofNat, BitVec.sub_zero]
    rfl
  | succ k ih =>
    obtain ⟨n, rfl⟩ := Nat.exists_eq_add_one.mpr (Nat.zero_lt_of_lt hrounds)
    have hhalf : pageSize / 2 * (k + 1) = pageSize / 2 * k + pageSize / 2 := Nat.mul_succ _ _
    have hlen := toInt_ofNat_long hk
    have hrest : pageSize / 2 * k < 2 ^ 63 := by omega
    have hpos : 0 < pageSize / 2 * (k + 1) := by
      rw [hhalf, pageSize]
      omega
    have hsub : BitVec.ofNat 64 (pageSize / 2 * (k + 1)) - BitVec.ofNat 64 (pageSize / 2) =
        BitVec.ofNat 64 (pageSize / 2 * k) := by
      rw [hhalf, BitVec.ofNat_add, BitVec.add_sub_cancel]
    rw [vmaWalkLoop, if_pos (by omega), probed, probes, List.map_cons, foldlM_addMfn_filter]
    refine congrArg (Except.bind _) (funext fun st' => ?_)
    -- Whole half pages are left, so the length is never clamped.
    rw [if_neg (by omega), hsub]
    dsimp only
    rw [if_neg (by rw [toInt_ofNat_long hrest]; omega)]
    exact ih hrest (Nat.lt_of_succ_lt_succ hrounds) st'

/-- An area of whole pages in the user half of the address space. -/
structure Vma.WellFormed (vma : Vma) : Prop where
  start_aligned : pageSize ∣ vma.vmStart.toNat
  end_aligned : pageSize ∣ vma.vmEnd.toNat
  nonempty : vma.vmStart < vma.vmEnd
  user : vma.vmEnd.toNat < 2 ^ 47

def Vma.halfPages (vma : Vma) : ℕ := (vma.vmEnd.toNat - vma.vmStart.toNat) / (pageSize / 2)

theorem Vma.WellFormed.halfPages_eq {vma : Vma} (hv : vma.WellFormed) :
    pageSize / 2 * vma.halfPages = vma.vmEnd.toNat - vma.vmStart.toNat := by
  obtain ⟨i, hi⟩ := hv.start_aligned
  obtain ⟨j, hj⟩ := hv.end_aligned
  rw [Vma.halfPages, hi, hj, pageSize]
  omega

theorem Vma.WellFormed.length_eq {vma : Vma} (hv : vma.WellFormed) :
    vma.vmEnd - vma.vmStart = BitVec.ofNat 64 (pageSize / 2 * vma.halfPages) := by
  have hlt := BitVec.lt_def.mp hv.nonempty
  apply BitVec.eq_of_toNat_eq
  rw [hv.halfPages_eq, BitVec.toNat_sub_of_le (BitVec.le_of_lt hv.nonempty), BitVec.toNat_ofNat,
    Nat.mod_eq_of_lt (by omega)]

/-- The frames that the walk over the areas finds, in the order of the probes. -/
def walked (table : PageTable Pte) (vmas : List Vma) : List (BitVec 64) :=
  vmas.flatMap fun vma => probed ops table vma.vmEnd vma.halfPages

theorem mem_walked_ne_zero {table : PageTable Pte} {vmas : List Vma} {mfn : BitVec 64}
    (h : mfn ∈ walked ops table vmas) : mfn ≠ 0 := by
  obtain ⟨vma, -, hmem⟩ := List.mem_flatMap.mp h
  exact mem_probed ops hmem

/-- The walk over the areas from the `vmaCount`-th on adds their frames, one by one. -/
theorem vmareaLoop_eq (table : PageTable Pte) {vmas : List Vma} (hne : vmas ≠ [])
    (hvmas : ∀ vma ∈ vmas, vma.WellFormed) {vmaTotal : BitVec 32} {vmaCount : ℕ}
    (htotal : vmaTotal.toInt = vmaCount + vmas.length) {rounds : ℕ}
    (hrounds : ∀ vma ∈ vmas, vma.halfPages < rounds) (st : WalkState) :
    vmareaLoop ops kzalloc table rounds false vmaTotal vmas (BitVec.ofNat 32 vmaCount) st =
      (walked ops table vmas).foldlM (WalkState.addMfn kzalloc sizeofPfnLlNode) st := by
  induction vmas generalizing vmaCount st with
  | nil => exact absurd rfl hne
  | cons vma next ih =>
    have hv := hvmas vma (by simp)
    have hbound := hv.user
    have hlen : pageSize / 2 * vma.halfPages < 2 ^ 63 := by
      rw [hv.halfPages_eq]
      omega
    have hwalk := vmaWalkLoop_eq ops kzalloc sizeofPfnLlNode table vma.vmEnd hlen
      (hrounds vma (by simp)) st
    rw [← hv.length_eq] at hwalk
    rw [vmareaLoop, vmaWalk, hwalk, walked, List.flatMap_cons, List.foldlM_append]
    refine congrArg (Except.bind _) (funext fun st₁ => ?_)
    simp only [bind, Except.bind, Bool.false_eq_true, if_false]
    cases next with
    | nil => exact if_neg fun hguard => hguard.1 rfl
    | cons vma' next =>
      have hlt : vmaTotal.toInt < 2 ^ 31 := BitVec.toInt_lt
      simp only [List.length_cons] at htotal
      have hcount : BitVec.ofNat 32 vmaCount + 1 = BitVec.ofNat 32 (vmaCount + 1) := by
        rw [BitVec.ofNat_add]
        rfl
      have hnext : vmaTotal.toInt = (vmaCount + 1 : ℕ) + (vma' :: next).length := by
        rw [htotal, List.length_cons]
        omega
      rw [hcount, if_pos ⟨List.cons_ne_nil _ _, by rw [toInt_ofNat_int (by omega)]; omega⟩]
      exact ih (List.cons_ne_nil _ _) (fun w hw => hvmas w (List.mem_cons_of_mem _ hw)) hnext
        (fun w hw => hrounds w (List.mem_cons_of_mem _ hw)) st₁

end Spec

end Maitland
