import Maitland.Malpage.TableScan
import Maitland.Protocol.StackGarbage

/-!
# The scan against the walk

`pfnlist` goes through the whole page table of a process, `pfnlist_vmarea` through its areas.
What each of the two lists, and when they list the same frames.
-/

namespace Maitland

open LinkedList MachineInt

variable {Pte : Type} (ops : ScanOps Pte) {kzalloc : Kzalloc}

/-- `kzalloc` serves a node for each entry that is listed. -/
def ScanServed (kzalloc : Kzalloc) (pgd : PgdTable Pte) (h : PfnHeap) : Prop :=
  kzalloc.Serves sizeofPfnLlNode h.fresh (scanned ops pgd).length

/-- The call ends with this list, whatever its locals held before. -/
def ScanReturns (kzalloc : Kzalloc) (pgd : PgdTable Pte) (uniq : BitVec 32) (h h' : PfnHeap)
    (root : Option ℕ) (frames : List (BitVec 64)) : Prop :=
  (∃ nodes : List (ℕ × BitVec 64), Segment h' root nodes none ∧ nodes.map Prod.snd = frames) ∧
    ∃ enough, ∀ pfnRoot pfnTail rounds, enough ≤ rounds →
      pfnlist ops kzalloc rounds (some (some pgd)) uniq ⟨h, pfnRoot, pfnTail⟩ =
        .ok (some (h', root))

/-- With a frame to list, every frame is listed, in the order of the table: once, if `uniq` is
positive, else once for each entry. -/
theorem exists_scanReturns (pgd : PgdTable Pte) (hne : scanned ops pgd ≠ []) (uniq : BitVec 32)
    {h : PfnHeap} (hserved : ScanServed ops kzalloc pgd h) :
    ∃ h' root frames, ScanReturns ops kzalloc pgd uniq h h' root frames ∧
      (∀ mfn, mfn ∈ frames ↔ mfn ∈ scanned ops pgd) ∧ (0 < uniq.toInt → frames.Nodup) ∧
      (¬0 < uniq.toInt → frames = scanned ops pgd) := by
  obtain ⟨st, nodes, hs, hnodes, hscan⟩ := exists_scan ops pgd hne hserved
  by_cases huniq : 0 < uniq.toInt
  · obtain ⟨h', gone, hs', -, -, -, hunique⟩ := pfnlistMkunique_spec hs
    refine ⟨h', st.pfnRoot, _, ⟨⟨_, hs', rfl⟩, nodes.length + 1,
      fun pfnRoot pfnTail rounds hrounds => ?_⟩, fun mfn => ?_, fun _ => nodup_values_firsts,
      fun hnot => absurd huniq hnot⟩
    · simp only [pfnlist, valid, bind, Except.bind, hscan, if_pos huniq,
        hunique rounds (by omega)]
    · rw [mem_values_firsts, hnodes]
  · refine ⟨st.heap, st.pfnRoot, _, ⟨⟨nodes, hs, hnodes⟩, 0, fun pfnRoot pfnTail rounds _ => ?_⟩,
      fun _ => Iff.rfl, fun hpos => absurd hpos huniq, fun _ => rfl⟩
    simp only [pfnlist, valid, bind, Except.bind, hscan, if_neg huniq]

/-- A call that ends has had its nodes served. -/
theorem served_of_pfnlist {pgd : PgdTable Pte} {uniq : BitVec 32} {st : WalkState} {rounds : ℕ}
    {r : Option (PfnHeap × Option ℕ)}
    (hcall : pfnlist ops kzalloc rounds (some (some pgd)) uniq st = .ok r) :
    ScanServed ops kzalloc pgd st.heap := by
  obtain ⟨mm, hmm, hcall⟩ := bind_ok hcall
  obtain rfl := Except.ok.inj hmm
  obtain ⟨st', hscan, -⟩ := bind_ok hcall
  rw [scan_eq] at hscan
  exact ScanState.served_of_adds (scanned_ne_zero ops) hscan

/-- What a call of `pfnlist` does is told by its arguments exactly if it finds a frame, and has
its nodes served: otherwise it follows or returns the pointer that happens to be on the stack,
or follows the NULL of `kzalloc`. -/
theorem scan_determined_iff (kzalloc : Kzalloc) (pgd : PgdTable Pte) (uniq : BitVec 32)
    (h : PfnHeap) :
    (∃ r enough, ∀ pfnRoot pfnTail rounds, enough ≤ rounds →
      pfnlist ops kzalloc rounds (some (some pgd)) uniq ⟨h, pfnRoot, pfnTail⟩ = .ok r) ↔
    (∃ pte ∈ pgd.ptes, ops.ptePresent pte ∧ ops.pteFile pte = false ∧ ops.pfnToMfn pte ≠ 0) ∧
      ScanServed ops kzalloc pgd h := by
  constructor
  · rintro ⟨r, enough, hcall⟩
    refine ⟨?_, served_of_pfnlist ops (hcall none none enough (Nat.le_refl _))⟩
    by_contra hnone
    have hnil : scanned ops pgd = [] := List.eq_nil_iff_forall_not_mem.mpr fun mfn hmfn => by
      obtain ⟨hne, pte, hpte, hpresent, hfile, rfl⟩ := (mem_scanned ops).mp hmfn
      exact hnone ⟨pte, hpte, hpresent, hfile, hne⟩
    have hnull := hcall none none (enough + 1) (Nat.le_succ _)
    have hgarbage := hcall (some h.fresh) none (enough + 1) (Nat.le_succ _)
    simp only [pfnlist, valid, bind, Except.bind, scan_nothing ops pgd hnil] at hnull hgarbage
    by_cases huniq : 0 < uniq.toInt
    · rw [if_pos huniq] at hgarbage
      cases hunique : pfnlistMkunique (enough + 1) h (some h.fresh) with
      | error e => rw [hunique] at hgarbage; cases hgarbage
      | ok r => exact cells_ne_none_of_mkunique hunique (h.unallocated _ (Nat.le_refl _))
    · rw [if_neg huniq] at hnull hgarbage
      rw [← hnull] at hgarbage
      cases hgarbage
  · rintro ⟨⟨pte, hpte, hpresent, hfile, hne⟩, hserved⟩
    have hmem : ops.pfnToMfn pte ∈ scanned ops pgd :=
      (mem_scanned ops).mpr ⟨hne, pte, hpte, hpresent, hfile, rfl⟩
    obtain ⟨h', root, frames, ⟨-, enough, hcall⟩, -⟩ :=
      exists_scanReturns ops pgd (List.ne_nil_of_mem hmem) uniq hserved
    exact ⟨_, enough, hcall⟩

/-- An entry that the kernel makes: empty, or present with a table. -/
structure DirEntry.Regular {Table : Type} (entry : DirEntry Table) : Prop where
  isNone_eq : entry.isNone = !entry.present
  not_bad : entry.bad = false
  table : entry.present = true → entry.table ≠ none

/-- The table below an entry, as `pud_offset` and its like find it. -/
def DirEntry.walk {Table : Type} (entry : DirEntry Table) : Option Table :=
  if entry.isNone then none else entry.table

namespace PgdTable

variable (pgd : PgdTable Pte)

/-- The table as `addr_to_mfn` goes through it. -/
def toPageTable : PageTable Pte := fun i => (pgd i).walk.map fun pud j =>
  (pud j).walk.map fun pmd k => (pmd k).walk

structure Regular : Prop where
  pgds : ∀ i, (pgd i).Regular
  puds : ∀ i, ∀ pud ∈ (pgd i).table, ∀ j, (pud j).Regular
  pmds : ∀ i, ∀ pud ∈ (pgd i).table, ∀ j, ∀ pmd ∈ (pud j).table, ∀ k, (pmd k).Regular

end PgdTable

theorem mem_tableEntries {α : Type} {table : Option (BitVec 9 → α)} {x : α} :
    x ∈ tableEntries table ↔ ∃ list ∈ table, ∃ i, list i = x := by
  cases table with
  | none => simp [tableEntries]
  | some list =>
    simp only [tableEntries, List.mem_map, List.mem_range, Option.mem_some_iff, exists_eq_left']
    constructor
    · rintro ⟨i, -, rfl⟩
      exact ⟨_, rfl⟩
    · rintro ⟨i, rfl⟩
      exact ⟨i.toNat, i.isLt, by rw [BitVec.ofNat_toNat, BitVec.setWidth_eq]⟩

theorem DirEntry.Regular.mem_below {α : Type} {entry : DirEntry (BitVec 9 → α)}
    (hentry : entry.Regular) {x : α} : x ∈ entry.below ↔ ∃ list ∈ entry.walk, ∃ i, list i = x := by
  obtain ⟨hnone, hbad, -⟩ := hentry
  rw [DirEntry.below, DirEntry.walk, hnone, hbad]
  cases entry.present with
  | false => simp
  | true => exact mem_tableEntries

/-- An address with these indices. -/
def addrOf (i j k l : BitVec 9) : BitVec 64 :=
  BitVec.ofNat 64 ((((i.toNat * 512 + j.toNat) * 512 + k.toNat) * 512 + l.toNat) * 4096)

theorem toNat_addrOf (i j k l : BitVec 9) : (addrOf i j k l).toNat =
    (((i.toNat * 512 + j.toNat) * 512 + k.toNat) * 512 + l.toNat) * 4096 :=
  toNat_ofNat_of_lt (by have := i.isLt; have := j.isLt; have := k.isLt; have := l.isLt; omega)

theorem tableIndex_addrOf (i j k l : BitVec 9) :
    tableIndex 39 (addrOf i j k l) = i ∧ tableIndex 30 (addrOf i j k l) = j ∧
      tableIndex 21 (addrOf i j k l) = k ∧ tableIndex 12 (addrOf i j k l) = l := by
  have := i.isLt
  have := j.isLt
  have := k.isLt
  have := l.isLt
  refine ⟨?_, ?_, ?_, ?_⟩ <;>
  · apply BitVec.eq_of_toNat_eq
    rw [toNat_tableIndex, toNat_addrOf]
    omega

theorem PageTable.mem_pte {table : PageTable Pte} {addr : BitVec 64} {pte : Pte} :
    pte ∈ table.pte addr ↔ ∃ pud ∈ table (tableIndex 39 addr), ∃ pmd ∈ pud (tableIndex 30 addr),
      ∃ ptes ∈ pmd (tableIndex 21 addr), ptes (tableIndex 12 addr) = pte := by
  rw [PageTable.pte, Option.mem_def]
  simp only [Option.bind_eq_bind, Option.bind_eq_some_iff, Option.some.injEq, Option.mem_def]

theorem PgdTable.mem_toPageTable {pgd : PgdTable Pte} {addr : BitVec 64} {pte : Pte} :
    pte ∈ pgd.toPageTable.pte addr ↔ ∃ pud ∈ (pgd (tableIndex 39 addr)).walk,
      ∃ pmd ∈ (pud (tableIndex 30 addr)).walk, ∃ ptes ∈ (pmd (tableIndex 21 addr)).walk,
        ptes (tableIndex 12 addr) = pte := by
  rw [PageTable.mem_pte]
  constructor
  · rintro ⟨pud, hpud, pmd, hpmd, ptes, hptes, rfl⟩
    obtain ⟨pudTable, hpud', rfl⟩ := Option.map_eq_some_iff.mp hpud
    obtain ⟨pmdTable, hpmd', rfl⟩ := Option.map_eq_some_iff.mp hpmd
    exact ⟨pudTable, hpud', pmdTable, hpmd', ptes, hptes, rfl⟩
  · rintro ⟨pud, hpud, pmd, hpmd, ptes, hptes, rfl⟩
    exact ⟨_, Option.map_eq_some_iff.mpr ⟨pud, hpud, rfl⟩, _,
      Option.map_eq_some_iff.mpr ⟨pmd, hpmd, rfl⟩, ptes, hptes, rfl⟩

theorem DirEntry.mem_table_of_mem_walk {Table : Type} {entry : DirEntry Table} {table : Table}
    (h : table ∈ entry.walk) : table ∈ entry.table := by
  rw [DirEntry.walk] at h
  by_cases hnone : entry.isNone = true
  · rw [if_pos hnone] at h
    cases h
  · rwa [if_neg hnone] at h

/-- The scan comes to the entries that some address leads to. -/
theorem PgdTable.Regular.mem_ptes {pgd : PgdTable Pte} (hpgd : PgdTable.Regular pgd) {pte : Pte} :
    pte ∈ pgd.ptes ↔ ∃ addr : BitVec 64, addr.toNat < 2 ^ 48 ∧ pte ∈ pgd.toPageTable.pte addr := by
  simp only [PgdTable.mem_toPageTable, PgdTable.ptes, List.mem_flatMap]
  constructor
  · rintro ⟨pmdEntry, ⟨pudEntry, ⟨pgdEntry, hpgdEntry, hpudEntry⟩, hpmdEntry⟩, hpte⟩
    obtain ⟨_, htop, i, rfl⟩ := mem_tableEntries.mp hpgdEntry
    obtain rfl := Option.some.inj htop
    obtain ⟨pud, hpud, j, rfl⟩ := (hpgd.pgds i).mem_below.mp hpudEntry
    have hpud' := DirEntry.mem_table_of_mem_walk hpud
    obtain ⟨pmd, hpmd, k, rfl⟩ := (hpgd.puds i pud hpud' j).mem_below.mp hpmdEntry
    have hpmd' := DirEntry.mem_table_of_mem_walk hpmd
    obtain ⟨ptes, hptes, l, rfl⟩ := (hpgd.pmds i pud hpud' j pmd hpmd' k).mem_below.mp hpte
    obtain ⟨h₁, h₂, h₃, h₄⟩ := tableIndex_addrOf i j k l
    refine ⟨addrOf i j k l, ?_, pud, by rwa [h₁], pmd, by rwa [h₂], ptes, by rwa [h₃], by rw [h₄]⟩
    have := i.isLt
    have := j.isLt
    have := k.isLt
    have := l.isLt
    rw [toNat_addrOf]
    omega
  · rintro ⟨addr, -, pud, hpud, pmd, hpmd, ptes, hptes, rfl⟩
    have hpud' := DirEntry.mem_table_of_mem_walk hpud
    have hpmd' := DirEntry.mem_table_of_mem_walk hpmd
    have h₁ : pgd (tableIndex 39 addr) ∈ tableEntries (some pgd) :=
      mem_tableEntries.mpr ⟨pgd, rfl, tableIndex 39 addr, rfl⟩
    have h₂ : pud (tableIndex 30 addr) ∈ (pgd (tableIndex 39 addr)).below :=
      (hpgd.pgds _).mem_below.mpr ⟨pud, hpud, _, rfl⟩
    have h₃ : pmd (tableIndex 21 addr) ∈ (pud (tableIndex 30 addr)).below :=
      (hpgd.puds _ pud hpud' _).mem_below.mpr ⟨pmd, hpmd, _, rfl⟩
    have h₄ : ptes (tableIndex 12 addr) ∈ (pmd (tableIndex 21 addr)).below :=
      (hpgd.pmds _ pud hpud' _ pmd hpmd' _).mem_below.mpr ⟨ptes, hptes, _, rfl⟩
    exact ⟨_, ⟨_, ⟨_, h₁, h₂⟩, h₃⟩, h₄⟩

/-- On present entries `pfn_to_mfn(pte_pfn(pte))` is the frame of the entry. -/
def ScanOps.FramesAgree (ops : ScanOps Pte) : Prop :=
  ∀ pte, ops.ptePresent pte = true → ops.pfnToMfn pte = ops.pteMfn pte

/-- An entry that the scan lists, at an address. -/
def PgdTable.ScansAt (pgd : PgdTable Pte) (addr : BitVec 64) (mfn : BitVec 64) : Prop :=
  ∃ pte ∈ pgd.toPageTable.pte addr, ops.ptePresent pte ∧ ops.pteFile pte = false ∧
    ops.pteMfn pte = mfn

variable {ops}

theorem mem_scanned_iff_scansAt (hops : ops.FramesAgree) {pgd : PgdTable Pte}
    (hpgd : PgdTable.Regular pgd) {mfn : BitVec 64} :
    mfn ∈ scanned ops pgd ↔ mfn ≠ 0 ∧ ∃ addr : BitVec 64, addr.toNat < 2 ^ 48 ∧
      pgd.ScansAt ops addr mfn := by
  rw [mem_scanned]
  refine and_congr_right fun _ => ⟨?_, ?_⟩
  · rintro ⟨pte, hpte, hpresent, hfile, rfl⟩
    obtain ⟨addr, haddr, hpte⟩ := hpgd.mem_ptes.mp hpte
    exact ⟨addr, haddr, pte, hpte, hpresent, hfile, (hops pte hpresent).symm⟩
  · rintro ⟨addr, haddr, pte, hpte, hpresent, hfile, rfl⟩
    exact ⟨pte, hpgd.mem_ptes.mpr ⟨addr, haddr, hpte⟩, hpresent, hfile, hops pte hpresent⟩

/-- In the user half the scan finds nothing that the process does not map. -/
theorem AddressSpace.maps_of_scansAt (space : AddressSpace ops.toPteOps) {pgd : PgdTable Pte}
    (htable : space.pgd = pgd.toPageTable) {addr mfn : BitVec 64} (haddr : addr.toNat < 2 ^ 47)
    (h : pgd.ScansAt ops addr mfn) : space.Maps mfn := by
  obtain ⟨pte, hpte, hpresent, -, hmfn⟩ := h
  rw [← htable] at hpte
  obtain ⟨vma, hvma, hin⟩ := space.present_inside addr haddr pte hpte hpresent
  exact ⟨vma, hvma, addr, hin.1, hin.2, pte, hpte, hpresent, hmfn⟩

/-- With an entry to list, and NULL in the `pfn_root` of the walk, `pfnlist(task, 1)` returns the
frames of `pfnlist_vmarea(task, 1, 0)`, in some order, exactly if every frame of the process has
an entry without the file bit, and a frame of the kernel half that has one is a frame of the
process too. -/
theorem scan_agrees_with_walk_iff (hops : ops.FramesAgree) (space : AddressSpace ops.toPteOps)
    {pgd : PgdTable Pte} (hpgd : PgdTable.Regular pgd) (htable : space.pgd = pgd.toPageTable)
    (hne : ∃ pte ∈ pgd.ptes, ops.ptePresent pte ∧ ops.pteFile pte = false ∧ ops.pfnToMfn pte ≠ 0)
    {h : PfnHeap} (hwalked : space.NodesServed kzalloc h)
    (hscanned : ScanServed ops kzalloc pgd h) (pfnTail : Option ℕ) :
    ∃ h₀ root₀ frames₀ h₁ root₁ frames₁,
      space.WalkReturns kzalloc ⟨h, none, pfnTail⟩ h₀ root₀ frames₀ ∧
      ScanReturns ops kzalloc pgd 1 h h₁ root₁ frames₁ ∧
      (frames₁.Perm frames₀ ↔
        (∀ mfn, mfn ≠ 0 → space.Maps mfn → ∃ addr : BitVec 64, addr.toNat < 2 ^ 48 ∧
          pgd.ScansAt ops addr mfn) ∧
        ∀ addr mfn : BitVec 64, 2 ^ 47 ≤ addr.toNat → addr.toNat < 2 ^ 48 → mfn ≠ 0 →
          pgd.ScansAt ops addr mfn → space.Maps mfn) := by
  obtain ⟨pte, hpte, hpresent, hfile, hzero⟩ := hne
  have hmem : ops.pfnToMfn pte ∈ scanned ops pgd :=
    (mem_scanned ops).mpr ⟨hzero, pte, hpte, hpresent, hfile, rfl⟩
  obtain ⟨h₀, root₀, frames₀, hwalk, -⟩ := space.exists_walkReturns hwalked pfnTail
  obtain ⟨h₁, root₁, frames₁, hscan, hframes₁, hnodup₁, -⟩ :=
    exists_scanReturns ops pgd (List.ne_nil_of_mem hmem) 1 hscanned
  obtain ⟨-, hnodup₀, hframes₀⟩ := hwalk.1
  refine ⟨h₀, root₀, frames₀, h₁, root₁, frames₁, hwalk, hscan, ?_⟩
  rw [List.perm_ext_iff_of_nodup (hnodup₁ (by decide)) hnodup₀]
  simp only [hframes₁, hframes₀, mem_scanned_iff_scansAt hops hpgd]
  constructor
  · intro hsame
    refine ⟨fun mfn hne hmaps => ((hsame mfn).mpr ⟨hne, hmaps⟩).2,
      fun addr mfn _ haddr hne hscans => ((hsame mfn).mp ⟨hne, addr, haddr, hscans⟩).2⟩
  · rintro ⟨hlisted, hkernel⟩ mfn
    refine and_congr_right fun hne => ⟨?_, hlisted mfn hne⟩
    rintro ⟨addr, haddr, hscans⟩
    by_cases huser : addr.toNat < 2 ^ 47
    · exact space.maps_of_scansAt htable huser hscans
    · exact hkernel addr mfn (Nat.not_lt.mp huser) haddr hne hscans

/-- The file bit of x86 is the dirty bit of a present entry.  Every machine frame has the number
of the frame that it backs. -/
def x86ScanOps : ScanOps (BitVec 64) where
  toPteOps := x86PteOps
  pteFile pte := pte.getLsbD 6
  pfnToMfn := x86PteOps.pteMfn

/-- A table with one entry, the first. -/
def firstEntry {Table : Type} (table : Table) : BitVec 9 → DirEntry Table := fun i =>
  if i = 0 then ⟨true, false, false, some table⟩ else ⟨false, true, false, none⟩

theorem firstEntry_regular {Table : Type} (table : Table) (i : BitVec 9) :
    (firstEntry table i).Regular := by
  rw [firstEntry]
  by_cases hi : i = 0
  · rw [if_pos hi]
    exact ⟨rfl, rfl, fun _ => Option.some_ne_none _⟩
  · rw [if_neg hi]
    exact ⟨rfl, rfl, fun h => by cases h⟩

theorem firstEntry_walk {Table : Type} (table : Table) (i : BitVec 9) :
    (firstEntry table i).walk = if i = 0 then some table else none := by
  rw [firstEntry]
  by_cases hi : i = 0
  · rw [if_pos hi, if_pos hi]
    rfl
  · rw [if_neg hi, if_neg hi]
    rfl

theorem mem_firstEntry {Table : Type} {table table' : Table} {i : BitVec 9}
    (h : table' ∈ (firstEntry table i).table) : table' = table := by
  rw [firstEntry] at h
  by_cases hi : i = 0
  · rw [if_pos hi] at h
    exact (Option.some.inj h).symm
  · rw [if_neg hi] at h
    cases h

/-- The table of `sharedSpace` with its upper levels. -/
def sharedPgd : PgdTable (BitVec 64) :=
  firstEntry (firstEntry (firstEntry fun l => if l = 1 ∨ l = 2 then 0x5001 else 0))

theorem sharedPgd_regular : PgdTable.Regular sharedPgd where
  pgds := firstEntry_regular _
  puds i pud hpud := by
    rw [mem_firstEntry hpud]
    exact firstEntry_regular _
  pmds i pud hpud j pmd hpmd := by
    rw [mem_firstEntry hpud] at hpmd
    rw [mem_firstEntry hpmd]
    exact firstEntry_regular _

theorem toPageTable_sharedPgd : PgdTable.toPageTable sharedPgd = sharedTable := by
  funext i
  rw [PgdTable.toPageTable, sharedTable, sharedPgd, firstEntry_walk]
  by_cases hi : i = 0
  · rw [if_pos hi, if_pos hi, Option.map_some]
    refine congrArg some (funext fun j => ?_)
    rw [firstEntry_walk]
    by_cases hj : j = 0
    · rw [if_pos hj, if_pos hj, Option.map_some]
      exact congrArg some (funext fun k => firstEntry_walk _ k)
    · rw [if_neg hj, if_neg hj, Option.map_none]
  · rw [if_neg hi, if_neg hi, Option.map_none]

theorem scan_agrees_with_walk_iff_sharedSpace :
    ∃ h₀ root₀ frames₀ h₁ root₁ frames₁,
      (sharedSpace none).WalkReturns kzallocLimited ⟨Heap.empty, none, none⟩ h₀ root₀ frames₀ ∧
      ScanReturns x86ScanOps kzallocLimited sharedPgd 1 Heap.empty h₁ root₁ frames₁ ∧
      (frames₁.Perm frames₀ ↔
        (∀ mfn, mfn ≠ 0 → (sharedSpace none).Maps mfn → ∃ addr : BitVec 64,
          addr.toNat < 2 ^ 48 ∧ PgdTable.ScansAt x86ScanOps sharedPgd addr mfn) ∧
        ∀ addr mfn : BitVec 64, 2 ^ 47 ≤ addr.toNat → addr.toNat < 2 ^ 48 → mfn ≠ 0 →
          PgdTable.ScansAt x86ScanOps sharedPgd addr mfn → (sharedSpace none).Maps mfn) := by
  have hpte : (0x5001 : BitVec 64) ∈ PgdTable.ptes sharedPgd :=
    sharedPgd_regular.mem_ptes.mpr ⟨0x1000, by decide, by rw [toPageTable_sharedPgd]; rfl⟩
  have hops : x86ScanOps.FramesAgree := fun _ _ => rfl
  exact scan_agrees_with_walk_iff hops (sharedSpace none) sharedPgd_regular
    toPageTable_sharedPgd.symm ⟨_, hpte, by decide, by decide, by decide⟩
    (sharedSpace_served none Heap.empty).nodes (fun _ _ => rfl) _

end Maitland
