import Mathlib.Data.Finset.Card
import Mathlib.Data.Finset.Dedup
import Maitland.Malpage.Walk

/-!
# The frames of a report

The walk over the memory of a process collects every frame that is mapped there, and
the report holds them all as long as their number fits an `int` and `kzalloc` serves what
is asked of it.
-/

namespace Maitland

open LinkedList MachineInt

variable {Pte : Type} {ops : PteOps Pte}

/-- The memory of a process: areas of whole pages, disjoint and in the order of their
addresses, as many as `map_count` says, with the present entries of the user half of the
page table inside them. -/
structure AddressSpace (ops : PteOps Pte) extends MmStruct Pte where
  mmap_ne_nil : mmap ≠ []
  wellFormed : ∀ vma ∈ mmap, vma.WellFormed
  sorted : mmap.Pairwise fun vma vma' => vma.vmEnd ≤ vma'.vmStart
  mapCount_eq : mapCount.toInt = mmap.length
  present_inside : ∀ addr : BitVec 64, addr.toNat < 2 ^ 47 →
    ∀ pte ∈ pgd.pte addr, ops.ptePresent pte →
      ∃ vma ∈ mmap, vma.vmStart ≤ addr ∧ addr < vma.vmEnd

namespace AddressSpace

variable (space : AddressSpace ops)

/-- A present entry of an area maps the frame. -/
def Maps (mfn : BitVec 64) : Prop :=
  ∃ vma ∈ space.mmap, ∃ addr, vma.vmStart ≤ addr ∧ addr < vma.vmEnd ∧
    ∃ pte ∈ space.pgd.pte addr, ops.ptePresent pte ∧ ops.pteMfn pte = mfn

/-- The list at `root` holds the frames that are mapped, each once and nothing else. -/
def Listed (h : PfnHeap) (root : Option ℕ) (frames : List (BitVec 64)) : Prop :=
  (∃ nodes : List (ℕ × BitVec 64), Segment h root nodes none ∧ nodes.map Prod.snd = frames) ∧
    frames.Nodup ∧ ∀ mfn, mfn ∈ frames ↔ mfn ≠ 0 ∧ space.Maps mfn

/-- The frames that the walk finds, one for each node that it allocates. -/
def walk : List (BitVec 64) := walked ops space.pgd space.mmap

/-- The frames of a process. -/
def frames : Finset (BitVec 64) := space.walk.toFinset

/-- `kzalloc` serves the nodes of the walk. -/
def NodesServed (kzalloc : Kzalloc) (h : PfnHeap) : Prop :=
  kzalloc.Serves sizeofPfnLlNode h.fresh space.walk.length

/-- `kzalloc` serves what a report of the process asks for: the report itself, a node for each
probe that finds a frame, and two arrays with an element for each frame, if there is any. -/
structure Served (kzalloc : Kzalloc) (h : PfnHeap) : Prop where
  report : kzalloc h.fresh sizeofProcessReport = true
  nodes : space.NodesServed kzalloc h
  pfnList : 0 < space.frames.card →
    kzalloc (h.fresh + space.walk.length) (BitVec.ofNat 64 (8 * space.frames.card)) = true
  grefList : 0 < space.frames.card →
    kzalloc (h.fresh + space.walk.length) (BitVec.ofNat 64 (4 * space.frames.card)) = true

/-- `pfnlist_vmarea(task, 1, 0)` ends and returns such a list. -/
def WalkReturns (kzalloc : Kzalloc) (st : WalkState) (h : PfnHeap) (root : Option ℕ)
    (frames : List (BitVec 64)) : Prop :=
  space.Listed h root frames ∧ ∃ enough, ∀ rounds, enough ≤ rounds →
    pfnlistVmarea ops kzalloc rounds (some space.toMmStruct) true false st = .ok (h, root)

/-- `malpage_generate_report` ends and returns a report of these frames. -/
def Reports (kzalloc : Kzalloc) (st : WalkState) (pid : BitVec 32) (h : PfnHeap)
    (frames : List (BitVec 64)) : Prop :=
  ∃ rep : GuestReport, rep.processId = pid ∧ rep.pfnListLength.toNat = frames.length ∧
    rep.pfnList = frames ∧ rep.grefList.length = frames.length ∧
    ∃ enough, ∀ rounds, enough ≤ rounds →
      malpageGenerateReport ops kzalloc rounds pid (some space.toMmStruct) st = .ok (h, rep)

end AddressSpace

theorem addrToMfn_ne_zero {table : PageTable Pte} {addr : BitVec 64}
    (h : addrToMfn ops table addr ≠ 0) :
    ∃ pte ∈ table.pte addr, ops.ptePresent pte ∧ ops.pteMfn pte = addrToMfn ops table addr := by
  rw [addrToMfn_eq] at h ⊢
  cases hpte : (table.pte addr).filter ops.ptePresent with
  | none => rw [hpte] at h; exact absurd rfl h
  | some pte =>
    obtain ⟨hpte, hpresent⟩ := Option.filter_eq_some_iff.mp hpte
    exact ⟨pte, hpte, hpresent, rfl⟩

theorem addrToMfn_of_present {table : PageTable Pte} {addr : BitVec 64} {pte : Pte}
    (hpte : pte ∈ table.pte addr) (hpresent : ops.ptePresent pte) :
    addrToMfn ops table addr = ops.pteMfn pte := by
  rw [addrToMfn_eq, Option.filter_eq_some_iff.mpr ⟨hpte, hpresent⟩]
  rfl

theorem Vma.WellFormed.toNat_probe {vma : Vma} (hv : vma.WellFormed) {i : ℕ}
    (hi : i ≤ vma.halfPages) :
    (vma.vmEnd - BitVec.ofNat 64 (pageSize / 2 * i)).toNat =
      vma.vmEnd.toNat - pageSize / 2 * i := by
  have hle := Nat.mul_le_mul_left (pageSize / 2) hi
  rw [hv.halfPages_eq] at hle
  have hend := hv.user
  have hoff : (BitVec.ofNat 64 (pageSize / 2 * i)).toNat = pageSize / 2 * i :=
    toNat_ofNat_of_lt (by omega)
  rw [BitVec.toNat_sub_of_le (by rw [BitVec.le_def, hoff]; omega), hoff]

/-- Every page of an area is probed at its start. -/
theorem Vma.WellFormed.exists_probe {vma : Vma} (hv : vma.WellFormed) {addr : BitVec 64}
    (hstart : vma.vmStart ≤ addr) (hend : addr < vma.vmEnd) :
    ∃ probe ∈ probes vma.vmEnd vma.halfPages, probe >>> 12 = addr >>> 12 := by
  rw [BitVec.le_def] at hstart
  rw [BitVec.lt_def] at hend
  obtain ⟨a, ha⟩ := hv.start_aligned
  obtain ⟨b, hb⟩ := hv.end_aligned
  have hhalf := hv.halfPages_eq
  rw [pageSize] at ha hb hhalf
  -- The distance of the page from the end, in half pages.
  have hi : 2 * (b - addr.toNat / 4096) ≤ vma.halfPages := by omega
  refine ⟨_, mem_probes.mpr ⟨_, hi, rfl⟩, BitVec.eq_of_toNat_eq ?_⟩
  rw [BitVec.toNat_ushiftRight, BitVec.toNat_ushiftRight, hv.toNat_probe hi,
    Nat.shiftRight_eq_div_pow, Nat.shiftRight_eq_div_pow, pageSize]
  omega

/-- The walk finds exactly the frames that are mapped: what the probe of an end finds is
in another area. -/
theorem AddressSpace.mem_walked (space : AddressSpace ops) {mfn : BitVec 64} :
    mfn ∈ walked ops space.pgd space.mmap ↔ mfn ≠ 0 ∧ space.Maps mfn := by
  simp only [walked, probed, List.mem_flatMap, List.mem_filter, List.mem_map, decide_eq_true_eq]
  constructor
  · rintro ⟨vma, hvma, ⟨addr, hprobe, rfl⟩, hne⟩
    obtain ⟨pte, hpte, hpresent, hmfn⟩ := addrToMfn_ne_zero hne
    obtain ⟨i, hi, rfl⟩ := mem_probes.mp hprobe
    have hv := space.wellFormed vma hvma
    have hend := hv.user
    have hlow := hv.toNat_probe hi
    obtain ⟨vma', hvma', hin⟩ := space.present_inside _ (by omega) pte hpte hpresent
    exact ⟨hne, vma', hvma', _, hin.1, hin.2, pte, hpte, hpresent, hmfn⟩
  · rintro ⟨hne, vma, hvma, addr, hstart, hend, pte, hpte, hpresent, rfl⟩
    obtain ⟨probe, hprobe, hpage⟩ := (space.wellFormed vma hvma).exists_probe hstart hend
    refine ⟨vma, hvma, ⟨probe, hprobe, ?_⟩, hne⟩
    rw [addrToMfn_congr ops hpage, addrToMfn_of_present hpte hpresent]

namespace AddressSpace

variable (space : AddressSpace ops) {kzalloc : Kzalloc} {h : PfnHeap}

theorem walk_ne_zero : ∀ mfn ∈ space.walk, mfn ≠ 0 :=
  fun _ hmfn => mem_walked_ne_zero ops hmfn

theorem mem_frames {mfn : BitVec 64} : mfn ∈ space.frames ↔ mfn ≠ 0 ∧ space.Maps mfn := by
  rw [frames, List.mem_toFinset, walk, space.mem_walked]

/-- A list of the frames has an element for each. -/
theorem Listed.length_eq {space : AddressSpace ops} {root : Option ℕ} {frames : List (BitVec 64)}
    (hlisted : space.Listed h root frames) : frames.length = space.frames.card := by
  obtain ⟨-, hnodup, hframes⟩ := hlisted
  rw [← List.toFinset_card_of_nodup hnodup]
  refine congrArg Finset.card (Finset.ext fun mfn => ?_)
  rw [List.mem_toFinset, hframes, space.mem_frames]

/-- Whatever the locals hold, the call adds the frames of the areas one by one and then
removes the duplicates. -/
theorem pfnlistVmarea_eq (kzalloc : Kzalloc) {rounds : ℕ} (hrounds : 2 ^ 47 ≤ rounds)
    (st : WalkState) :
    pfnlistVmarea ops kzalloc rounds (some space.toMmStruct) true false st =
      (space.walk.foldlM (WalkState.addMfn kzalloc sizeofPfnLlNode) st).bind fun st' =>
        (pfnlistMkunique rounds st'.heap st'.pfnRoot).map fun r => (r.1, st'.pfnRoot) := by
  have htotal : space.mapCount.toInt = (0 : ℕ) + space.mmap.length := by
    rw [space.mapCount_eq]
    omega
  have hareas : ∀ vma ∈ space.mmap, vma.halfPages < rounds := by
    intro vma hvma
    have hv := space.wellFormed vma hvma
    have hend := hv.user
    have hhalf := hv.halfPages_eq
    rw [pageSize] at hhalf
    omega
  rw [walk, ← vmareaLoop_eq ops kzalloc space.pgd space.mmap_ne_nil space.wellFormed htotal hareas
    st]
  rfl

/-- The walk and the removal of duplicates, from an empty list. -/
theorem exists_walkReturns (hnodes : space.NodesServed kzalloc h) (pfnTail : Option ℕ) :
    ∃ h' root frames, space.WalkReturns kzalloc ⟨h, none, pfnTail⟩ h' root frames ∧
      h'.fresh = h.fresh + space.walk.length := by
  obtain ⟨st, hwalk, hfresh, nodes, hs, hnodes, -⟩ :=
    (WalkState.lists_nil h pfnTail).addMfns space.walk_ne_zero hnodes
  rw [List.nil_append] at hnodes
  obtain ⟨h', gone, hs', hfresh', -, -, hunique⟩ := pfnlistMkunique_spec hs
  refine ⟨h', st.pfnRoot, _, ⟨⟨⟨_, hs', rfl⟩, nodup_values_firsts, fun mfn => ?_⟩,
    2 ^ 47 + nodes.length + 1, fun rounds hrounds => ?_⟩, hfresh'.trans hfresh⟩
  · rw [mem_values_firsts, hnodes, walk, space.mem_walked]
  · rw [space.pfnlistVmarea_eq kzalloc (by omega), hwalk]
    simp only [Except.bind, Except.map, hunique rounds (by omega)]

/-- The report of a list whose length is in the range of an `int`. -/
theorem WalkReturns.reports {space : AddressSpace ops} {st : WalkState} {root : Option ℕ}
    {frames : List (BitVec 64)} (hwalk : space.WalkReturns kzalloc st h root frames)
    (hfresh : h.fresh = st.heap.fresh + space.walk.length) (hlen : frames.length < 2 ^ 31)
    (hserved : space.Served kzalloc st.heap) (pid : BitVec 32) :
    space.Reports kzalloc st pid h frames := by
  have hcard := hwalk.1.length_eq
  obtain ⟨⟨⟨nodes, hs, rfl⟩, -⟩, enough, hloop⟩ := hwalk
  rw [List.length_map] at hlen hcard
  have htoNat : (BitVec.ofNat 32 nodes.length).toNat = nodes.length :=
    toNat_ofNat_of_lt (by omega)
  have hpfns : 0 < nodes.length →
      kzalloc h.fresh (BitVec.ofNat 64 (8 * nodes.length)) = true := by
    rw [hfresh, hcard]
    exact hserved.pfnList
  have hgrefs : (kzallocArray kzalloc h (4 * (BitVec.ofNat 32 nodes.length).setWidth 64) :
      List (BitVec 32)) = List.replicate nodes.length 0 := by
    have hbytes : 4 * (BitVec.ofNat 32 nodes.length).setWidth 64 =
        BitVec.ofNat 64 (4 * nodes.length) := by
      apply BitVec.eq_of_toNat_eq
      rw [BitVec.toNat_mul, BitVec.toNat_setWidth, htoNat, BitVec.toNat_ofNat,
        show (4 : BitVec 64).toNat = 4 from rfl]
      omega
    rw [hbytes]
    refine kzallocArray_eq (by decide) (toNat_ofNat_of_lt (by omega)) fun hpos => ?_
    rw [hfresh, hcard]
    exact hserved.grefList (hcard ▸ hpos)
  refine ⟨⟨pid, 0, nodes.map Prod.snd, List.replicate nodes.length 0,
    BitVec.ofNat 32 nodes.length⟩, rfl, by rw [htoNat, List.length_map], rfl,
    by rw [List.length_replicate, List.length_map], enough + nodes.length + 1,
    fun rounds hrounds => ?_⟩
  have hnodes : nodes.length < rounds := by omega
  rw [malpageGenerateReport, if_pos hserved.report]
  simp only [bind, Except.bind, hloop rounds (by omega), pfnlistSize_spec hs hnodes,
    pfnlistMkarray_spec hs hlen hpfns hnodes, hgrefs]

end AddressSpace

/-- From an empty list the walk ends with every frame that is mapped, each once and nothing
else, and with fewer than `2 ^ 31` of them the report holds them all, as long as `kzalloc`
serves what is asked of it. -/
theorem page_walk_reports_every_frame_once (space : AddressSpace ops) {kzalloc : Kzalloc}
    {h : PfnHeap} (hnodes : space.NodesServed kzalloc h) (pfnTail : Option ℕ)
    (pid : BitVec 32) :
    ∃ h' root frames, space.WalkReturns kzalloc ⟨h, none, pfnTail⟩ h' root frames ∧
      (frames.length < 2 ^ 31 → space.Served kzalloc h →
        space.Reports kzalloc ⟨h, none, pfnTail⟩ pid h' frames) := by
  obtain ⟨h', root, frames, hwalk, hfresh⟩ := space.exists_walkReturns hnodes pfnTail
  exact ⟨h', root, frames, hwalk, fun hlen hserved => hwalk.reports hfresh hlen hserved pid⟩

/-- The entries of x86-64: bits 0 and 8 tell whether the page is there, the bits from 12
to 51 are its frame. -/
def x86PteOps : PteOps (BitVec 64) where
  pteNone pte := pte == 0
  ptePresent pte := pte.getLsbD 0 || pte.getLsbD 8
  pteMfn pte := ((pte >>> 12).setWidth 40).setWidth 64
  not_none_of_present pte h := by
    by_contra hnone
    obtain rfl : pte = 0 := by simpa using hnone
    simp at h

/-- An entry that maps a page to the frame of its own number, up to `2 ^ 32`. -/
def identityPte (page : ℕ) : BitVec 64 :=
  if 1 ≤ page ∧ page ≤ 2 ^ 32 then BitVec.ofNat 64 (4096 * page + 1) else 0

def identityTable : PageTable (BitVec 64) := fun i => some fun j => some fun k => some fun l =>
  identityPte (((i.toNat * 512 + j.toNat) * 512 + k.toNat) * 512 + l.toNat)

theorem toNat_tableIndex (shift : ℕ) (addr : BitVec 64) :
    (tableIndex shift addr).toNat = addr.toNat / 2 ^ shift % 512 := by
  rw [tableIndex, BitVec.toNat_setWidth, BitVec.toNat_ushiftRight, Nat.shiftRight_eq_div_pow]

theorem identityTable_pte {addr : BitVec 64} (h : addr.toNat < 2 ^ 47) :
    identityTable.pte addr = some (identityPte (addr.toNat / 4096)) := by
  have hpage : (((tableIndex 39 addr).toNat * 512 + (tableIndex 30 addr).toNat) * 512 +
      (tableIndex 21 addr).toNat) * 512 + (tableIndex 12 addr).toNat = addr.toNat / 4096 := by
    simp only [toNat_tableIndex]
    omega
  exact congrArg (fun page => some (identityPte page)) hpage

theorem ptePresent_identityPte {page : ℕ} :
    x86PteOps.ptePresent (identityPte page) ↔ 1 ≤ page ∧ page ≤ 2 ^ 32 := by
  by_cases hpage : 1 ≤ page ∧ page ≤ 2 ^ 32
  · have hbit : (BitVec.ofNat 64 (4096 * page + 1)).getLsbD 0 = true := by
      rw [BitVec.getLsbD_ofNat, Nat.testBit_zero]
      simp
      omega
    rw [identityPte, if_pos hpage]
    exact iff_of_true (by simp only [x86PteOps, hbit, Bool.true_or]) hpage
  · rw [identityPte, if_neg hpage]
    exact iff_of_false (by decide) hpage

theorem pteMfn_identityPte {page : ℕ} (h : 1 ≤ page ∧ page ≤ 2 ^ 32) :
    x86PteOps.pteMfn (identityPte page) = BitVec.ofNat 64 page := by
  apply BitVec.eq_of_toNat_eq
  simp only [x86PteOps, identityPte, if_pos h, BitVec.toNat_setWidth, BitVec.toNat_ushiftRight,
    BitVec.toNat_ofNat, Nat.shiftRight_eq_div_pow]
  omega

/-- One area of `2 ^ 32` pages, every one mapped to a frame of its own. -/
def hugeSpace : AddressSpace x86PteOps where
  mmap := [{ vmStart := 0x1000, vmEnd := 0x100000001000 }]
  mapCount := 1
  pgd := identityTable
  mmap_ne_nil := List.cons_ne_nil _ _
  wellFormed := by
    intro vma hvma
    obtain rfl := List.mem_singleton.mp hvma
    exact ⟨by decide, by decide, by decide, by decide⟩
  sorted := List.pairwise_singleton _ _
  mapCount_eq := rfl
  present_inside addr haddr pte hpte hpresent := by
    rw [identityTable_pte haddr] at hpte
    obtain rfl := Option.some.inj hpte
    have hpage := ptePresent_identityPte.mp hpresent
    refine ⟨_, List.mem_singleton.mpr rfl, ?_, ?_⟩
    · rw [BitVec.le_def, show (0x1000 : BitVec 64).toNat = 0x1000 from rfl]
      omega
    · rw [BitVec.lt_def, show (0x100000001000 : BitVec 64).toNat = 0x100000001000 from rfl]
      omega

theorem hugeSpace_maps {page : ℕ} (h : 1 ≤ page ∧ page ≤ 2 ^ 32) :
    hugeSpace.Maps (BitVec.ofNat 64 page) := by
  have haddr : (BitVec.ofNat 64 (4096 * page)).toNat = 4096 * page :=
    toNat_ofNat_of_lt (by omega)
  have hpte : identityTable.pte (BitVec.ofNat 64 (4096 * page)) = some (identityPte page) := by
    rw [identityTable_pte (by omega), haddr, Nat.mul_div_cancel_left page (by omega)]
  have hpresent := ptePresent_identityPte.mpr h
  -- That the page lies in the area is a field of the address space.
  obtain ⟨vma, hvma, hin⟩ := hugeSpace.present_inside _ (by omega) _ hpte hpresent
  exact ⟨vma, hvma, _, hin.1, hin.2, _, hpte, hpresent, pteMfn_identityPte h⟩

/-- A list with the frames `1` to `n` has at least `n` elements. -/
theorem le_length_of_mem {frames : List (BitVec 64)} {n : ℕ} (hn : n < 2 ^ 64)
    (h : ∀ page, 1 ≤ page ∧ page ≤ n → BitVec.ofNat 64 page ∈ frames) : n ≤ frames.length := by
  have hnodup : ((List.range' 1 n).map (BitVec.ofNat 64)).Nodup := by
    refine List.Nodup.map_on (fun a ha b hb hab => ?_) List.nodup_range'
    rw [List.mem_range'_1] at ha hb
    have := congrArg BitVec.toNat hab
    rw [BitVec.toNat_ofNat, BitVec.toNat_ofNat] at this
    omega
  have hsub : (List.range' 1 n).map (BitVec.ofNat 64) ⊆ frames := by
    intro mfn hmfn
    obtain ⟨page, hpage, rfl⟩ := List.mem_map.mp hmfn
    rw [List.mem_range'_1] at hpage
    exact h page (by omega)
  simpa using (List.subperm_of_subset hnodup hsub).length_le

/-- No report has room for the frames of `hugeSpace`, whatever `kzalloc` serves. -/
theorem page_walk_outgrows_report :
    ¬∃ kzalloc h root frames,
      hugeSpace.WalkReturns kzalloc ⟨Heap.empty, none, none⟩ h root frames ∧
      hugeSpace.Reports kzalloc ⟨Heap.empty, none, none⟩ 1 h frames := by
  rintro ⟨kzalloc, h, root, frames, hwalk, rep, -, hlen, -⟩
  have hle : 2 ^ 32 ≤ frames.length := by
    refine le_length_of_mem (by decide) fun page hpage => (hwalk.1.2.2 _).mpr ⟨?_, ?_⟩
    · rw [Ne, ← BitVec.toNat_inj, BitVec.toNat_ofNat]
      simp only [BitVec.ofNat_eq_ofNat, BitVec.toNat_ofNat]
      omega
    · exact hugeSpace_maps hpage
  have hlt := rep.pfnListLength.isLt
  omega

/-- Pages 1 and 2 share frame 5. -/
def sharedTable : PageTable (BitVec 64) := fun i => if i = 0 then some fun j =>
  if j = 0 then some fun k => if k = 0 then some fun l => if l = 1 ∨ l = 2 then 0x5001 else 0
    else none else none else none

theorem sharedTable_pte {addr pte : BitVec 64} (haddr : addr.toNat < 2 ^ 47)
    (hpte : pte ∈ sharedTable.pte addr) (hpresent : x86PteOps.ptePresent pte) :
    (addr.toNat / 4096 = 1 ∨ addr.toNat / 4096 = 2) ∧ pte = 0x5001 := by
  have hindex : ∀ shift n, tableIndex shift addr = BitVec.ofNat 9 n →
      addr.toNat / 2 ^ shift % 512 = n % 512 := fun shift n h => by
    rw [← toNat_tableIndex, h, BitVec.toNat_ofNat]
  rw [PageTable.pte, sharedTable] at hpte
  by_cases hi : tableIndex 39 addr = 0
  · rw [if_pos hi] at hpte
    by_cases hj : tableIndex 30 addr = 0
    · simp only [Option.bind_eq_bind, Option.bind_some, if_pos hj] at hpte
      by_cases hk : tableIndex 21 addr = 0
      · rw [if_pos hk, Option.bind_some] at hpte
        obtain rfl := Option.some.inj hpte
        by_cases hl : tableIndex 12 addr = 1 ∨ tableIndex 12 addr = 2
        · simp only [if_pos hl, and_true]
          have h₀ := hindex 39 0 hi
          have h₁ := hindex 30 0 hj
          have h₂ := hindex 21 0 hk
          have h₃ := hl.imp (hindex 12 1) (hindex 12 2)
          omega
        · simp only [if_neg hl] at hpresent
          cases hpresent
      · rw [if_neg hk] at hpte
        cases hpte
    · simp only [Option.bind_eq_bind, Option.bind_some, if_neg hj] at hpte
      cases hpte
  · rw [if_neg hi] at hpte
    cases hpte

def sharedSpace (anonVma : Option (List AnonVma)) : AddressSpace x86PteOps where
  mmap := [{ vmStart := 0x1000, vmEnd := 0x3000, anonVmaNodeEmpty := false, anonVma := anonVma }]
  mapCount := 1
  pgd := sharedTable
  mmap_ne_nil := List.cons_ne_nil _ _
  wellFormed := by
    intro vma hvma
    obtain rfl := List.mem_singleton.mp hvma
    exact ⟨⟨1, rfl⟩, ⟨3, rfl⟩, show (0x1000 : BitVec 64) < 0x3000 by decide,
      show (0x3000 : BitVec 64).toNat < 2 ^ 47 by decide⟩
  sorted := List.pairwise_singleton _ _
  mapCount_eq := rfl
  present_inside addr haddr pte hpte hpresent := by
    obtain ⟨hpage, -⟩ := sharedTable_pte haddr hpte hpresent
    refine ⟨_, List.mem_singleton.mpr rfl, ?_, ?_⟩
    · rw [BitVec.le_def, show (0x1000 : BitVec 64).toNat = 0x1000 from rfl]
      omega
    · rw [BitVec.lt_def, show (0x3000 : BitVec 64).toNat = 0x3000 from rfl]
      omega

theorem sharedSpace_maps {anonVma : Option (List AnonVma)} {mfn : BitVec 64}
    (h : (sharedSpace anonVma).Maps mfn) : mfn = 5 := by
  obtain ⟨vma, hvma, addr, hstart, hend, pte, hpte, hpresent, rfl⟩ := h
  have hv := (sharedSpace anonVma).wellFormed vma hvma
  obtain ⟨-, rfl⟩ := sharedTable_pte (Nat.lt_trans (BitVec.lt_def.mp hend) hv.user) hpte hpresent
  rfl

theorem sharedSpace_frames (anonVma : Option (List AnonVma)) :
    (sharedSpace anonVma).frames ⊆ {5} := fun _ hmfn =>
  Finset.mem_singleton.mpr (sharedSpace_maps ((sharedSpace anonVma).mem_frames.mp hmfn).2)

/-- Requests are served up to 4 MiB. -/
def kzallocLimited : Kzalloc := fun _ bytes => bytes.toNat ≤ 4 * 1024 * 1024

theorem sharedSpace_served (anonVma : Option (List AnonVma)) (h : PfnHeap) :
    (sharedSpace anonVma).Served kzallocLimited h := by
  have hcard := Finset.card_le_card (sharedSpace_frames anonVma)
  rw [Finset.card_singleton] at hcard
  have hbytes : ∀ a n, n ≤ 8 → kzallocLimited a (BitVec.ofNat 64 n) = true := fun a n hn => by
    rw [kzallocLimited, toNat_ofNat_of_lt (by omega), decide_eq_true_eq]
    omega
  exact ⟨rfl, fun _ _ => rfl, fun _ => hbytes _ _ (by omega), fun _ => hbytes _ _ (by omega)⟩

theorem page_walk_reports_every_frame_once_sharedSpace :
    ∃ h' root frames,
      (sharedSpace none).WalkReturns kzallocLimited ⟨Heap.empty, none, none⟩ h' root frames ∧
      (sharedSpace none).Reports kzallocLimited ⟨Heap.empty, none, none⟩ 1 h' frames := by
  have hserved := sharedSpace_served none Heap.empty
  obtain ⟨h', root, frames, hwalk, hreports⟩ :=
    page_walk_reports_every_frame_once (sharedSpace none) hserved.nodes none 1
  have hcard := Finset.card_le_card (sharedSpace_frames none)
  rw [Finset.card_singleton, ← hwalk.1.length_eq] at hcard
  exact ⟨h', root, frames, hwalk, hreports (by omega) hserved⟩

end Maitland
