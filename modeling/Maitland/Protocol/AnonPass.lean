import Maitland.Protocol.PageWalk

/-!
# The anonymous areas

With `anon` set, `pfnlist_vmarea` also walks the areas that share pages with each area.
Those may belong to other processes, but their addresses are looked up in the tables of the
process itself.
-/

namespace Maitland

open LinkedList MachineInt

variable {Pte : Type} (ops : PteOps Pte) {kzalloc : Kzalloc}

/-- `kzalloc` serves every node, the larger ones of the anonymous areas too. -/
def Kzalloc.ServesNodes (kzalloc : Kzalloc) : Prop :=
  ∀ a, kzalloc a sizeofPfnLlNode = true ∧ kzalloc a (sizeofPfnLlNode + 4) = true

theorem Kzalloc.ServesNodes.addMfn (hserves : kzalloc.ServesNodes) :
    WalkState.addMfn kzalloc (sizeofPfnLlNode + 4) = WalkState.addMfn kzalloc sizeofPfnLlNode := by
  funext st mfn
  obtain ⟨hnode, hanon⟩ := hserves st.heap.fresh
  rw [WalkState.addMfn, WalkState.addMfn, if_pos hnode, if_pos hanon]

/-- The addresses of an area of an `anon_vma`, as those of an area. -/
def AnonVma.toVma (area : AnonVma) : Vma := { vmStart := area.vmStart, vmEnd := area.vmEnd }

/-- The areas that the part under `if(anon)` walks over. -/
def Vma.anonAreas (vma : Vma) : List AnonVma :=
  if vma.anonVmaNodeEmpty then [] else (vma.anonVma.getD []).filter (·.writable)

/-- The frames of one round of `pfnlist_vmarea` with `anon`. -/
def anonProbed (table : PageTable Pte) (vma : Vma) : List (BitVec 64) :=
  probed ops table vma.vmEnd vma.halfPages ++
    vma.anonAreas.flatMap fun area => probed ops table area.vmEnd area.toVma.halfPages

theorem vmaWalk_eq (bytes : BitVec 64) (table : PageTable Pte) {vma : Vma}
    (hv : vma.WellFormed) {rounds : ℕ} (hrounds : vma.halfPages < rounds) (st : WalkState) :
    vmaWalk ops kzalloc bytes table rounds vma.vmStart vma.vmEnd st =
      (probed ops table vma.vmEnd vma.halfPages).foldlM (WalkState.addMfn kzalloc bytes) st := by
  have hbound := hv.user
  have hlen : pageSize / 2 * vma.halfPages < 2 ^ 63 := by
    rw [hv.halfPages_eq]
    omega
  rw [vmaWalk, hv.length_eq, vmaWalkLoop_eq ops kzalloc bytes table vma.vmEnd hlen hrounds]

theorem vmaWalks_eq (bytes : BitVec 64) (table : PageTable Pte) {areas : List AnonVma} {rounds : ℕ}
    (hareas : ∀ area ∈ areas, area.toVma.WellFormed ∧ area.toVma.halfPages < rounds)
    (st : WalkState) :
    areas.foldlM (fun st area =>
        vmaWalk ops kzalloc bytes table rounds area.vmStart area.vmEnd st) st =
      (areas.flatMap fun area =>
        probed ops table area.vmEnd area.toVma.halfPages).foldlM
          (WalkState.addMfn kzalloc bytes) st := by
  rw [foldlM_flatMap]
  induction areas generalizing st with
  | nil => rfl
  | cons area areas ih =>
    obtain ⟨hv, hrounds⟩ := hareas area (by simp)
    have hone : vmaWalk ops kzalloc bytes table rounds area.vmStart area.vmEnd st = _ :=
      vmaWalk_eq ops bytes table hv hrounds st
    rw [List.foldlM_cons, List.foldlM_cons, hone]
    exact congrArg (Except.bind _) (funext fun st₁ => ih (fun a ha => hareas a (by simp [ha])) st₁)

/-- The loop over the anonymous areas adds their frames, one by one. -/
theorem anonVmaWalk_eq (hserves : kzalloc.ServesNodes) (table : PageTable Pte) {vma : Vma}
    {rounds : ℕ}
    (hareas : ∀ area ∈ vma.anonAreas, area.toVma.WellFormed ∧ area.toVma.halfPages < rounds)
    (st : WalkState) :
    anonVmaWalk ops kzalloc table rounds vma st = (vma.anonAreas.flatMap fun area =>
      probed ops table area.vmEnd area.toVma.halfPages).foldlM
        (WalkState.addMfn kzalloc sizeofPfnLlNode) st := by
  rw [← hserves.addMfn, ← vmaWalks_eq ops _ table hareas, anonVmaWalk, Vma.anonAreas]
  cases vma.anonVma with
  | none =>
    rw [Option.getD_none, List.filter_nil, ite_self]
    rfl
  | some areas =>
    dsimp only [Option.getD_some]
    by_cases hempty : vma.anonVmaNodeEmpty = true
    · rw [if_pos hempty, if_pos hempty]
      rfl
    · rw [if_neg hempty, if_neg hempty]

/-- The walk over the areas from the `vmaCount`-th on, with the anonymous ones. -/
theorem vmareaLoop_anon_eq (hserves : kzalloc.ServesNodes) (table : PageTable Pte)
    {vmas : List Vma} (hne : vmas ≠ [])
    (hvmas : ∀ vma ∈ vmas, vma.WellFormed ∧ ∀ area ∈ vma.anonAreas, area.toVma.WellFormed)
    {vmaTotal : BitVec 32} {vmaCount : ℕ} (htotal : vmaTotal.toInt = vmaCount + vmas.length)
    {rounds : ℕ} (hrounds : ∀ vma : Vma, vma.WellFormed → vma.halfPages < rounds)
    (st : WalkState) :
    vmareaLoop ops kzalloc table rounds true vmaTotal vmas (BitVec.ofNat 32 vmaCount) st =
      (vmas.flatMap (anonProbed ops table)).foldlM
        (WalkState.addMfn kzalloc sizeofPfnLlNode) st := by
  induction vmas generalizing vmaCount st with
  | nil => exact absurd rfl hne
  | cons vma next ih =>
    obtain ⟨hv, hareas⟩ := hvmas vma (by simp)
    rw [vmareaLoop, vmaWalk_eq ops _ table hv (hrounds vma hv), List.flatMap_cons, anonProbed,
      List.append_assoc, List.foldlM_append]
    refine congrArg (Except.bind _) (funext fun st₁ => ?_)
    simp only [if_true]
    rw [anonVmaWalk_eq ops hserves table
      (fun area ha => ⟨hareas area ha, hrounds _ (hareas area ha)⟩) st₁, List.foldlM_append]
    refine congrArg (Except.bind _) (funext fun st₂ => ?_)
    cases next with
    | nil => exact if_neg fun hguard => hguard.1 rfl
    | cons vma' next =>
      have hlt : vmaTotal.toInt < 2 ^ 31 := BitVec.toInt_lt
      simp only [List.length_cons] at htotal
      have hcount : BitVec.ofNat 32 vmaCount + 1 = BitVec.ofNat 32 (vmaCount + 1) := by
        rw [BitVec.ofNat_add]
        rfl
      have hnext : vmaTotal.toInt = (vmaCount + 1 : ℕ) + (vma' :: next).length := by
        rw [htotal, List.length_cons]
        omega
      rw [hcount, if_pos ⟨List.cons_ne_nil _ _, by rw [toInt_ofNat_int (by omega)]; omega⟩]
      exact ih (List.cons_ne_nil _ _) (fun w hw => hvmas w (List.mem_cons_of_mem _ hw)) hnext st₂

variable {ops}

/-- The areas of the anonymous lists are areas of whole pages as well. -/
def AddressSpace.AnonWellFormed (space : AddressSpace ops) : Prop :=
  ∀ vma ∈ space.mmap, ∀ area ∈ vma.anonAreas, area.toVma.WellFormed

/-- A probe at any address of the user half finds nothing but frames of the process. -/
theorem AddressSpace.maps_of_probed (space : AddressSpace ops) {vma : Vma} (hv : vma.WellFormed)
    {mfn : BitVec 64} (h : mfn ∈ probed ops space.pgd vma.vmEnd vma.halfPages) :
    mfn ≠ 0 ∧ space.Maps mfn := by
  obtain ⟨hmem, hne⟩ := List.mem_filter.mp h
  obtain ⟨addr, hprobe, rfl⟩ := List.mem_map.mp hmem
  obtain ⟨pte, hpte, hpresent, hmfn⟩ := addrToMfn_ne_zero (of_decide_eq_true hne)
  obtain ⟨i, hi, rfl⟩ := mem_probes.mp hprobe
  have hend := hv.user
  have hlow := hv.toNat_probe hi
  obtain ⟨vma', hvma', hin⟩ := space.present_inside _ (by omega) pte hpte hpresent
  exact ⟨of_decide_eq_true hne, vma', hvma', _, hin.1, hin.2, pte, hpte, hpresent, hmfn⟩

theorem AddressSpace.mem_anonProbed (space : AddressSpace ops) (hanon : space.AnonWellFormed)
    {mfn : BitVec 64} :
    mfn ∈ space.mmap.flatMap (anonProbed ops space.pgd) ↔ mfn ≠ 0 ∧ space.Maps mfn := by
  constructor
  · intro h
    obtain ⟨vma, hvma, hmem⟩ := List.mem_flatMap.mp h
    rcases List.mem_append.mp hmem with hmem | hmem
    · exact space.maps_of_probed (space.wellFormed vma hvma) hmem
    · obtain ⟨area, harea, hmem⟩ := List.mem_flatMap.mp hmem
      exact space.maps_of_probed (hanon vma hvma area harea) hmem
  · intro h
    obtain ⟨vma, hvma, hmem⟩ := List.mem_flatMap.mp (space.mem_walked.mpr h)
    exact List.mem_flatMap.mpr ⟨vma, hvma, List.mem_append_left _ hmem⟩

theorem AddressSpace.exists_anon_call (space : AddressSpace ops) (hanon : space.AnonWellFormed)
    (hserves : kzalloc.ServesNodes) (h : PfnHeap) (pfnTail : Option ℕ) :
    ∃ h' root frames, space.Listed h' root frames ∧ ∃ enough, ∀ rounds, enough ≤ rounds →
      pfnlistVmarea ops kzalloc rounds (some space.toMmStruct) true true ⟨h, none, pfnTail⟩ =
        .ok (h', root) := by
  have hmem (mfn : BitVec 64) :
      mfn ∈ space.mmap.flatMap (anonProbed ops space.pgd) ↔ mfn ≠ 0 ∧ space.Maps mfn :=
    space.mem_anonProbed hanon
  obtain ⟨st, hwalk, -, nodes, hs, hnodes, -⟩ := (WalkState.lists_nil h pfnTail).addMfns
    (fun mfn hmfn => ((hmem mfn).mp hmfn).1) fun i _ => (hserves _).1
  rw [List.nil_append] at hnodes
  obtain ⟨h', gone, hs', -, -, -, hunique⟩ := pfnlistMkunique_spec hs
  have htotal : space.mapCount.toInt = (0 : ℕ) + space.mmap.length := by
    rw [space.mapCount_eq]
    omega
  refine ⟨h', st.pfnRoot, _, ⟨⟨_, hs', rfl⟩, nodup_values_firsts, fun mfn => ?_⟩,
    2 ^ 47 + nodes.length + 1, fun rounds hrounds => ?_⟩
  · rw [mem_values_firsts, hnodes, hmem]
  · have hareas : ∀ vma : Vma, vma.WellFormed → vma.halfPages < rounds := by
      intro vma hv
      have hend := hv.user
      have hhalf := hv.halfPages_eq
      rw [pageSize] at hhalf
      omega
    have hloop : vmareaLoop ops kzalloc space.pgd rounds true space.mapCount space.mmap 0
        ⟨h, none, pfnTail⟩ = .ok st :=
      (vmareaLoop_anon_eq ops hserves space.pgd space.mmap_ne_nil
        (fun vma hvma => ⟨space.wellFormed vma hvma, hanon vma hvma⟩) htotal hareas _).trans hwalk
    simp only [pfnlistVmarea, valid, bind, Except.bind, hloop, if_true,
      hunique rounds (by omega)]

/-- With NULL in `pfn_root`, `pfnlist_vmarea(task, 1, 1)` returns the frames that
`pfnlist_vmarea(task, 1, 0)` returns, in some order: the anonymous areas, of whatever processes,
add none. -/
theorem anon_pass_adds_no_frame (space : AddressSpace ops) (hanon : space.AnonWellFormed)
    (hserves : kzalloc.ServesNodes) (h : PfnHeap) (pfnTail : Option ℕ) :
    ∃ h₀ root₀ frames₀ h₁ root₁ frames₁,
      space.WalkReturns kzalloc ⟨h, none, pfnTail⟩ h₀ root₀ frames₀ ∧
      space.Listed h₁ root₁ frames₁ ∧ frames₁.Perm frames₀ ∧
      ∃ enough, ∀ rounds, enough ≤ rounds →
        pfnlistVmarea ops kzalloc rounds (some space.toMmStruct) true true ⟨h, none, pfnTail⟩ =
          .ok (h₁, root₁) := by
  obtain ⟨h₀, root₀, frames₀, hwalk, -⟩ :=
    space.exists_walkReturns (fun i _ => (hserves (h.fresh + i)).1) pfnTail
  obtain ⟨h₁, root₁, frames₁, hlisted, hcall⟩ := space.exists_anon_call hanon hserves h pfnTail
  refine ⟨h₀, root₀, frames₀, h₁, root₁, frames₁, hwalk, hlisted, ?_, hcall⟩
  obtain ⟨-, hnodup₀, hframes₀⟩ := hwalk.1
  obtain ⟨-, hnodup₁, hframes₁⟩ := hlisted
  refine (List.perm_ext_iff_of_nodup hnodup₁ hnodup₀).mpr fun mfn => ?_
  rw [hframes₀, hframes₁]

theorem kzallocLimited_servesNodes : kzallocLimited.ServesNodes := fun _ => ⟨rfl, rfl⟩

/-- An area that shares its pages with those of a child. -/
def childSpace : AddressSpace x86PteOps :=
  sharedSpace (some [⟨0x1000, 0x3000, true⟩, ⟨0x2000, 0x8000, true⟩])

theorem anon_pass_adds_no_frame_childSpace :
    ∃ h₀ root₀ frames₀ h₁ root₁ frames₁,
      childSpace.WalkReturns kzallocLimited ⟨Heap.empty, none, none⟩ h₀ root₀ frames₀ ∧
      childSpace.Listed h₁ root₁ frames₁ ∧ frames₁.Perm frames₀ ∧
      ∃ enough, ∀ rounds, enough ≤ rounds →
        pfnlistVmarea x86PteOps kzallocLimited rounds (some childSpace.toMmStruct) true true
          ⟨Heap.empty, none, none⟩ = .ok (h₁, root₁) := by
  refine anon_pass_adds_no_frame childSpace (fun vma hvma area harea => ?_)
    kzallocLimited_servesNodes _ _
  obtain rfl := List.mem_singleton.mp hvma
  rcases List.mem_pair.mp harea with rfl | rfl <;>
    exact ⟨by decide, by decide, by decide, by decide⟩

end Maitland
