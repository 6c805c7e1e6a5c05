import Mathlib.Algebra.BigOperators.Group.List.Basic
import Mathlib.Algebra.GroupWithZero.Nat
import Maitland.Library.HeapLife
import Maitland.Protocol.ReportSafety

/-!
# What a report leaves behind

The call of `free_pfn_ll` in `malpage_generate_report` is commented out.  How many nodes stay
allocated over a run of reports, and what the call would free.
-/

namespace Maitland

open LinkedList LinkedList.Heap

variable {Pte : Type} {ops : PteOps Pte} {kzalloc : Kzalloc}

section Operations

variable {h h' : PfnHeap} {p q : Option ℕ}

theorem tracked_storeNext (ht : h.Tracked) (hstore : storeNext h p q = .ok h') :
    h'.Tracked ∧ h'.fresh = h.fresh ∧ h'.freed = h.freed := by
  cases p with
  | none => cases hstore
  | some a =>
    rw [storeNext, Option.bind_some] at hstore
    cases hset : h.setNext a q with
    | none => rw [hset] at hstore; cases hstore
    | some h₁ =>
      rw [hset] at hstore
      obtain rfl := Except.ok.inj hstore
      exact ht.setNext hset

theorem tracked_kfree (ht : h.Tracked) (hfree : kfree h p = .ok h') : h'.Tracked := by
  cases p with
  | none => cases hfree
  | some a =>
    rw [kfree, Option.bind_some] at hfree
    cases hset : h.free a with
    | none => rw [hset] at hfree; cases hfree
    | some h₁ =>
      rw [hset] at hfree
      obtain rfl := Except.ok.inj hfree
      exact (ht.free hset).1

theorem pfnlistMkuniqueInner_tracked {rounds front n : ℕ} {removed : BitVec 32}
    {r : PfnHeap × BitVec 32} (ht : h.Tracked)
    (hloop : pfnlistMkuniqueInner rounds front n h removed = .ok r) : r.1.Tracked := by
  induction n generalizing h removed with
  | zero => cases hloop
  | succ n ih =>
    obtain ⟨node, -, hloop⟩ := bind_ok hloop
    obtain ⟨parent, -, hloop⟩ := bind_ok hloop
    cases parent with
    | none =>
      obtain rfl := Except.ok.inj hloop
      exact ht
    | some tmp =>
      obtain ⟨tmpNode, -, hloop⟩ := bind_ok hloop
      obtain ⟨needleNode, -, hloop⟩ := bind_ok hloop
      obtain ⟨unlinked, hstore, hloop⟩ := bind_ok hloop
      obtain ⟨freed, hfree, hloop⟩ := bind_ok hloop
      exact ih (tracked_kfree (tracked_storeNext ht hstore).1 hfree) hloop

theorem pfnlistMkuniqueLoop_tracked {rounds n : ℕ} {removed : BitVec 32}
    {r : PfnHeap × BitVec 32} (ht : h.Tracked)
    (hloop : pfnlistMkuniqueLoop rounds n h p removed = .ok r) : r.1.Tracked := by
  induction n generalizing h p removed with
  | zero => cases hloop
  | succ n ih =>
    cases p with
    | none =>
      obtain rfl := Except.ok.inj hloop
      exact ht
    | some front =>
      obtain ⟨⟨h₁, removed₁⟩, hinner, hloop⟩ := bind_ok hloop
      obtain ⟨node, -, hloop⟩ := bind_ok hloop
      exact ih (pfnlistMkuniqueInner_tracked ht hinner) hloop

theorem freePfnLl_tracked {rounds : ℕ} (ht : h.Tracked) (hcall : freePfnLl rounds h p = .ok h') :
    h'.Tracked := by
  induction rounds generalizing h p with
  | zero => cases hcall
  | succ n ih =>
    cases p with
    | none =>
      obtain rfl := Except.ok.inj hcall
      exact ht
    | some a =>
      obtain ⟨node, -, hcall⟩ := bind_ok hcall
      obtain ⟨h₁, hfree, hcall⟩ := bind_ok hcall
      exact ih (tracked_kfree ht hfree) hcall

variable {bytes : BitVec 64} {st st' : WalkState}

theorem WalkState.addMfn_tracked {mfn : BitVec 64} (ht : st.heap.Tracked) (hne : mfn ≠ 0)
    (hadd : st.addMfn kzalloc bytes mfn = .ok st') :
    st'.heap.Tracked ∧ st'.heap.freed = st.heap.freed := by
  have halloc := ht.alloc mfn
  rw [st.addMfn_of_ne_zero hne (WalkState.served_of_addMfn hne hadd).1] at hadd
  cases hroot : st.pfnRoot with
  | none =>
    rw [hroot] at hadd
    obtain rfl := Except.ok.inj hadd
    exact ⟨halloc, rfl⟩
  | some r =>
    rw [hroot] at hadd
    obtain ⟨h₁, hstore₁, hadd⟩ := bind_ok hadd
    obtain ⟨h₂, hstore₂, hadd⟩ := bind_ok hadd
    obtain rfl := Except.ok.inj hadd
    obtain ⟨ht₁, -, hfreed₁⟩ := tracked_storeNext halloc hstore₁
    obtain ⟨ht₂, -, hfreed₂⟩ := tracked_storeNext ht₁ hstore₂
    exact ⟨ht₂, hfreed₂.trans hfreed₁⟩

theorem WalkState.addMfns_tracked {mfns : List (BitVec 64)} (ht : st.heap.Tracked)
    (hmfns : ∀ mfn ∈ mfns, mfn ≠ 0)
    (hwalk : mfns.foldlM (WalkState.addMfn kzalloc bytes) st = .ok st') :
    st'.heap.Tracked ∧ st'.heap.freed = st.heap.freed := by
  induction mfns generalizing st with
  | nil =>
    obtain rfl := Except.ok.inj hwalk
    exact ⟨ht, rfl⟩
  | cons mfn mfns ih =>
    rw [List.foldlM_cons] at hwalk
    obtain ⟨st₁, hadd, hwalk⟩ := bind_ok hwalk
    obtain ⟨ht₁, hfreed₁⟩ := WalkState.addMfn_tracked ht (hmfns mfn (by simp)) hadd
    obtain ⟨ht', hfreed'⟩ := ih ht₁ (fun m hm => hmfns m (List.mem_cons_of_mem _ hm)) hwalk
    exact ⟨ht', hfreed'.trans hfreed₁⟩

end Operations

theorem map_fst_nodesFrom (a : ℕ) (mfns : List (BitVec 64)) :
    (nodesFrom a mfns).map Prod.fst = List.range' a mfns.length := by
  induction mfns generalizing a with
  | nil => rfl
  | cons mfn mfns ih => rw [nodesFrom, List.map_cons, ih, List.length_cons, List.range'_succ]

theorem map_snd_nodesFrom (a : ℕ) (mfns : List (BitVec 64)) :
    (nodesFrom a mfns).map Prod.snd = mfns := by
  induction mfns generalizing a with
  | nil => rfl
  | cons mfn mfns ih => rw [nodesFrom, List.map_cons, ih]

namespace AddressSpace

variable (space : AddressSpace ops)

/-- A call of `pfnlist_vmarea(task, 1, 0)` hands out a node for each probe that finds a frame,
frees the duplicates among these and returns the others. -/
theorem exists_call {h : PfnHeap} (ht : h.Tracked) (hnodes : space.NodesServed kzalloc h)
    (pfnTail : Option ℕ) :
    ∃ h' root kept gone enough, h'.Tracked ∧ Segment h' root kept none ∧
      (kept.map Prod.snd).Nodup ∧ (kept.map Prod.snd).toFinset = space.frames ∧
      h'.fresh = h.fresh + space.walk.length ∧ h'.freed = h.freed ++ gone ∧
      (gone ++ kept.map Prod.fst).Perm (List.range' h.fresh space.walk.length) ∧
      ∀ rounds, enough ≤ rounds →
        pfnlistVmarea ops kzalloc rounds (some space.toMmStruct) true false ⟨h, none, pfnTail⟩ =
          .ok (h', root) := by
  obtain ⟨st, hwalk, hs⟩ := space.exists_walk_of_startsAt (l := ⟨none, pfnTail⟩) (h := h) (k := 0)
    (.inl ⟨rfl, rfl⟩) hnodes
  obtain ⟨-, hfresh₁⟩ := WalkState.served_of_addMfns space.walk_ne_zero hwalk
  obtain ⟨ht₁, hfreed₁⟩ := WalkState.addMfns_tracked ht space.walk_ne_zero hwalk
  obtain ⟨h', gone, hs', hfresh', hfreed', hperm, hunique⟩ := pfnlistMkunique_spec hs
  have ht' := pfnlistMkuniqueLoop_tracked ht₁ (hunique _ (Nat.lt_succ_self _))
  rw [Nat.add_zero, List.drop_zero] at hs hs' hperm hunique
  rw [map_fst_nodesFrom] at hperm
  refine ⟨h', st.pfnRoot, _, gone, 2 ^ 47 + (nodesFrom h.fresh space.walk).length + 1, ht', hs',
    nodup_values_firsts, ?_, hfresh'.trans hfresh₁, by rw [hfreed', hfreed₁]; rfl, hperm,
    fun rounds hrounds => ?_⟩
  · ext mfn
    rw [List.mem_toFinset, mem_values_firsts, map_snd_nodesFrom, frames, List.mem_toFinset]
  · refine (space.pfnlistVmarea_eq kzalloc (by omega) _).trans ?_
    exact (congrArg (Except.bind · _) hwalk).trans
      (congrArg (Except.map _) (hunique rounds (by omega)))

end AddressSpace

/-- A process whose report is asked for, and what the stack holds in place of `pfn_root` and
`pfn_tail`. -/
structure ReportAsked (ops : PteOps Pte) extends Locals where
  space : AddressSpace ops
  pid : BitVec 32

/-- Reports one after the other, each on the heap that the last one leaves. -/
def generateReports (ops : PteOps Pte) (kzalloc : Kzalloc) (rounds : ℕ)
    (asked : List (ReportAsked ops)) (h : PfnHeap) : Except NoResult PfnHeap :=
  asked.foldlM (fun h r => (malpageGenerateReport ops kzalloc rounds r.pid
    (some r.space.toMmStruct) (r.toLocals.start h)).map Prod.fst) h

/-- A report whose list starts empty, of frames that can be counted, with memory for it. -/
structure ReportAsked.Regular (r : ReportAsked ops) (kzalloc : Kzalloc) : Prop where
  pfnRoot : r.pfnRoot = none
  fewFrames : r.space.FewFrames
  served : ∀ h, r.space.Served kzalloc h

/-- One report keeps a node for each frame of the process. -/
theorem ReportAsked.leaks {r : ReportAsked ops} (hr : r.Regular kzalloc) {h : PfnHeap}
    (ht : h.Tracked) :
    ∃ h' enough, h'.Tracked ∧ h.live ⊆ h'.live ∧
      h'.live.card = h.live.card + r.space.frames.card ∧
      ∀ rounds, enough ≤ rounds → (malpageGenerateReport ops kzalloc rounds r.pid
        (some r.space.toMmStruct) (r.toLocals.start h)).map Prod.fst = .ok h' := by
  obtain ⟨h', root, kept, gone, enough, ht', hs, hnodup, hkept, hfresh, hfreed, hperm, hcall⟩ :=
    r.space.exists_call ht (hr.served h).nodes r.pfnTail
  have hmem : ∀ mfn, mfn ∈ kept.map Prod.snd ↔ mfn ≠ 0 ∧ r.space.Maps mfn := fun mfn => by
    rw [← List.mem_toFinset, hkept, r.space.mem_frames]
  have hlen : (kept.map Prod.snd).length < 2 ^ 31 :=
    hr.fewFrames _ hnodup fun mfn => (hmem mfn).mp
  have hwalk : r.space.WalkReturns kzalloc ⟨h, none, r.pfnTail⟩ h' root (kept.map Prod.snd) :=
    ⟨⟨⟨kept, hs, rfl⟩, hnodup, hmem⟩, enough, hcall⟩
  obtain ⟨rep, -, -, -, -, enough', hreport⟩ := hwalk.reports hfresh hlen (hr.served h) r.pid
  refine ⟨h', enough', ht', ?_, ?_, fun rounds hrounds => ?_⟩
  · rw [ht.live_eq ht' hfresh hfreed hperm]
    exact Finset.subset_union_left
  · rw [ht.card_live ht' hfresh hfreed hperm, ← hkept, List.toFinset_card_of_nodup hnodup,
      List.length_map, List.length_map]
  · rw [Locals.start, hr.pfnRoot, hreport rounds hrounds]
    rfl

/-- However many reports are made, every one that starts with NULL in `pfn_root` leaves a node
allocated for each frame that it lists, and none is ever freed. -/
theorem reports_leak_node_per_frame (asked : List (ReportAsked ops))
    (hasked : ∀ r ∈ asked, r.Regular kzalloc) {h : PfnHeap} (ht : h.Tracked) :
    ∃ h' enough, h.live ⊆ h'.live ∧
      h'.live.card = h.live.card + (asked.map fun r => r.space.frames.card).sum ∧
      ∀ rounds, enough ≤ rounds → generateReports ops kzalloc rounds asked h = .ok h' := by
  induction asked generalizing h with
  | nil => exact ⟨h, 0, Finset.Subset.refl _, rfl, fun _ _ => rfl⟩
  | cons r asked ih =>
    obtain ⟨h₁, enough₁, ht₁, hsub₁, hcard₁, hcall⟩ :=
      ReportAsked.leaks (hasked r (by simp)) ht
    obtain ⟨h', enough, hsub, hcard, hrun⟩ :=
      ih (fun r hr => hasked r (List.mem_cons_of_mem _ hr)) ht₁
    refine ⟨h', max enough₁ enough, hsub₁.trans hsub, ?_, fun rounds hrounds => ?_⟩
    · rw [hcard, hcard₁, List.map_cons, List.sum_cons, Nat.add_assoc]
    · rw [generateReports, List.foldlM_cons, hcall rounds (by omega)]
      exact hrun rounds (by omega)

/-- Freed with `free_pfn_ll`, the list that a call from NULL in `pfn_root` returns leaves nothing
behind: every node that the call handed out is freed, once, by the one or the other. -/
theorem freed_list_leaves_nothing (space : AddressSpace ops) {h : PfnHeap} (ht : h.Tracked)
    (hnodes : space.NodesServed kzalloc h) (pfnTail : Option ℕ) :
    ∃ h₁ root h₂ gone enough, h₂.live = h.live ∧ h₂.freed = h.freed ++ gone ∧ gone.Nodup ∧
      (∀ a, a ∈ gone ↔ h.fresh ≤ a ∧ a < h₂.fresh) ∧ ∀ rounds, enough ≤ rounds →
        pfnlistVmarea ops kzalloc rounds (some space.toMmStruct) true false ⟨h, none, pfnTail⟩ =
          .ok (h₁, root) ∧
        freePfnLl rounds h₁ root = .ok h₂ := by
  obtain ⟨h₁, root, kept, gone, enough, ht₁, hs, -, -, hfresh, hfreed, hperm, hcall⟩ :=
    space.exists_call ht hnodes pfnTail
  obtain ⟨h₂, hfresh₂, hfreed₂, hfree⟩ := freePfnLl_spec hs
  have ht₂ := freePfnLl_tracked ht₁ (hfree _ (Nat.lt_succ_self _))
  have hall : h₂.freed = h.freed ++ (gone ++ kept.map Prod.fst) := by
    rw [hfreed₂, hfreed, List.append_assoc]
  refine ⟨h₁, root, h₂, gone ++ kept.map Prod.fst, enough + kept.length + 1, ?_, hall,
    hperm.nodup_iff.mpr List.nodup_range', fun a => ?_,
    fun rounds hrounds => ⟨hcall rounds (by omega), hfree rounds (by omega)⟩⟩
  · have hnone : (gone ++ kept.map Prod.fst ++ []).Perm
        (List.range' h.fresh space.walk.length) := by
      rwa [List.append_nil]
    rw [ht.live_eq ht₂ (hfresh₂.trans hfresh) hall hnone, List.toFinset_nil, Finset.union_empty]
  · rw [hperm.mem_iff, List.mem_range'_1, hfresh₂, hfresh]

theorem sharedSpace_fewFrames (anonVma : Option (List AnonVma)) :
    (sharedSpace anonVma).FewFrames := fun frames hnodup hframes => by
  have hsub : frames ⊆ [5] := fun mfn hmfn =>
    List.mem_singleton.mpr (sharedSpace_maps (hframes mfn hmfn).2)
  have hle := (List.subperm_of_subset hnodup hsub).length_le
  exact Nat.lt_of_le_of_lt hle (by decide)

/-- Two reports of that process. -/
def sharedAsked : List (ReportAsked x86PteOps) :=
  [⟨⟨none, none⟩, sharedSpace none, 1⟩, ⟨⟨none, some 3⟩, sharedSpace none, 1⟩]

theorem sharedAsked_regular : ∀ r ∈ sharedAsked, r.Regular kzallocLimited := by
  intro r hr
  have hspace : ∀ h, (sharedSpace none).Served kzallocLimited h := sharedSpace_served none
  rcases List.mem_pair.mp hr with rfl | rfl
  · exact ⟨rfl, sharedSpace_fewFrames none, hspace⟩
  · exact ⟨rfl, sharedSpace_fewFrames none, hspace⟩

theorem reports_leak_node_per_frame_sharedSpace :
    ∃ h' enough, (Heap.empty : PfnHeap).live ⊆ h'.live ∧
      h'.live.card = (Heap.empty : PfnHeap).live.card +
        (sharedAsked.map fun r => r.space.frames.card).sum ∧
      ∀ rounds, enough ≤ rounds →
        generateReports x86PteOps kzallocLimited rounds sharedAsked Heap.empty = .ok h' :=
  reports_leak_node_per_frame sharedAsked sharedAsked_regular tracked_empty

theorem freed_list_leaves_nothing_sharedSpace :
    ∃ h₁ root h₂ gone enough, h₂.live = (Heap.empty : PfnHeap).live ∧
      h₂.freed = (Heap.empty : PfnHeap).freed ++ gone ∧ gone.Nodup ∧
      (∀ a, a ∈ gone ↔ (Heap.empty : PfnHeap).fresh ≤ a ∧ a < h₂.fresh) ∧
      ∀ rounds, enough ≤ rounds →
        pfnlistVmarea x86PteOps kzallocLimited rounds (some (sharedSpace none).toMmStruct) true
          false ⟨Heap.empty, none, none⟩ = .ok (h₁, root) ∧
        freePfnLl rounds h₁ root = .ok h₂ :=
  freed_list_leaves_nothing (sharedSpace none) tracked_empty
    (sharedSpace_served none Heap.empty).nodes none

end Maitland
