import Maitland.Protocol.PageWalk

/-!
# The page list and the stack

`pfnlist_vmarea` reads `pfn_root` and `pfn_tail` before anything is stored in them: what the
list that it returns owes to their contents.
-/

namespace Maitland

open LinkedList

variable {Pte : Type} {ops : PteOps Pte} {kzalloc : Kzalloc}

/-- The `mm` of a task, which may have no area. -/
inductive TaskMm (ops : PteOps Pte) where
  | empty (mapCount : BitVec 32) (pgd : PageTable Pte)
  | space (space : AddressSpace ops)

namespace TaskMm

def toMmStruct : TaskMm ops → MmStruct Pte
  | .empty mapCount pgd => ⟨[], mapCount, pgd⟩
  | .space s => s.toMmStruct

def Maps : TaskMm ops → BitVec 64 → Prop
  | .empty _ _, _ => False
  | .space s, mfn => s.Maps mfn

end TaskMm

/-- What `pfn_root` and `pfn_tail` hold when a call begins. -/
structure Locals where
  pfnRoot : Option ℕ
  pfnTail : Option ℕ

def Locals.start (l : Locals) (h : PfnHeap) : WalkState := ⟨h, l.pfnRoot, l.pfnTail⟩

/-- `pfnlist_vmarea(task, 1, 0)` ends and returns the list of these nodes. -/
def TaskMm.ReturnsNodes (mm : TaskMm ops) (kzalloc : Kzalloc) (st : WalkState)
    (nodes : List (ℕ × BitVec 64)) : Prop :=
  ∃ h root, Segment h root nodes none ∧ ∃ enough, ∀ rounds, enough ≤ rounds →
    pfnlistVmarea ops kzalloc rounds (some mm.toMmStruct) true false st = .ok (h, root)

/-- The calls with the two contents return one list, of nodes allocated by the call only,
and without a page that is mapped it is empty. -/
def TaskMm.SameList (mm : TaskMm ops) (kzalloc : Kzalloc) (h : PfnHeap) (l l' : Locals) : Prop :=
  ∃ nodes, mm.ReturnsNodes kzalloc (l.start h) nodes ∧
    mm.ReturnsNodes kzalloc (l'.start h) nodes ∧
    (∀ x ∈ nodes, h.fresh ≤ x.1) ∧ ((∀ mfn, ¬mm.Maps mfn) → nodes = [])

/-- `pfn_tail` is the address of a node, or of the first that the call allocates. -/
def WalkState.TailValid (st : WalkState) : Prop :=
  ∃ t, st.pfnTail = some t ∧ (t = st.heap.fresh ∨ st.heap.cells t ≠ none)

/-- Of a call that allocates `n` nodes, the list starts with the `k`-th: with the first from
NULL, else only if the garbage is the address of that node. -/
def Locals.StartsAt (l : Locals) (h : PfnHeap) (n k : ℕ) : Prop :=
  l.pfnRoot = none ∧ k = 0 ∨
    l.pfnRoot = some (h.fresh + k) ∧ k < n ∧ (l.start h).TailValid

/-- Nodes at consecutive addresses. -/
def nodesFrom (a : ℕ) : List (BitVec 64) → List (ℕ × BitVec 64)
  | [] => []
  | mfn :: mfns => (a, mfn) :: nodesFrom (a + 1) mfns

theorem drop_nodesFrom (a k : ℕ) (mfns : List (BitVec 64)) :
    (nodesFrom a mfns).drop k = nodesFrom (a + k) (mfns.drop k) := by
  induction k generalizing a mfns with
  | zero => rfl
  | succ k ih =>
    cases mfns with
    | nil => rfl
    | cons mfn mfns =>
      rw [nodesFrom, List.drop_succ_cons, List.drop_succ_cons, ih, Nat.add_assoc, Nat.add_comm 1]

theorem le_of_mem_nodesFrom {a : ℕ} {mfns : List (BitVec 64)} {x : ℕ × BitVec 64}
    (hx : x ∈ nodesFrom a mfns) : a ≤ x.1 := by
  induction mfns generalizing a with
  | nil => cases hx
  | cons mfn mfns ih =>
    rcases List.mem_cons.mp hx with rfl | hx
    · exact Nat.le_refl a
    · exact Nat.le_of_succ_le (ih hx)

/-- The part of the list from its `k`-th node on. -/
theorem segment_nodesFrom {h : PfnHeap} {a k : ℕ} {mfns : List (BitVec 64)}
    (hs : Segment h (some a) (nodesFrom a mfns) none) (hk : k < mfns.length) :
    Segment h (some (a + k)) (nodesFrom (a + k) (mfns.drop k)) none := by
  rw [← List.take_append_drop k (nodesFrom a mfns), drop_nodesFrom] at hs
  obtain ⟨p, -, hrest⟩ := segment_append.mp hs
  rw [List.drop_eq_getElem_cons hk] at hrest ⊢
  obtain rfl : p = some (a + k) := hrest.1
  exact hrest

section Walk

variable {bytes : BitVec 64} {st : WalkState} {newMfn : BitVec 64}

/-- The first frame, with an old `pfn_root` or none. -/
theorem WalkState.addMfn_first (hne : newMfn ≠ 0) (hst : st.pfnRoot = none ∨ st.TailValid)
    (hserved : kzalloc st.heap.fresh bytes = true) :
    ∃ h, st.addMfn kzalloc bytes newMfn =
        .ok ⟨h, some (st.pfnRoot.getD st.heap.fresh), some st.heap.fresh⟩ ∧
      h.fresh = st.heap.fresh + 1 ∧
      Segment h (some st.heap.fresh) [(st.heap.fresh, newMfn)] none := by
  have hnew : (st.heap.alloc newMfn).cells st.heap.fresh = some ⟨newMfn, none⟩ := by
    rw [Heap.alloc_cells, Function.update_self]
  rw [st.addMfn_of_ne_zero hne hserved]
  cases hroot : st.pfnRoot with
  | none => exact ⟨_, rfl, rfl, segment_singleton.mpr ⟨rfl, hnew⟩⟩
  | some r =>
    obtain ⟨t, htail, ht⟩ := hst.resolve_left (hroot ▸ Option.some_ne_none r)
    obtain ⟨c, hc⟩ : ∃ c, (st.heap.alloc newMfn).cells t = some c := by
      rcases ht with rfl | ht
      · exact ⟨_, hnew⟩
      · obtain ⟨c, hc⟩ := Option.ne_none_iff_exists'.mp ht
        have := Heap.lt_fresh_of_cells hc
        exact ⟨c, by rw [Heap.alloc_cells, Function.update_of_ne (by omega), hc]⟩
    obtain ⟨h₁, hset, hcells, hfresh, -⟩ := Heap.setNext_of_cells hc (some st.heap.fresh)
    -- The store goes to the new node itself or leaves it alone.
    obtain ⟨q, hq⟩ : ∃ q, h₁.cells st.heap.fresh = some ⟨newMfn, q⟩ := by
      rw [hcells]
      by_cases htf : st.heap.fresh = t
      · subst htf
        obtain rfl := Option.some.inj (hc.symm.trans hnew)
        exact ⟨_, Function.update_self ..⟩
      · exact ⟨none, by rw [Function.update_of_ne htf, hnew]⟩
    obtain ⟨h₂, hset₂, hcells₂, hfresh₂, -⟩ := Heap.setNext_of_cells hq none
    have hstore : storeNext (st.heap.alloc newMfn) st.pfnTail (some st.heap.fresh) = .ok h₁ := by
      rw [storeNext, htail, Option.bind_some, hset, valid]
    have hstore₂ : storeNext h₁ (some st.heap.fresh) none = .ok h₂ := by
      rw [storeNext, Option.bind_some, hset₂, valid]
    refine ⟨h₂, ?_, hfresh₂.trans hfresh, segment_singleton.mpr ⟨rfl, ?_⟩⟩
    · simp only [bind, Except.bind, hstore, hstore₂, Option.getD_some]
    · rw [hcells₂, Function.update_self]

theorem WalkState.addMfn_invalid (hne : newMfn ≠ 0) (hroot : st.pfnRoot ≠ none)
    (htail : ¬st.TailValid) : st.addMfn kzalloc bytes newMfn = .error .invalidPointer := by
  obtain ⟨r, hroot⟩ := Option.ne_none_iff_exists'.mp hroot
  have hstore : storeNext (st.heap.alloc newMfn) st.pfnTail (some st.heap.fresh) =
      .error .invalidPointer := by
    cases ht : st.pfnTail with
    | none => rfl
    | some t =>
      have hfresh : t ≠ st.heap.fresh := fun h => htail ⟨t, ht, .inl h⟩
      have hcell : st.heap.cells t = none := by
        by_contra h
        exact htail ⟨t, ht, .inr h⟩
      rw [storeNext, Option.bind_some, Heap.setNext, Heap.alloc_cells,
        Function.update_of_ne hfresh, hcell, Option.map_none, valid]
  by_cases hserved : kzalloc st.heap.fresh bytes = true
  · rw [st.addMfn_of_ne_zero hne hserved, hroot]
    simp only [bind, Except.bind, hstore]
  · exact st.addMfn_of_not_served hne hserved

/-- More frames after the first. -/
theorem WalkState.addMfns_append (st : WalkState) {p : Option ℕ} {xs : List (ℕ × BitVec 64)}
    {a r : ℕ} {v : BitVec 64} (hs : Segment st.heap p (xs ++ [(a, v)]) none)
    (hroot : st.pfnRoot = some r) (htail : st.pfnTail = some a) {mfns : List (BitVec 64)}
    (hmfns : ∀ mfn ∈ mfns, mfn ≠ 0) (hserved : kzalloc.Serves bytes st.heap.fresh mfns.length) :
    ∃ st', mfns.foldlM (WalkState.addMfn kzalloc bytes) st = .ok st' ∧ st'.pfnRoot = some r ∧
      st'.heap.fresh = st.heap.fresh + mfns.length ∧
      Segment st'.heap p (xs ++ [(a, v)] ++ nodesFrom st.heap.fresh mfns) none := by
  induction mfns generalizing st xs a v with
  | nil => exact ⟨st, rfl, hroot, rfl, by rwa [nodesFrom, List.append_nil]⟩
  | cons mfn mfns ih =>
    obtain ⟨hfirst, hrest⟩ := Kzalloc.serves_succ.mp hserved
    obtain ⟨h, hadd, hfresh, hs₁⟩ :=
      WalkState.addMfn_append hs hroot htail (hmfns mfn (by simp)) hfirst
    obtain ⟨st', hfold, hroot', hfresh', hs'⟩ := ih ⟨h, some r, some st.heap.fresh⟩ hs₁ rfl rfl
      (fun m hm => hmfns m (List.mem_cons_of_mem _ hm)) (by rwa [hfresh])
    refine ⟨st', ?_, hroot', ?_, ?_⟩
    · rw [List.foldlM_cons, hadd]
      exact hfold
    · rw [hfresh', hfresh, List.length_cons]
      omega
    · rw [hfresh] at hs'
      rwa [nodesFrom, List.append_cons]

/-- The walk builds the list of its own nodes, wherever `pfn_root` points in the end. -/
theorem WalkState.addMfns_first (hst : st.pfnRoot = none ∨ st.TailValid)
    {mfns : List (BitVec 64)} (hmfns : ∀ mfn ∈ mfns, mfn ≠ 0) (hlen : mfns ≠ [])
    (hserved : kzalloc.Serves bytes st.heap.fresh mfns.length) :
    ∃ st', mfns.foldlM (WalkState.addMfn kzalloc bytes) st = .ok st' ∧
      st'.pfnRoot = some (st.pfnRoot.getD st.heap.fresh) ∧
      st'.heap.fresh = st.heap.fresh + mfns.length ∧
      Segment st'.heap (some st.heap.fresh) (nodesFrom st.heap.fresh mfns) none := by
  obtain ⟨mfn, mfns, rfl⟩ := List.exists_cons_of_ne_nil hlen
  obtain ⟨hfirst, hrest⟩ := Kzalloc.serves_succ.mp hserved
  obtain ⟨h, hadd, hfresh, hs⟩ := WalkState.addMfn_first (hmfns mfn (by simp)) hst hfirst
  rw [← List.nil_append [_]] at hs
  obtain ⟨st', hfold, hroot, hfresh', hs'⟩ := WalkState.addMfns_append
    ⟨h, some (st.pfnRoot.getD st.heap.fresh), some st.heap.fresh⟩ hs rfl rfl
    (fun m hm => hmfns m (List.mem_cons_of_mem _ hm)) (by rwa [hfresh])
  refine ⟨st', ?_, hroot, ?_, ?_⟩
  · rw [List.foldlM_cons, hadd]
    exact hfold
  · rw [hfresh', hfresh, List.length_cons]
    omega
  · rwa [hfresh] at hs'

theorem WalkState.addMfns_invalid (hroot : st.pfnRoot ≠ none) (htail : ¬st.TailValid)
    {mfns : List (BitVec 64)} (hmfns : ∀ mfn ∈ mfns, mfn ≠ 0) (hlen : mfns ≠ []) :
    mfns.foldlM (WalkState.addMfn kzalloc bytes) st = .error .invalidPointer := by
  obtain ⟨mfn, mfns, rfl⟩ := List.exists_cons_of_ne_nil hlen
  rw [List.foldlM_cons, WalkState.addMfn_invalid (hmfns mfn (by simp)) hroot htail]
  rfl

/-- A round that ends has been served. -/
theorem WalkState.served_of_addMfn {st' : WalkState} (hne : newMfn ≠ 0)
    (hadd : st.addMfn kzalloc bytes newMfn = .ok st') :
    kzalloc st.heap.fresh bytes = true ∧ st'.heap.fresh = st.heap.fresh + 1 := by
  have hserved : kzalloc st.heap.fresh bytes = true := by
    by_contra hnot
    rw [st.addMfn_of_not_served hne hnot] at hadd
    cases hadd
  refine ⟨hserved, ?_⟩
  by_cases hst : st.pfnRoot = none ∨ st.TailValid
  · obtain ⟨h, hadd', hfresh, -⟩ := WalkState.addMfn_first hne hst hserved
    obtain rfl := Except.ok.inj (hadd.symm.trans hadd')
    exact hfresh
  · obtain ⟨hroot, htail⟩ := not_or.mp hst
    rw [WalkState.addMfn_invalid hne hroot htail] at hadd
    cases hadd

/-- So has a walk that ends. -/
theorem WalkState.served_of_addMfns {st' : WalkState} {mfns : List (BitVec 64)}
    (hmfns : ∀ mfn ∈ mfns, mfn ≠ 0)
    (hwalk : mfns.foldlM (WalkState.addMfn kzalloc bytes) st = .ok st') :
    kzalloc.Serves bytes st.heap.fresh mfns.length ∧
      st'.heap.fresh = st.heap.fresh + mfns.length := by
  induction mfns generalizing st with
  | nil =>
    obtain rfl := Except.ok.inj hwalk
    exact ⟨fun i hi => absurd hi (Nat.not_lt_zero i), rfl⟩
  | cons mfn mfns ih =>
    rw [List.foldlM_cons] at hwalk
    obtain ⟨st₁, hadd, hwalk⟩ := bind_ok hwalk
    obtain ⟨hfirst, hfresh₁⟩ := WalkState.served_of_addMfn (hmfns mfn (by simp)) hadd
    obtain ⟨hrest, hfresh⟩ := ih (fun m hm => hmfns m (List.mem_cons_of_mem _ hm)) hwalk
    rw [hfresh₁] at hrest hfresh
    refine ⟨Kzalloc.serves_succ.mpr ⟨hfirst, hrest⟩, ?_⟩
    rw [hfresh, List.length_cons]
    omega

end Walk

/-- `pfnlist_mkunique` follows a root that is not NULL. -/
theorem cells_ne_none_of_mkunique {h : PfnHeap} {rounds a : ℕ} {r : PfnHeap × BitVec 32}
    (hunique : pfnlistMkunique rounds h (some a) = .ok r) : h.cells a ≠ none := by
  intro hcell
  cases rounds with
  | zero => cases hunique
  | succ n =>
    rw [pfnlistMkunique, pfnlistMkuniqueLoop, pfnlistMkuniqueInner, deref, Option.bind_some,
      hcell] at hunique
    cases hunique

namespace AddressSpace

variable (space : AddressSpace ops) {h : PfnHeap} {l : Locals} {k : ℕ}
  {nodes : List (ℕ × BitVec 64)}

theorem exists_walk_of_startsAt (hl : l.StartsAt h space.walk.length k)
    (hnodes : space.NodesServed kzalloc h) :
    ∃ st, space.walk.foldlM (WalkState.addMfn kzalloc sizeofPfnLlNode) (l.start h) = .ok st ∧
      Segment st.heap st.pfnRoot (nodesFrom (h.fresh + k) (space.walk.drop k)) none := by
  by_cases hnil : space.walk = []
  · obtain ⟨hroot, rfl⟩ := hl.resolve_right fun hk => by simp [hnil] at hk
    rw [hnil]
    exact ⟨l.start h, rfl, hroot⟩
  · have hst : (l.start h).pfnRoot = none ∨ (l.start h).TailValid :=
      hl.imp And.left fun hk => hk.2.2
    obtain ⟨st, hwalk, hroot, -, hs⟩ := WalkState.addMfns_first hst space.walk_ne_zero hnil
      hnodes
    have hstart : st.pfnRoot = some (h.fresh + k) ∧ k < space.walk.length := by
      rcases hl with ⟨hnone, rfl⟩ | ⟨hsome, hk, -⟩
      · exact ⟨by rw [hroot, Locals.start, hnone]; rfl, List.length_pos_iff.mpr hnil⟩
      · exact ⟨by rw [hroot, Locals.start, hsome]; rfl, hk⟩
    exact ⟨st, hwalk, hstart.1 ▸ segment_nodesFrom hs hstart.2⟩

/-- The list of a call that starts with its `k`-th node. -/
theorem returnsNodes_of_startsAt (hl : l.StartsAt h space.walk.length k)
    (hnodes : space.NodesServed kzalloc h) :
    (TaskMm.space space).ReturnsNodes kzalloc (l.start h)
      (firsts (nodesFrom (h.fresh + k) (space.walk.drop k))) := by
  obtain ⟨st, hwalk, hs⟩ := space.exists_walk_of_startsAt hl hnodes
  obtain ⟨h', gone, hs', -, -, -, hunique⟩ := pfnlistMkunique_spec hs
  refine ⟨h', st.pfnRoot, hs', 2 ^ 47 + (nodesFrom (h.fresh + k) (space.walk.drop k)).length + 1,
    fun rounds hrounds => ?_⟩
  refine (space.pfnlistVmarea_eq kzalloc (by omega) _).trans ?_
  rw [hwalk]
  simp only [Except.bind, Except.map, hunique rounds (by omega)]

/-- What a call that ends has passed through. -/
theorem exists_walk_of_call {st : WalkState} {rounds : ℕ} {root : Option ℕ}
    (hrounds : 2 ^ 47 ≤ rounds)
    (hcall : pfnlistVmarea ops kzalloc rounds (some space.toMmStruct) true false st =
      .ok (h, root)) :
    ∃ st', space.walk.foldlM (WalkState.addMfn kzalloc sizeofPfnLlNode) st = .ok st' ∧
      root = st'.pfnRoot ∧ ∀ a ∈ st'.pfnRoot, st'.heap.cells a ≠ none := by
  rw [space.pfnlistVmarea_eq kzalloc hrounds] at hcall
  obtain ⟨st', hwalk, hcall⟩ := bind_ok hcall
  cases hunique : pfnlistMkunique rounds st'.heap st'.pfnRoot with
  | error e =>
    rw [hunique] at hcall
    cases hcall
  | ok r =>
    rw [hunique, Except.map] at hcall
    obtain ⟨rfl, rfl⟩ := Prod.mk.inj (Except.ok.inj hcall)
    refine ⟨st', hwalk, rfl, fun a ha => ?_⟩
    rw [Option.mem_def] at ha
    rw [ha] at hunique
    exact cells_ne_none_of_mkunique hunique

/-- A call that ends has had all its nodes served. -/
theorem nodesServed_of_call {st : WalkState} {rounds : ℕ} {root : Option ℕ}
    (hrounds : 2 ^ 47 ≤ rounds)
    (hcall : pfnlistVmarea ops kzalloc rounds (some space.toMmStruct) true false st =
      .ok (h, root)) : space.NodesServed kzalloc st.heap := by
  obtain ⟨st', hwalk, -⟩ := space.exists_walk_of_call hrounds hcall
  exact (WalkState.served_of_addMfns space.walk_ne_zero hwalk).1

/-- A list of nodes that the call allocates starts with one of them. -/
theorem exists_startsAt (hnodes : (TaskMm.space space).ReturnsNodes kzalloc (l.start h) nodes)
    (hfresh : ∀ x ∈ nodes, h.fresh ≤ x.1) :
    space.NodesServed kzalloc h ∧ ∃ k, l.StartsAt h space.walk.length k := by
  obtain ⟨h', root, hs, enough, hcall⟩ := hnodes
  obtain ⟨st, hwalk, rfl, hcells⟩ := space.exists_walk_of_call (Nat.le_max_right ..)
    (hcall (max enough (2 ^ 47)) (Nat.le_max_left ..))
  have hserved : space.NodesServed kzalloc h :=
    space.nodesServed_of_call (Nat.le_max_right ..)
      (hcall (max enough (2 ^ 47)) (Nat.le_max_left ..))
  refine ⟨hserved, ?_⟩
  cases hroot : l.pfnRoot with
  | none => exact ⟨0, .inl ⟨hroot, rfl⟩⟩
  | some r =>
    -- The list starts where `pfn_root` points from the beginning.
    have hhead : st.pfnRoot = some r → h.fresh ≤ r ∧ r < st.heap.fresh := by
      intro hst
      obtain ⟨c, hc⟩ := Option.ne_none_iff_exists'.mp (hcells r hst)
      refine ⟨?_, Heap.lt_fresh_of_cells hc⟩
      rw [hst] at hs
      cases nodes with
      | nil => cases hs
      | cons x nodes =>
        obtain rfl := Option.some.inj hs.1
        exact hfresh x List.mem_cons_self
    have hsome : (l.start h).pfnRoot = some r := hroot
    by_cases hnil : space.walk = []
    · rw [hnil] at hwalk
      obtain rfl := Except.ok.inj hwalk
      have := hhead hsome
      exact absurd this.2 (Nat.not_lt.mpr this.1)
    · by_cases htail : (l.start h).TailValid
      · obtain ⟨st', hwalk', hroot', hlen, -⟩ :=
          WalkState.addMfns_first (.inr htail) space.walk_ne_zero hnil hserved
        obtain rfl := Except.ok.inj (hwalk.symm.trans hwalk')
        rw [hsome, Option.getD_some] at hroot'
        obtain ⟨hle, hlt⟩ := hhead hroot'
        obtain ⟨k, rfl⟩ := Nat.exists_eq_add_of_le hle
        exact ⟨k, .inr ⟨hroot, Nat.lt_of_add_lt_add_left (hlen ▸ hlt), htail⟩⟩
      · rw [WalkState.addMfns_invalid (hsome ▸ Option.some_ne_none r) htail space.walk_ne_zero
          hnil] at hwalk
        cases hwalk

end AddressSpace

/-- A call returns one list only. -/
theorem TaskMm.ReturnsNodes.unique {mm : TaskMm ops} {st : WalkState}
    {nodes nodes' : List (ℕ × BitVec 64)} (hnodes : mm.ReturnsNodes kzalloc st nodes)
    (hnodes' : mm.ReturnsNodes kzalloc st nodes') : nodes = nodes' := by
  obtain ⟨h, root, hs, enough, hcall⟩ := hnodes
  obtain ⟨h', root', hs', enough', hcall'⟩ := hnodes'
  have hend := hcall (max enough enough') (Nat.le_max_left ..)
  rw [hcall' _ (Nat.le_max_right ..)] at hend
  obtain ⟨rfl, rfl⟩ := Prod.mk.inj (Except.ok.inj hend)
  exact hs.unique hs'

theorem not_returnsNodes_empty {mapCount : BitVec 32} {pgd : PageTable Pte} {st : WalkState}
    {nodes : List (ℕ × BitVec 64)} :
    ¬(TaskMm.empty mapCount pgd : TaskMm ops).ReturnsNodes kzalloc st nodes := by
  rintro ⟨h, root, -, enough, hcall⟩
  cases hcall enough (Nat.le_refl _)

/-- Where the list starts can be told from its first node. -/
theorem Locals.StartsAt.head {h : PfnHeap} {l : Locals} {k : ℕ} {mfns : List (BitVec 64)}
    (hl : l.StartsAt h mfns.length k) :
    ((firsts (nodesFrom (h.fresh + k) (mfns.drop k))).head?.elim h.fresh Prod.fst) =
      h.fresh + k := by
  by_cases hk : k < mfns.length
  · rw [List.drop_eq_getElem_cons hk, nodesFrom, firsts_cons]
    rfl
  · obtain ⟨-, rfl⟩ := hl.resolve_right fun hsome => hk hsome.2.1
    rw [List.drop_of_length_le (Nat.not_lt.mp hk)]
    rfl

/-- For every address space and heap, what `pfn_tail` holds does not matter when `pfn_root`
holds NULL; other contents give the same list only by the coincidence that `pfn_root` is the
address of the node where it starts.  Every node has to be served. -/
theorem page_list_same_iff (mm : TaskMm ops) (kzalloc : Kzalloc) (h : PfnHeap) (l l' : Locals) :
    mm.SameList kzalloc h l l' ↔ ∃ space, mm = .space space ∧ space.NodesServed kzalloc h ∧
      ∃ k, l.StartsAt h space.walk.length k ∧ l'.StartsAt h space.walk.length k := by
  constructor
  · rintro ⟨nodes, hnodes, hnodes', hfresh, -⟩
    cases mm with
    | empty mapCount pgd => exact absurd hnodes not_returnsNodes_empty
    | space space =>
      obtain ⟨hserved, k, hl⟩ := space.exists_startsAt hnodes hfresh
      obtain ⟨-, k', hl'⟩ := space.exists_startsAt hnodes' hfresh
      have heq := hnodes.unique (space.returnsNodes_of_startsAt hl hserved)
      have heq' := hnodes'.unique (space.returnsNodes_of_startsAt hl' hserved)
      have hk : h.fresh + k = h.fresh + k' := by
        rw [← hl.head, ← hl'.head, ← heq, ← heq']
      obtain rfl := Nat.add_left_cancel hk
      exact ⟨space, rfl, hserved, k, hl, hl'⟩
  · rintro ⟨space, rfl, hserved, k, hl, hl'⟩
    refine ⟨_, space.returnsNodes_of_startsAt hl hserved,
      space.returnsNodes_of_startsAt hl' hserved, fun x hx => ?_, fun hmaps => ?_⟩
    · have := le_of_mem_nodesFrom (firsts_sublist.subset hx)
      omega
    · have hnil : space.walk = [] := List.eq_nil_iff_forall_not_mem.mpr fun mfn hmfn =>
        hmaps mfn (space.mem_walked.mp hmfn).2
      rw [hnil, List.drop_nil]
      rfl

/-- A node is left of an earlier call, and the stack still holds its address. -/
theorem stale_node_on_page_list :
    ¬∃ kzalloc, (TaskMm.space hugeSpace).SameList kzalloc (Heap.empty.alloc 9) ⟨none, none⟩
      ⟨some 0, some 0⟩ := by
  rintro ⟨kzalloc, nodes, -, hnodes, hfresh, -⟩
  obtain ⟨-, k, hl | hl⟩ := hugeSpace.exists_startsAt hnodes hfresh
  · cases hl.1
  · have hroot : 0 = (Heap.empty.alloc (9 : BitVec 64)).fresh + k := Option.some.inj hl.1
    rw [show (Heap.empty.alloc (9 : BitVec 64)).fresh = 1 from rfl] at hroot
    omega

end Maitland
