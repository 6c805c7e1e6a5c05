import Maitland.Malpage.PfnList

/-!
# The removal of duplicates

`pfnlist_mkunique` works on the list in place: what it keeps, what it frees and what it
returns, for every list that ends.
-/

namespace Maitland

open LinkedList

/-- The list from `root` had the nodes `nodes` in `h` and has `kept` in `h'`, the first
node of every frame, and exactly the others were freed. -/
structure KeepsFirsts (h h' : PfnHeap) (root : Option ℕ) (nodes kept : List (ℕ × BitVec 64)) :
    Prop where
  list : Segment h' root kept none
  distinct : (kept.map Prod.snd).Nodup
  order : kept.Sublist nodes
  first : ∀ x, x ∈ kept ↔ nodes.find? (·.2 = x.2) = some x
  frees : ∃ gone : List ℕ, h'.freed = h.freed ++ gone ∧ gone.Nodup ∧
    ∀ a, a ∈ gone ↔ a ∈ nodes.map Prod.fst ∧ a ∉ kept.map Prod.fst

/-- Any list that ends, the empty one too: the call ends, keeps the first node of every
frame and returns the difference of the two sizes. -/
theorem mkunique_keeps_firsts {h : PfnHeap} {root : Option ℕ} {nodes : List (ℕ × BitVec 64)}
    (hs : Segment h root nodes none) :
    ∃ h' kept oldSize newSize enough, KeepsFirsts h h' root nodes kept ∧
      ∀ rounds, enough ≤ rounds →
        pfnlistMkunique rounds h root = .ok (h', oldSize - newSize) ∧
        pfnlistSize h rounds root = .ok oldSize ∧ pfnlistSize h' rounds root = .ok newSize := by
  obtain ⟨h', gone, hs', -, hfreed, hperm, hunique⟩ := pfnlistMkunique_spec hs
  have hle : (firsts nodes).length ≤ nodes.length := firsts_sublist.length_le
  have hnodup := hperm.nodup_iff.mpr hs.nodup
  obtain ⟨hgone, -, hdisj⟩ := List.nodup_append.mp hnodup
  refine ⟨h', firsts nodes, BitVec.ofNat 32 nodes.length, BitVec.ofNat 32 (firsts nodes).length,
    nodes.length + 1, ⟨hs', nodup_values_firsts, firsts_sublist, fun x => mem_firsts_iff, gone,
    hfreed, hgone, fun a => ?_⟩, fun rounds hrounds => ⟨?_, ?_, ?_⟩⟩
  · have hmem := hperm.mem_iff (a := a)
    rw [List.mem_append] at hmem
    constructor
    · exact fun ha => ⟨hmem.mp (.inl ha), fun hk => hdisj a ha a hk rfl⟩
    · exact fun ⟨ha, hk⟩ => (hmem.mpr ha).resolve_right hk
  · have hsum : BitVec.ofNat 32 nodes.length =
        BitVec.ofNat 32 (nodes.length - (firsts nodes).length) +
          BitVec.ofNat 32 (firsts nodes).length := by
      rw [← BitVec.ofNat_add, Nat.sub_add_cancel hle]
    rw [hunique rounds (by omega), hsum, BitVec.add_sub_cancel]
  · exact pfnlistSize_spec hs (by omega)
  · exact pfnlistSize_spec hs' (by omega)

/-- A list of the frames 5, 7 and 5. -/
def threeNodes : PfnHeap where
  cells a := [some ⟨5, some 1⟩, some ⟨7, some 2⟩, some ⟨5, none⟩][a]?.getD none
  fresh := 3
  freed := []
  unallocated a ha := by
    rw [List.getElem?_eq_none ha, Option.getD_none]

theorem mkunique_keeps_firsts_threeNodes :
    Segment threeNodes (some 0) [(0, 5), (1, 7), (2, 5)] none ∧
      ∃ h' kept oldSize newSize enough,
        KeepsFirsts threeNodes h' (some 0) [(0, 5), (1, 7), (2, 5)] kept ∧
        ∀ rounds, enough ≤ rounds →
          pfnlistMkunique rounds threeNodes (some 0) = .ok (h', oldSize - newSize) ∧
          pfnlistSize threeNodes rounds (some 0) = .ok oldSize ∧
          pfnlistSize h' rounds (some 0) = .ok newSize := by
  have hs : Segment threeNodes (some 0) [(0, 5), (1, 7), (2, 5)] none :=
    ⟨rfl, _, rfl, rfl, _, rfl, rfl, _, rfl, rfl⟩
  exact ⟨hs, mkunique_keeps_firsts hs⟩

end Maitland
