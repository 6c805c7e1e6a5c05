import Mathlib.Data.List.Nodup
import Maitland.Library.LinkedList
import Maitland.Library.MachineInt

/-!
# Lists of frames

The linked list of `pfn_ll_node`s that malpage builds of the frames of a process.  A
pointer is an address or NULL, and every loop takes the number of rounds it may make.
-/

namespace Maitland

open LinkedList MachineInt

/-- Why a call ends without a result. -/
inductive NoResult where
  /-- It followed a pointer that points to no node. -/
  | invalidPointer
  /-- A loop used up its rounds. -/
  | rounds
  deriving DecidableEq

/-- The `pfn_ll_node`s: a `pfn` and the `next` pointer. -/
abbrev PfnHeap := Heap (BitVec 64)

/-- Whether `kzalloc` serves a request for so many bytes, when so many nodes have been handed
out.  It may turn any request down, and the module uses what it returns without a check. -/
abbrev Kzalloc := ℕ → BitVec 64 → Bool

/-- The next `n` requests are served, after `a` nodes. -/
def Kzalloc.Serves (kzalloc : Kzalloc) (bytes : BitVec 64) (a n : ℕ) : Prop :=
  ∀ i < n, kzalloc (a + i) bytes = true

/-- `sizeof(pfn_ll_node)` -/
def sizeofPfnLlNode : BitVec 64 := 16

/-- What an access through a pointer gives. -/
def valid {α : Type} : Option α → Except NoResult α
  | some x => .ok x
  | none => .error .invalidPointer

theorem bind_ok {α β : Type} {x : Except NoResult α} {f : α → Except NoResult β} {y : β}
    (h : x >>= f = .ok y) : ∃ a, x = .ok a ∧ f a = .ok y := by
  cases x with
  | error e => cases h
  | ok a => exact ⟨a, rfl, h⟩

/-- A loop over lists is one loop over all their elements. -/
theorem foldlM_flatMap {α β σ : Type} (f : α → List β) (g : σ → β → Except NoResult σ)
    (l : List α) (s : σ) :
    (l.flatMap f).foldlM g s = l.foldlM (fun s x => (f x).foldlM g s) s := by
  induction l generalizing s with
  | nil => rfl
  | cons x l ih =>
    rw [List.flatMap_cons, List.foldlM_append, List.foldlM_cons]
    exact congrArg (Except.bind _) (funext ih)

/-- `*p` -/
def deref (h : PfnHeap) (p : Option ℕ) : Except NoResult (Cell (BitVec 64)) :=
  valid (p.bind h.cells)

/-- `p->next = q` -/
def storeNext (h : PfnHeap) (p q : Option ℕ) : Except NoResult PfnHeap :=
  valid (p.bind fun a => h.setNext a q)

/-- `kfree(p)`, for a pointer that is not NULL. -/
def kfree (h : PfnHeap) (p : Option ℕ) : Except NoResult PfnHeap := valid (p.bind h.free)

/-- An array of words of `w` bits that `kzalloc` makes of so many bytes.  NULL is one without
elements: there is nothing to be read or written through it. -/
def kzallocArray {w : ℕ} (kzalloc : Kzalloc) (h : PfnHeap) (bytes : BitVec 64) :
    List (BitVec w) :=
  List.replicate (if kzalloc h.fresh bytes then bytes.toNat / (w / 8) else 0) 0

section Source

variable (h : PfnHeap)

/-- `while(front)` -/
def pfnlistSizeLoop : ℕ → Option ℕ → BitVec 32 → Except NoResult (BitVec 32)
  | 0, _, _ => .error .rounds
  | _ + 1, none, count => .ok count
  | n + 1, some front, count => do
    let node ← deref h (some front)
    pfnlistSizeLoop n node.next (count + 1)

def pfnlistSize (rounds : ℕ) (root : Option ℕ) : Except NoResult (BitVec 32) :=
  pfnlistSizeLoop h rounds root 0

/-- `while(count < length && front)`, with the comparison of an `unsigned int` and an
`int`. -/
def pfnlistMkarrayLoop (length : BitVec 32) :
    ℕ → Option ℕ → BitVec 32 → List (BitVec 64) → Except NoResult (List (BitVec 64))
  | 0, _, _, _ => .error .rounds
  | n + 1, front, count, array =>
    if count < length ∧ front ≠ none then do
      let node ← deref h front
      if count.toNat < array.length then
        pfnlistMkarrayLoop length n node.next (count + 1) (array.set count.toNat node.val)
      else .error .invalidPointer
    else .ok array

/-- The array is of `sizeof(unsigned long)*length` bytes, where `length` is an `int` that
is converted to a `size_t`. -/
def pfnlistMkarray (kzalloc : Kzalloc) (rounds : ℕ) (root : Option ℕ) (length : BitVec 32) :
    Except NoResult (List (BitVec 64)) :=
  pfnlistMkarrayLoop h length rounds root 0 (kzallocArray kzalloc h (8 * length.signExtend 64))

/-- `while(front)`, with the two cursors `front_parent` and `front`. -/
def pfnlistFindParentOf (needle : BitVec 64) :
    ℕ → Option ℕ → Option ℕ → Except NoResult (Option ℕ)
  | 0, _, _ => .error .rounds
  | _ + 1, _, none => .ok none
  | n + 1, frontParent, some front => do
    let node ← deref h (some front)
    if node.val = needle then .ok frontParent
    else do
      let parent ← deref h frontParent
      pfnlistFindParentOf needle n parent.next node.next

end Source

/-- The inner loop of `pfnlist_mkunique`, which takes out the nodes after `front` that
have its frame. -/
def pfnlistMkuniqueInner (rounds front : ℕ) :
    ℕ → PfnHeap → BitVec 32 → Except NoResult (PfnHeap × BitVec 32)
  | 0, _, _ => .error .rounds
  | n + 1, h, removed => do
    let node ← deref h (some front)
    match ← pfnlistFindParentOf h node.val rounds (some front) node.next with
    | none => .ok (h, removed)
    | some tmp => do
      let tmpNode ← deref h (some tmp)
      let needleNode ← deref h tmpNode.next
      let unlinked ← storeNext h (some tmp) needleNode.next
      let freed ← kfree unlinked tmpNode.next
      pfnlistMkuniqueInner rounds front n freed (removed + 1)

/-- The outer loop of `pfnlist_mkunique`. -/
def pfnlistMkuniqueLoop (rounds : ℕ) :
    ℕ → PfnHeap → Option ℕ → BitVec 32 → Except NoResult (PfnHeap × BitVec 32)
  | 0, _, _, _ => .error .rounds
  | _ + 1, h, none, removed => .ok (h, removed)
  | n + 1, h, some front, removed => do
    let (h, removed) ← pfnlistMkuniqueInner rounds front rounds h removed
    let node ← deref h (some front)
    pfnlistMkuniqueLoop rounds n h node.next removed

def pfnlistMkunique (rounds : ℕ) (h : PfnHeap) (root : Option ℕ) :
    Except NoResult (PfnHeap × BitVec 32) :=
  pfnlistMkuniqueLoop rounds rounds h root 0

/-- `free_pfn_ll` -/
def freePfnLl : ℕ → PfnHeap → Option ℕ → Except NoResult PfnHeap
  | 0, _, _ => .error .rounds
  | _ + 1, h, none => .ok h
  | n + 1, h, some tmp => do
    let node ← deref h (some tmp)
    let h ← kfree h (some tmp)
    freePfnLl n h node.next

variable {h : PfnHeap} {p : Option ℕ} {xs ys : List (ℕ × BitVec 64)}

theorem storeNext_fresh {h' : PfnHeap} {q : Option ℕ} (hstore : storeNext h p q = .ok h') :
    h'.fresh = h.fresh := by
  cases p with
  | none => cases hstore
  | some a =>
    rw [storeNext, Option.bind_some, Heap.setNext] at hstore
    cases hc : h.cells a with
    | none => rw [hc] at hstore; cases hstore
    | some c =>
      rw [hc, Option.map_some] at hstore
      obtain rfl := Except.ok.inj hstore
      rfl

theorem deref_some {a : ℕ} {c : Cell (BitVec 64)} (hc : h.cells a = some c) :
    deref h (some a) = .ok c := by
  simp only [deref, Option.bind_some, hc, valid]

theorem pfnlistSizeLoop_spec (hs : Segment h p xs none) (count : BitVec 32) {rounds : ℕ}
    (hrounds : xs.length < rounds) :
    pfnlistSizeLoop h rounds p count = .ok (count + BitVec.ofNat 32 xs.length) := by
  induction xs generalizing p count rounds with
  | nil =>
    obtain rfl := hs
    obtain ⟨n, rfl⟩ := Nat.exists_eq_add_one.mpr hrounds
    simp [pfnlistSizeLoop]
  | cons x xs ih =>
    obtain ⟨rfl, next, hc, hs⟩ := hs
    obtain ⟨n, rfl⟩ := Nat.exists_eq_add_one.mpr (Nat.zero_lt_of_lt hrounds)
    have hn : xs.length < n := by simpa using hrounds
    rw [pfnlistSizeLoop, deref_some hc]
    refine (ih hs (count + 1) hn).trans ?_
    rw [List.length_cons, BitVec.ofNat_add, BitVec.add_assoc, BitVec.add_comm 1]
    rfl

/-- `pfnlist_size` counts modulo the width of an `int`. -/
theorem pfnlistSize_spec (hs : Segment h p xs none) {rounds : ℕ} (hrounds : xs.length < rounds) :
    pfnlistSize h rounds p = .ok (BitVec.ofNat 32 xs.length) := by
  rw [pfnlistSize, pfnlistSizeLoop_spec hs 0 hrounds, BitVec.ofNat_eq_ofNat, BitVec.zero_add]

/-- The part of the array that is filled is `done`; the rest is still zero. -/
theorem pfnlistMkarrayLoop_spec (hs : Segment h p xs none) (done : List (BitVec 64))
    {length : BitVec 32} (hlen : done.length + xs.length = length.toNat) {rounds : ℕ}
    (hrounds : xs.length < rounds) :
    pfnlistMkarrayLoop h length rounds p (BitVec.ofNat 32 done.length)
      (done ++ List.replicate xs.length 0) = .ok (done ++ xs.map Prod.snd) := by
  have hlt := length.isLt
  induction xs generalizing p done rounds with
  | nil =>
    obtain rfl := hs
    obtain ⟨n, rfl⟩ := Nat.exists_eq_add_one.mpr hrounds
    simp [pfnlistMkarrayLoop]
  | cons x xs ih =>
    obtain ⟨rfl, next, hc, hs⟩ := hs
    obtain ⟨n, rfl⟩ := Nat.exists_eq_add_one.mpr (Nat.zero_lt_of_lt hrounds)
    rw [List.length_cons] at hlen hrounds
    have hcount : (BitVec.ofNat 32 done.length).toNat = done.length :=
      toNat_ofNat_of_lt (by omega)
    have hguard : BitVec.ofNat 32 done.length < length ∧ some x.1 ≠ none := by
      refine ⟨?_, Option.some_ne_none _⟩
      rw [BitVec.lt_def, hcount]
      omega
    rw [pfnlistMkarrayLoop, if_pos hguard, deref_some hc]
    simp only [bind, Except.bind]
    rw [if_pos (by simp [hcount])]
    have hset : (done ++ List.replicate (xs.length + 1) 0).set done.length x.2 =
        done ++ [x.2] ++ List.replicate xs.length 0 := by
      rw [List.set_append_right _ _ (Nat.le_refl _), Nat.sub_self, List.replicate_succ,
        List.set_cons_zero, List.append_assoc, List.singleton_append]
    have hn : xs.length < n := by omega
    have hnext := ih hs (done ++ [x.2]) (by simp; omega) hn
    rw [List.length_append, List.length_singleton, BitVec.ofNat_add] at hnext
    rw [List.length_cons, hcount, hset]
    refine hnext.trans ?_
    rw [List.map_cons, List.append_assoc, List.singleton_append]

section KzallocArray

variable {kzalloc : Kzalloc} {w : ℕ} {bytes : BitVec 64}

/-- A request for no elements need not be served. -/
theorem kzallocArray_eq (hw : 0 < w / 8) {n : ℕ} (hbytes : bytes.toNat = w / 8 * n)
    (hserved : 0 < n → kzalloc h.fresh bytes = true) :
    kzallocArray kzalloc h bytes = List.replicate n (0 : BitVec w) := by
  have hn : bytes.toNat / (w / 8) = n := by
    rw [hbytes, Nat.mul_div_cancel_left _ hw]
  rw [kzallocArray, hn]
  by_cases hzero : n = 0
  · rw [hzero, ite_self]
  · rw [if_pos (hserved (Nat.pos_of_ne_zero hzero))]

/-- An array with an element has been served. -/
theorem served_of_kzallocArray
    (hpos : 0 < (kzallocArray kzalloc h bytes : List (BitVec w)).length) :
    kzalloc h.fresh bytes = true := by
  by_contra hnot
  rw [kzallocArray, if_neg hnot] at hpos
  exact Nat.lt_irrefl _ hpos

end KzallocArray

/-- The bytes of an array of fewer than `2 ^ 31` frames. -/
theorem mul_signExtend_ofNat {n : ℕ} (hn : n < 2 ^ 31) :
    8 * (BitVec.ofNat 32 n).signExtend 64 = BitVec.ofNat 64 (8 * n) := by
  rw [signExtend_ofNat hn, BitVec.ofNat_mul]
  rfl

/-- While the size is in the range of an `int`, the array holds the frames in order. -/
theorem pfnlistMkarray_spec (hs : Segment h p xs none) (hlen : xs.length < 2 ^ 31)
    {kzalloc : Kzalloc}
    (hserved : 0 < xs.length → kzalloc h.fresh (BitVec.ofNat 64 (8 * xs.length)) = true)
    {rounds : ℕ} (hrounds : xs.length < rounds) :
    pfnlistMkarray h kzalloc rounds p (BitVec.ofNat 32 xs.length) = .ok (xs.map Prod.snd) := by
  have htoNat : (BitVec.ofNat 32 xs.length).toNat = xs.length :=
    toNat_ofNat_of_lt (by omega)
  have hbytes : (BitVec.ofNat 64 (8 * xs.length)).toNat = 64 / 8 * xs.length :=
    toNat_ofNat_of_lt (by omega)
  rw [pfnlistMkarray, mul_signExtend_ofNat hlen, kzallocArray_eq (by decide) hbytes hserved]
  exact pfnlistMkarrayLoop_spec hs [] (by simpa using htoNat.symm) hrounds

/-- The array keeps the length with which it was allocated. -/
theorem length_pfnlistMkarrayLoop {length count : BitVec 32} {rounds : ℕ}
    {array result : List (BitVec 64)}
    (hloop : pfnlistMkarrayLoop h length rounds p count array = .ok result) :
    result.length = array.length := by
  induction rounds generalizing p count array with
  | zero => cases hloop
  | succ n ih =>
    rw [pfnlistMkarrayLoop] at hloop
    by_cases hguard : count < length ∧ p ≠ none
    · rw [if_pos hguard] at hloop
      obtain ⟨node, -, hloop⟩ := bind_ok hloop
      by_cases hcount : count.toNat < array.length
      · rw [if_pos hcount] at hloop
        rw [ih hloop, List.length_set]
      · rw [if_neg hcount] at hloop
        cases hloop
    · rw [if_neg hguard] at hloop
      rw [Except.ok.inj hloop]

/-- An array of as many elements as the size says has a size in the range of an `int`, and if
it has any, then `kzalloc` has served it. -/
theorem of_length_pfnlistMkarray {kzalloc : Kzalloc} {length : BitVec 32} {rounds : ℕ}
    {result : List (BitVec 64)} (hcall : pfnlistMkarray h kzalloc rounds p length = .ok result)
    (hlen : result.length = length.toNat) :
    length.toNat < 2 ^ 31 ∧
      (0 < result.length → kzalloc h.fresh (BitVec.ofNat 64 (8 * result.length)) = true) := by
  have hlt := length.isLt
  have harray := length_pfnlistMkarrayLoop hcall
  have hrange : length.toNat < 2 ^ 31 := by
    by_contra hge
    have hserved := served_of_kzallocArray (harray ▸ show 0 < result.length by omega)
    rw [kzallocArray, if_pos hserved, List.length_replicate, hlen, BitVec.toNat_mul,
      BitVec.toNat_signExtend, BitVec.toNat_setWidth, BitVec.msb_eq_decide,
      if_pos (by simpa using hge), show (8 : BitVec 64).toNat = 8 from rfl] at harray
    omega
  refine ⟨hrange, fun hpos => ?_⟩
  have hbytes : 8 * length.signExtend 64 = BitVec.ofNat 64 (8 * result.length) := by
    rw [hlen, ← mul_signExtend_ofNat hrange, BitVec.ofNat_toNat, BitVec.setWidth_eq]
  rw [← hbytes]
  exact served_of_kzallocArray (harray ▸ hpos)

/-- With no node of the frame in the haystack nothing is found. -/
theorem pfnlistFindParentOf_none {needle : BitVec 64} {a : ℕ} {v : BitVec 64}
    (hc : h.cells a = some ⟨v, p⟩) (hs : Segment h p xs none) (hxs : ∀ x ∈ xs, x.2 ≠ needle)
    {rounds : ℕ} (hrounds : xs.length < rounds) :
    pfnlistFindParentOf h needle rounds (some a) p = .ok none := by
  induction xs generalizing p a v rounds with
  | nil =>
    obtain rfl := hs
    obtain ⟨n, rfl⟩ := Nat.exists_eq_add_one.mpr hrounds
    rfl
  | cons x xs ih =>
    obtain ⟨rfl, next, hx, hs⟩ := hs
    obtain ⟨n, rfl⟩ := Nat.exists_eq_add_one.mpr (Nat.zero_lt_of_lt hrounds)
    rw [pfnlistFindParentOf, deref_some hx, deref_some hc]
    simp only [bind, Except.bind]
    rw [if_neg (hxs x (by simp))]
    exact ih hx hs (fun y hy => hxs y (by simp [hy])) (by simpa using hrounds)

/-- The node found is the one right before the first node of the frame. -/
theorem pfnlistFindParentOf_some {needle : BitVec 64} {a b : ℕ} {v : BitVec 64}
    (hc : h.cells a = some ⟨v, p⟩) (hs : Segment h p (xs ++ (b, needle) :: ys) none)
    (hxs : ∀ x ∈ xs, x.2 ≠ needle) :
    ∃ before c w, (a, v) :: xs = before ++ [(c, w)] ∧ ∀ rounds, xs.length < rounds →
      pfnlistFindParentOf h needle rounds (some a) p = .ok (some c) := by
  induction xs generalizing p a v with
  | nil =>
    obtain ⟨rfl, next, hx, hs⟩ := hs
    refine ⟨[], a, v, rfl, fun rounds hrounds => ?_⟩
    obtain ⟨n, rfl⟩ := Nat.exists_eq_add_one.mpr hrounds
    rw [pfnlistFindParentOf, deref_some hx]
    exact if_pos rfl
  | cons x xs ih =>
    obtain ⟨rfl, next, hx, hs⟩ := hs
    obtain ⟨before, c, w, hlast, hfind⟩ := ih hx hs fun y hy => hxs y (by simp [hy])
    refine ⟨(a, v) :: before, c, w, by rw [List.cons_append, ← hlast], fun rounds hrounds => ?_⟩
    obtain ⟨n, rfl⟩ := Nat.exists_eq_add_one.mpr (Nat.zero_lt_of_lt hrounds)
    rw [pfnlistFindParentOf, deref_some hx, deref_some hc]
    simp only [bind, Except.bind]
    rw [if_neg (hxs x (by simp))]
    exact hfind n (by simpa using hrounds)

/-- A round of the inner loop that finds a node takes out the first of the frame. -/
theorem pfnlistMkuniqueInner_step {root : Option ℕ} {before : List (ℕ × BitVec 64)} {a b : ℕ}
    {v : BitVec 64} (hs : Segment h root (before ++ (a, v) :: (xs ++ (b, v) :: ys)) none)
    (hxs : ∀ x ∈ xs, x.2 ≠ v) :
    ∃ h', Segment h' root (before ++ (a, v) :: (xs ++ ys)) none ∧ h'.fresh = h.fresh ∧
      h'.freed = h.freed ++ [b] ∧
      ∀ rounds n removed, xs.length < rounds →
        pfnlistMkuniqueInner rounds a (n + 1) h removed =
          pfnlistMkuniqueInner rounds a n h' (removed + 1) := by
  obtain ⟨next, ha, hrest⟩ := hs.rest
  obtain ⟨init, c, w, hlast, hfind⟩ := pfnlistFindParentOf_some ha hrest hxs
  -- The list again, with the node found and the one after it in view.
  have hsplit : before ++ (a, v) :: (xs ++ (b, v) :: ys) =
      (before ++ init) ++ (c, w) :: (b, v) :: ys := by
    rw [← List.cons_append, hlast]
    simp only [List.append_assoc, List.singleton_append]
  rw [hsplit] at hs
  obtain ⟨needleNext, h₁, h₂, hcell, hneedle, hset, hfree, hs₂, -, -, hfresh,
    hfreed⟩ := hs.remove
  refine ⟨h₂, ?_, hfresh, hfreed, fun rounds n removed hrounds => ?_⟩
  · rw [← List.cons_append, hlast]
    simpa only [List.append_assoc, List.singleton_append] using hs₂
  · have hstore : storeNext h (some c) needleNext = .ok h₁ := by
      rw [storeNext, Option.bind_some, hset, valid]
    have hkfree : kfree h₁ (some b) = .ok h₂ := by
      rw [kfree, Option.bind_some, hfree, valid]
    rw [pfnlistMkuniqueInner, deref_some ha]
    simp only [bind, Except.bind, hfind rounds hrounds, deref_some hcell, deref_some hneedle,
      hstore, hkfree]

/-- The inner loop takes out the nodes after `a` that have its frame, and no others. -/
theorem pfnlistMkuniqueInner_spec {root : Option ℕ} {before : List (ℕ × BitVec 64)} {a : ℕ}
    {v : BitVec 64} (hs : Segment h root (before ++ (a, v) :: xs) none) :
    ∃ h', Segment h' root (before ++ (a, v) :: xs.filter (·.2 ≠ v)) none ∧
      h'.fresh = h.fresh ∧ h'.freed = h.freed ++ (xs.filter (·.2 = v)).map Prod.fst ∧
      ∀ rounds n removed, xs.length < rounds → xs.length < n →
        pfnlistMkuniqueInner rounds a n h removed =
          .ok (h', removed + BitVec.ofNat 32 (xs.countP (·.2 = v))) := by
  induction hlen : xs.length using Nat.strongRecOn generalizing h xs with
  | _ k ih =>
    cases hfind : xs.find? (·.2 = v) with
    | none =>
      have hxs : ∀ x ∈ xs, x.2 ≠ v := by simpa using hfind
      obtain ⟨next, ha, hrest⟩ := hs.rest
      have hcount : xs.countP (·.2 = v) = 0 := by simpa using hxs
      have hkeep : xs.filter (·.2 ≠ v) = xs := by simpa using hxs
      have hgone : xs.filter (·.2 = v) = [] := by simpa using hxs
      refine ⟨h, by rwa [hkeep], rfl, by rw [hgone, List.map_nil, List.append_nil], ?_⟩
      intro rounds n removed hrounds hn
      obtain ⟨n, rfl⟩ := Nat.exists_eq_add_one.mpr (Nat.zero_lt_of_lt hn)
      have hparent := pfnlistFindParentOf_none ha hrest hxs (hlen ▸ hrounds)
      rw [pfnlistMkuniqueInner, deref_some ha]
      simp only [bind, Except.bind, hparent, hcount, BitVec.add_zero]
    | some x =>
      obtain ⟨hx, mid, after, rfl, hmid⟩ := List.find?_eq_some_iff_append.mp hfind
      obtain ⟨b, w⟩ := x
      obtain rfl : w = v := by simpa using hx
      have hne : ∀ y ∈ mid, y.2 ≠ w := by simpa using hmid
      have hcount : mid.countP (·.2 = w) = 0 := by simpa using hne
      have hgone : mid.filter (·.2 = w) = [] := by simpa using hne
      obtain ⟨h₁, hs₁, hfresh₁, hfreed₁, hstep⟩ := pfnlistMkuniqueInner_step hs hne
      rw [List.length_append, List.length_cons] at hlen
      obtain ⟨h', hs', hfresh, hfreed, hloop⟩ := ih (k - 1) (by omega) hs₁ (by simp; omega)
      refine ⟨h', by simpa using hs', hfresh.trans hfresh₁, ?_, ?_⟩
      · rw [hfreed, hfreed₁, List.filter_append, List.filter_append, hgone]
        simp
      · intro rounds n removed hrounds hn
        obtain ⟨n, rfl⟩ := Nat.exists_eq_add_one.mpr (Nat.zero_lt_of_lt hn)
        rw [hstep rounds n removed (by omega), hloop rounds n _ (by omega) (by omega),
          List.countP_append, List.countP_append, hcount, List.countP_cons_of_pos (by simp),
          Nat.zero_add, Nat.zero_add, BitVec.ofNat_add, BitVec.add_assoc, BitVec.add_comm 1]
        rfl

/-- What `pfnlist_mkunique` does from a node on, when the frames before it differ from
all after them. -/
theorem pfnlistMkuniqueLoop_spec {root : Option ℕ} {before : List (ℕ × BitVec 64)}
    (hs : Segment h root (before ++ xs) none) (hp : Segment h p xs none) :
    ∃ h' gone, Segment h' root (before ++ firsts xs) none ∧ h'.fresh = h.fresh ∧
      h'.freed = h.freed ++ gone ∧
      (gone ++ (firsts xs).map Prod.fst).Perm (xs.map Prod.fst) ∧
      ∀ rounds n removed, xs.length < rounds → xs.length < n →
        pfnlistMkuniqueLoop rounds n h p removed =
          .ok (h', removed + BitVec.ofNat 32 (xs.length - (firsts xs).length)) := by
  induction xs using firsts_induction generalizing h p before with
  | nil =>
    obtain rfl := hp
    refine ⟨h, [], hs, rfl, by simp, by simp, fun rounds n removed _ hn => ?_⟩
    obtain ⟨n, rfl⟩ := Nat.exists_eq_add_one.mpr hn
    simp [pfnlistMkuniqueLoop]
  | cons x xs ih =>
    obtain ⟨a, v⟩ := x
    dsimp only at ih
    obtain rfl := hp.1
    obtain ⟨h₁, hs₁, hfresh₁, hfreed₁, hinner⟩ := pfnlistMkuniqueInner_spec hs
    obtain ⟨next, ha, hrest⟩ := hs₁.rest
    rw [List.append_cons] at hs₁
    obtain ⟨h', gone, hs', hfresh, hfreed, hperm, hloop⟩ := ih hs₁ hrest
    have hsum : xs.length = (xs.filter (·.2 = v)).length + _ := List.length_eq_length_filter_add _
    have hfirsts : (firsts (xs.filter (·.2 ≠ v))).length ≤ _ := firsts_sublist.length_le
    have hsplit := (List.filter_append_perm (fun y : ℕ × BitVec 64 => decide (y.2 = v)) xs).map
      Prod.fst
    simp only [decide_not, List.map_append] at hsum hfirsts hsplit hperm hloop ⊢
    rw [firsts_cons]
    simp only [decide_not]
    refine ⟨h', (xs.filter (·.2 = v)).map Prod.fst ++ gone, ?_, hfresh.trans hfresh₁, ?_, ?_, ?_⟩
    · simpa only [List.append_assoc, List.singleton_append, decide_not] using hs'
    · rw [hfreed, hfreed₁, List.append_assoc]
    · rw [List.map_cons, List.map_cons, List.append_assoc, ← List.append_assoc]
      refine List.perm_middle.trans ((List.Perm.trans ?_ hsplit).cons a)
      rw [List.append_assoc]
      exact hperm.append_left _
    · intro rounds n removed hrounds hn
      obtain ⟨n, rfl⟩ := Nat.exists_eq_add_one.mpr (Nat.zero_lt_of_lt hn)
      rw [List.length_cons] at hrounds hn
      rw [pfnlistMkuniqueLoop, hinner rounds rounds removed (by omega) (by omega)]
      simp only [bind, Except.bind, deref_some ha]
      rw [hloop rounds n _ (by omega) (by omega), BitVec.add_assoc, ← BitVec.ofNat_add,
        List.countP_eq_length_filter, List.length_cons, List.length_cons]
      congr 4
      omega

/-- `pfnlist_mkunique` keeps the first node of every frame, frees the others and returns how
many these are. -/
theorem pfnlistMkunique_spec (hs : Segment h p xs none) :
    ∃ h' gone, Segment h' p (firsts xs) none ∧ h'.fresh = h.fresh ∧ h'.freed = h.freed ++ gone ∧
      (gone ++ (firsts xs).map Prod.fst).Perm (xs.map Prod.fst) ∧
      ∀ rounds, xs.length < rounds → pfnlistMkunique rounds h p =
        .ok (h', BitVec.ofNat 32 (xs.length - (firsts xs).length)) := by
  obtain ⟨h', gone, hs', hfresh, hfreed, hperm, hloop⟩ :=
    pfnlistMkuniqueLoop_spec (List.nil_append xs ▸ hs) hs
  refine ⟨h', gone, hs', hfresh, hfreed, hperm, fun rounds hrounds => ?_⟩
  rw [pfnlistMkunique, hloop rounds rounds 0 hrounds hrounds, BitVec.ofNat_eq_ofNat,
    BitVec.zero_add]

/-- `free_pfn_ll` frees the nodes of a list in order, each once. -/
theorem freePfnLl_spec (hs : Segment h p xs none) :
    ∃ h', h'.fresh = h.fresh ∧ h'.freed = h.freed ++ xs.map Prod.fst ∧
      ∀ rounds, xs.length < rounds → freePfnLl rounds h p = .ok h' := by
  induction xs generalizing h p with
  | nil =>
    obtain rfl := hs
    refine ⟨h, rfl, (List.append_nil _).symm, fun rounds hrounds => ?_⟩
    obtain ⟨n, rfl⟩ := Nat.exists_eq_add_one.mpr hrounds
    rfl
  | cons x xs ih =>
    obtain ⟨a, v⟩ := x
    have hnodup := hs.nodup
    obtain ⟨rfl, next, hc, hs⟩ := hs
    obtain ⟨h₁, hfree, hcells, hfresh, hfreed⟩ := Heap.free_of_cells hc
    have hrest : Segment h₁ next xs none := hs.congr fun b hb => by
      have hne : b ≠ a := fun hab => (List.nodup_cons.mp hnodup).1 (hab ▸ hb)
      rw [hcells, Function.update_of_ne hne]
    obtain ⟨h', hfresh', hfreed', hloop⟩ := ih hrest
    refine ⟨h', hfresh'.trans hfresh, by rw [hfreed', hfreed, List.append_assoc]; rfl,
      fun rounds hrounds => ?_⟩
    obtain ⟨n, rfl⟩ := Nat.exists_eq_add_one.mpr (Nat.zero_lt_of_lt hrounds)
    have hkfree : kfree h (some a) = .ok h₁ := by
      rw [kfree, Option.bind_some, hfree, valid]
    rw [freePfnLl, deref_some hc]
    simp only [bind, Except.bind, hkfree]
    exact hloop n (Nat.lt_of_succ_lt_succ hrounds)

end Maitland
