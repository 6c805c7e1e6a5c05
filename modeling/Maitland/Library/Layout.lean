import Mathlib.Algebra.Group.Nat.Defs
import Mathlib.Data.List.Basic

/-!
# Struct layout

How C lays out a struct under the System V rules of x86-64: every scalar is aligned to
its size, an embedded struct to the largest alignment in it, and a struct is padded to
a multiple of its own alignment.  Members are stored byte by byte, the least
significant first.
-/

namespace Layout

/-- The scalars of the LP64 model by their size; a pointer is a `u64`. -/
inductive Scalar where
  | u8
  | u16
  | u32
  | u64
  deriving DecidableEq

def Scalar.bytes : Scalar → ℕ
  | .u8 => 1
  | .u16 => 2
  | .u32 => 4
  | .u64 => 8

theorem Scalar.bytes_pos (t : Scalar) : 0 < t.bytes := by cases t <;> decide

/-- The next multiple of the alignment `a`. -/
def roundUp (n a : ℕ) : ℕ := (n + (a - 1)) / a * a

theorem le_roundUp {a : ℕ} (ha : 0 < a) (n : ℕ) : n ≤ roundUp n a := by
  have hdiv := Nat.div_add_mod (n + (a - 1)) a
  have hmod := Nat.mod_lt (n + (a - 1)) ha
  rw [Nat.mul_comm] at hdiv
  unfold roundUp
  omega

/-- The members of a struct in order, each with its name. -/
inductive Decl (ι : Type*) where
  | nil
  | scalar (name : ι) (type : Scalar) (rest : Decl ι)
  /-- `char name[length]` -/
  | chars (name : ι) (length : ℕ) (rest : Decl ι)
  /-- An embedded struct, whose members go by their own names. -/
  | embed (inner rest : Decl ι)

/-- A scalar or array member with the place it has in the whole struct. -/
structure Leaf (ι : Type*) where
  name : ι
  offset : ℕ
  size : ℕ
  deriving DecidableEq

namespace Decl

variable {ι : Type*}

def align : Decl ι → ℕ
  | .nil => 1
  | .scalar _ type rest => max type.bytes rest.align
  | .chars _ _ rest => rest.align
  | .embed inner rest => max inner.align rest.align

/-- The first byte after the last member, with the first one laid out from `off` on. -/
def stop : Decl ι → ℕ → ℕ
  | .nil, off => off
  | .scalar _ type rest, off => rest.stop (roundUp off type.bytes + type.bytes)
  | .chars _ length rest, off => rest.stop (off + length)
  | .embed inner rest, off =>
    rest.stop (roundUp off inner.align + roundUp (inner.stop 0) inner.align)

/-- `sizeof` -/
def size (d : Decl ι) : ℕ := roundUp (d.stop 0) d.align

/-- The members of a struct that begins at `base`, from its offset `off` on. -/
def leavesFrom : Decl ι → ℕ → ℕ → List (Leaf ι)
  | .nil, _, _ => []
  | .scalar name type rest, base, off =>
    ⟨name, base + roundUp off type.bytes, type.bytes⟩ ::
      rest.leavesFrom base (roundUp off type.bytes + type.bytes)
  | .chars name length rest, base, off =>
    ⟨name, base + off, length⟩ :: rest.leavesFrom base (off + length)
  | .embed inner rest, base, off =>
    inner.leavesFrom (base + roundUp off inner.align) 0 ++
      rest.leavesFrom base (roundUp off inner.align + roundUp (inner.stop 0) inner.align)

def leaves (d : Decl ι) : List (Leaf ι) := d.leavesFrom 0 0

/-- The size of a union of two structs. -/
def unionSize (d d' : Decl ι) : ℕ := roundUp (max d.size d'.size) (max d.align d'.align)

theorem align_pos (d : Decl ι) : 0 < d.align := by
  induction d with
  | nil => exact Nat.one_pos
  | scalar name type rest ih => exact Nat.lt_of_lt_of_le ih (Nat.le_max_right _ _)
  | chars name length rest ih => exact ih
  | embed inner rest ihi ih => exact Nat.lt_of_lt_of_le ih (Nat.le_max_right _ _)

theorem le_stop (d : Decl ι) (off : ℕ) : off ≤ d.stop off := by
  induction d generalizing off with
  | nil => exact Nat.le_refl _
  | scalar name type rest ih =>
    have hround := le_roundUp type.bytes_pos off
    exact Nat.le_trans (by omega) (ih _)
  | chars name length rest ih => exact Nat.le_trans (by omega) (ih _)
  | embed inner rest ihi ih =>
    have hround := le_roundUp inner.align_pos off
    exact Nat.le_trans (by omega) (ih _)

/-- Every member lies between where the layout begins and where it stops. -/
theorem leavesFrom_bounds (d : Decl ι) (base off : ℕ) :
    ∀ l ∈ d.leavesFrom base off, base + off ≤ l.offset ∧ l.offset + l.size ≤ base + d.stop off := by
  induction d generalizing base off with
  | nil => simp [leavesFrom]
  | scalar name type rest ih =>
    have hround := le_roundUp type.bytes_pos off
    have hstop := rest.le_stop (roundUp off type.bytes + type.bytes)
    intro l hl
    rcases List.mem_cons.mp hl with rfl | hl
    · simp only [stop]
      omega
    · have := ih _ _ l hl
      simp only [stop]
      omega
  | chars name length rest ih =>
    have hstop := rest.le_stop (off + length)
    intro l hl
    rcases List.mem_cons.mp hl with rfl | hl
    · simp only [stop]
      omega
    · have := ih _ _ l hl
      simp only [stop]
      omega
  | embed inner rest ihi ih =>
    have hround := le_roundUp inner.align_pos off
    have hsize := le_roundUp inner.align_pos (inner.stop 0)
    have hstop := rest.le_stop (roundUp off inner.align + roundUp (inner.stop 0) inner.align)
    intro l hl
    rcases List.mem_append.mp hl with hl | hl
    · have := ihi _ _ l hl
      simp only [stop]
      omega
    · have := ih _ _ l hl
      simp only [stop]
      omega

theorem leavesFrom_disjoint (d : Decl ι) (base off : ℕ) :
    (d.leavesFrom base off).Pairwise fun a b => a.offset + a.size ≤ b.offset := by
  induction d generalizing base off with
  | nil => exact List.Pairwise.nil
  | scalar name type rest ih =>
    refine List.pairwise_cons.mpr ⟨fun b hb => ?_, ih _ _⟩
    have := rest.leavesFrom_bounds _ _ b hb
    dsimp only
    omega
  | chars name length rest ih =>
    refine List.pairwise_cons.mpr ⟨fun b hb => ?_, ih _ _⟩
    have := rest.leavesFrom_bounds _ _ b hb
    dsimp only
    omega
  | embed inner rest ihi ih =>
    refine List.pairwise_append.mpr ⟨ihi _ _, ih _ _, fun a ha b hb => ?_⟩
    have := inner.leavesFrom_bounds _ _ a ha
    have := rest.leavesFrom_bounds _ _ b hb
    have := le_roundUp inner.align_pos (inner.stop 0)
    omega

theorem leaves_disjoint (d : Decl ι) :
    d.leaves.Pairwise fun a b => a.offset + a.size ≤ b.offset :=
  d.leavesFrom_disjoint 0 0

end Decl

abbrev Memory := ℕ → BitVec 8

/-- The low `n` bytes of a value, stored from the address `a` on. -/
def store (m : Memory) (a n v : ℕ) : Memory := fun i =>
  if a ≤ i ∧ i < a + n then BitVec.ofNat 8 (v / 256 ^ (i - a)) else m i

/-- The value of the `n` bytes from `a` on. -/
def load (m : Memory) : ℕ → ℕ → ℕ
  | _, 0 => 0
  | a, n + 1 => (m a).toNat + 256 * load m (a + 1) n

theorem load_congr {m m' : Memory} {a n : ℕ} (h : ∀ i, a ≤ i → i < a + n → m i = m' i) :
    load m a n = load m' a n := by
  induction n generalizing a with
  | zero => rfl
  | succ n ih =>
    rw [load, load, h a (Nat.le_refl _) (by omega),
      ih fun i hi hlt => h i (by omega) (by omega)]

theorem load_store_of_disjoint (m : Memory) {a n a' n' : ℕ} (v : ℕ)
    (h : a + n ≤ a' ∨ a' + n' ≤ a) : load (store m a' n' v) a n = load m a n := by
  refine load_congr fun i hi hlt => ?_
  exact if_neg (by omega)

/-- Bytes that are those of a value are read as that value. -/
theorem load_of_bytes {m : Memory} {a n v : ℕ}
    (h : ∀ i, i < n → m (a + i) = BitVec.ofNat 8 (v / 256 ^ i)) : load m a n = v % 256 ^ n := by
  induction n generalizing a v with
  | zero => rw [load, Nat.pow_zero, Nat.mod_one]
  | succ n ih =>
    have hrest : load m (a + 1) n = v / 256 % 256 ^ n := by
      refine ih fun i hi => ?_
      rw [Nat.add_assoc, Nat.add_comm 1 i, h (i + 1) (by omega), Nat.div_div_eq_div_mul,
        Nat.pow_succ, Nat.mul_comm]
    have hfirst := h 0 (by omega)
    rw [Nat.add_zero, Nat.pow_zero, Nat.div_one] at hfirst
    have hbyte : (BitVec.ofNat 8 v).toNat = v % 256 := BitVec.toNat_ofNat v 8
    rw [load, hfirst, hrest, hbyte, Nat.pow_succ', Nat.mod_mul]

theorem load_store_self (m : Memory) (a n v : ℕ) : load (store m a n v) a n = v % 256 ^ n := by
  refine load_of_bytes fun i hi => ?_
  rw [store, if_pos ⟨by omega, by omega⟩, Nat.add_sub_cancel_left]

section Structs

variable {ι : Type*}

/-- Members one after the other, at `base`; what lies between them stays as it was. -/
def storeLeaves (m : Memory) (base : ℕ) (val : ι → ℕ) (leaves : List (Leaf ι)) : Memory :=
  leaves.foldl (fun m l => store m (base + l.offset) l.size (val l.name)) m

theorem load_storeLeaves_of_disjoint {m : Memory} {base a n : ℕ} {val : ι → ℕ}
    {leaves : List (Leaf ι)} (h : ∀ l ∈ leaves, a + n ≤ base + l.offset) :
    load (storeLeaves m base val leaves) a n = load m a n := by
  induction leaves generalizing m with
  | nil => rfl
  | cons l leaves ih =>
    refine (ih fun l' hl' => h l' (List.mem_cons_of_mem _ hl')).trans ?_
    exact load_store_of_disjoint m _ (.inl (h l List.mem_cons_self))

/-- Of members that do not overlap each is read as it was stored. -/
theorem load_storeLeaves {m : Memory} {base : ℕ} {val : ι → ℕ} {leaves : List (Leaf ι)}
    (hd : leaves.Pairwise fun a b => a.offset + a.size ≤ b.offset) {l : Leaf ι}
    (hl : l ∈ leaves) :
    load (storeLeaves m base val leaves) (base + l.offset) l.size =
      val l.name % 256 ^ l.size := by
  induction leaves generalizing m with
  | nil => cases hl
  | cons x leaves ih =>
    obtain ⟨hx, hd⟩ := List.pairwise_cons.mp hd
    rcases List.mem_cons.mp hl with rfl | hl
    · have hlater : ∀ l' ∈ leaves, base + l.offset + l.size ≤ base + l'.offset := by
        intro l' hl'
        have := hx l' hl'
        omega
      exact (load_storeLeaves_of_disjoint hlater).trans (load_store_self _ _ _ _)
    · exact ih hd hl

variable [DecidableEq ι]

def Decl.leaf? (d : Decl ι) (name : ι) : Option (Leaf ι) :=
  d.leaves.find? fun l => l.name = name

/-- A struct value at `base`, by the values of its members. -/
def Decl.write (d : Decl ι) (m : Memory) (base : ℕ) (val : ι → ℕ) : Memory :=
  storeLeaves m base val d.leaves

/-- A member of the struct at `base`; `none` when it has no member of this name. -/
def Decl.read (d : Decl ι) (m : Memory) (base : ℕ) (name : ι) : Option ℕ :=
  (d.leaf? name).map fun l => load m (base + l.offset) l.size

/-- A member that two declarations put at one place is read under the one as it was
written under the other. -/
theorem Decl.read_write {d d' : Decl ι} {name : ι} {l : Leaf ι} (h : d.leaf? name = some l)
    (h' : d'.leaf? name = some l) (m : Memory) (base : ℕ) (val : ι → ℕ) :
    d'.read (d.write m base val) base name = some (val name % 256 ^ l.size) := by
  have hname : l.name = name := by simpa using List.find?_some h
  have hmem : l ∈ d.leaves := List.mem_of_find?_eq_some h
  rw [read, h', Option.map_some, write, load_storeLeaves d.leaves_disjoint hmem, hname]

end Structs

end Layout
