import Maitland.Monitor.Read

/-!
# Reading the device

What one call of `monitor_read` does to the user's buffer, for every offset, count
and pattern of partial copies, and when it is the positional read a dump needs.
`l.areas.length + 1` rounds suffice for either loop; `spare` rounds may come on top.
-/

namespace Maitland

open MachineInt

variable {β : Type}

/-- The call reads areas of the list only, writes inside the buffer only, and leaves
in front of it the copied prefixes, in list order. -/
structure ReadInBounds (l : VmStructList β) (count : BitVec 64) (buffer : ℤ → β)
    (r : ReadResult β) : Prop where
  inside : ∀ x ∈ r.copies, x.Inside l count.toNat
  order : (r.copies.map Copy.index).Pairwise (· < ·)
  untouched : ∀ a, a < 0 ∨ (count.toNat : ℤ) ≤ a → r.buffer a = buffer a
  ret_nonneg : 0 ≤ r.ret.toInt
  ret_le : r.ret.toInt ≤ count.toNat
  contents : (List.range r.ret.toNat).map (fun k : ℕ => r.buffer k) = r.copies.flatMap Copy.bytes

/-- The bytes from the offset on, as many as were asked for and as there are. -/
structure PositionalRead (l : VmStructList β) (count offp : BitVec 64) (buffer : ℤ → β) (n : ℕ)
    (r : ReadResult β) : Prop where
  length : n = min count.toNat (l.areas.flatten.length - offp.toNat)
  ret : r.ret.toNat = n
  bytes : (List.range n).map (fun k : ℕ => r.buffer k) =
    (l.areas.flatten.drop offp.toNat).take n
  untouched : ∀ a, a < 0 ∨ (n : ℤ) ≤ a → r.buffer a = buffer a
  advanced : r.offp.toNat = offp.toNat + n

/-- The copies always succeed, and the call reads at its position. -/
def ReadsAtPosition (l : VmStructList β) (spare : ℕ) (buffer : ℤ → β) (count offp : BitVec 64) :
    Prop :=
  ∃ n r, monitorRead l (fun _ => 0) (l.areas.length + 1 + spare) buffer count offp = some r ∧
    PositionalRead l count offp buffer n r

section Reader

variable (l : VmStructList β) (spare : ℕ) (buffer : ℤ → β) (counts : ℕ → BitVec 64)

/-- The position of a reader that began at offset 0, before its `k`-th call. -/
def readerOffp : ℕ → Option (BitVec 64)
  | 0 => some 0
  | k + 1 => (readerOffp k).bind fun offp =>
    (monitorRead l (fun _ => 0) (l.areas.length + 1 + spare) buffer (counts k) offp).map
      ReadResult.offp

/-- The `k`-th call of the reader. -/
def readerCall (k : ℕ) : Option (ReadResult β) :=
  (readerOffp l spare buffer counts k).bind
    (monitorRead l (fun _ => 0) (l.areas.length + 1 + spare) buffer (counts k))

/-- The reader reads until it gets nothing, and then has the content. -/
def ReaderYields : Prop :=
  ∃ k, (readerCall l spare buffer counts k).map ReadResult.ret = some 0 ∧
    (∀ j < k, (readerCall l spare buffer counts j).map ReadResult.ret ≠ some 0) ∧
    ((List.range k).flatMap fun j => (readerCall l spare buffer counts j).elim []
      fun r => (List.range r.ret.toNat).map fun i : ℕ => r.buffer i) = l.areas.flatten

end Reader

theorem VmStructList.length_flatten (l : VmStructList β) :
    l.areas.flatten.length = l.areas.length * monitorVmstructSize := by
  rw [List.length_flatten, List.map_congr_left l.length_eq, List.map_const', List.sum_replicate_nat]

/-- The front of the buffer is the data. -/
theorem range_map_eq_of_getElem? {buffer : ℤ → β} {data : List β}
    (h : ∀ (k : ℕ) v, data[k]? = some v → buffer k = v) :
    (List.range data.length).map (fun k : ℕ => buffer k) = data := by
  refine List.ext_getElem (by simp) fun k _ hk => ?_
  rw [List.getElem_map, List.getElem_range]
  exact h k _ (List.getElem?_eq_getElem hk)

namespace ReadFrame.At

variable {l : VmStructList β} {left : ℕ → ℕ} {buffer : ℤ → β} {start limit : ℕ}
  {f : ReadFrame β}

theorem front (h : f.At l left buffer start limit 0) :
    (List.range f.data.length).map (fun k : ℕ => f.buffer k) = f.data :=
  range_map_eq_of_getElem? h.stored

theorem index_pairwise (h : f.At l left buffer start limit 0) :
    (f.copies.map Copy.index).Pairwise (· < ·) := by
  rw [h.order, List.pairwise_map]
  refine List.pairwise_lt_range.imp fun hlt => ?_
  omega

end ReadFrame.At

theorem toNat_ofNat_ret {n : ℕ} (h : n < 2 ^ 31) : (BitVec.ofNat 64 n).toNat = n :=
  toNat_ofNat_of_lt (by omega)

theorem toInt_ofNat_ret {n : ℕ} (h : n < 2 ^ 31) : (BitVec.ofNat 64 n).toInt = n := by
  rw [BitVec.toInt_eq_toNat_cond, toNat_ofNat_ret h]
  omega

/-- Whatever the offset, the count and the copies that are cut short, a call ends and
stays inside the list and the buffer. -/
theorem monitor_read_stays_inside (l : VmStructList β) (left : ℕ → ℕ) (spare : ℕ)
    (buffer : ℤ → β) (count offp : BitVec 64) :
    ∃ r, monitorRead l left (l.areas.length + 1 + spare) buffer count offp = some r ∧
      ReadInBounds l count buffer r := by
  rcases monitorRead_cases l left (show l.areas.length < l.areas.length + 1 + spare by omega) buffer
    count offp with ⟨_, hread⟩ | ⟨limit, f, hstart, hlimit, hat, hread⟩
  · refine ⟨_, hread, ?_⟩
    exact ⟨by simp, by simp, fun _ _ => rfl, by simp, by simp, by simp⟩
  · obtain ⟨hcount, _⟩ := readLeftover_le l count hstart
    have hlt := (toInt_toNat_le (readLeftover l count
      (BitVec.ofNat 32 (startIndex offp.toNat)))).2
    rw [← hlimit] at hcount hlt
    have hfits := hat.fits
    refine ⟨_, hread, ?_⟩
    constructor
    · intro x hx
      have hin := hat.inside x hx
      exact ⟨hin.index_nonneg, hin.index_lt, hin.dst_nonneg, by have := hin.dst_le; omega,
        hin.bytes_le, hin.bytes_prefix⟩
    · exact hat.index_pairwise
    · intro a ha
      exact hat.kept a (by omega)
    · rw [toInt_ofNat_ret (by omega)]
      omega
    · rw [toInt_ofNat_ret (by omega)]
      omega
    · rw [toNat_ofNat_ret (by omega)]
      exact hat.front

/-- What a call does return, for a count that fits an `int`: the bytes from the next
area on.  At a multiple of the area size these are the bytes at the offset. -/
theorem monitorRead_rounds_up (l : VmStructList β) (spare : ℕ) (buffer : ℤ → β)
    {count : BitVec 64} (hcount : count.toNat < 2 ^ 31) (offp : BitVec 64) :
    let pos := startIndex offp.toNat * monitorVmstructSize
    let n := min count.toNat (l.areas.flatten.length - pos)
    ∃ r, monitorRead l (fun _ => 0) (l.areas.length + 1 + spare) buffer count offp = some r ∧
      r.ret.toNat = n ∧ r.offp = offp ∧
      (List.range n).map (fun k : ℕ => r.buffer k) = (l.areas.flatten.drop pos).take n := by
  intro pos n
  have hlen := l.length_flatten
  rcases monitorRead_cases l (fun _ => 0)
    (show l.areas.length < l.areas.length + 1 + spare by omega) buffer count offp with
    ⟨hlt, hr⟩ | ⟨limit, f, hstart, hlimit, hat, hr⟩
  · have hpos := (startIndex_le_iff offp.toNat (startIndex offp.toNat)).mp (Nat.le_refl _)
    have hn : n = 0 := by omega
    exact ⟨_, hr, by rw [hn]; rfl, rfl, by rw [hn]; rfl⟩
  · rw [readLeftover_eq l hcount hstart, Nat.sub_mul, ← hlen] at hlimit
    have hdata : f.data = (l.areas.flatten.drop pos).take n := by
      have hwhole := hat.whole fun _ => rfl
      rw [List.take_zero, List.append_nil, hlimit] at hwhole
      exact hwhole
    have hdlen : f.data.length = n := by
      rw [hdata, List.length_take, List.length_drop]
      omega
    refine ⟨_, hr, ?_, rfl, ?_⟩
    · rw [hdlen, toNat_ofNat_ret (by omega)]
    · rw [← hdata, ← hdlen]
      exact hat.front

/-- No call moves its position. -/
theorem monitorRead_offp {l : VmStructList β} {left : ℕ → ℕ} {rounds : ℕ} {buffer : ℤ → β}
    {count offp : BitVec 64} {r : ReadResult β}
    (h : monitorRead l left rounds buffer count offp = some r) : r.offp = offp := by
  rw [monitorRead] at h
  split at h
  · rw [← Option.some.inj h]
  · simp only [Option.bind_eq_bind, Option.bind_eq_some_iff] at h
    obtain ⟨i, _, f, _, hr⟩ := h
    rw [← Option.some.inj hr]

theorem readsAtPosition_iff (l : VmStructList β) (spare : ℕ) (buffer : ℤ → β)
    (count offp : BitVec 64) :
    ReadsAtPosition l spare buffer count offp ↔
      count.toNat = 0 ∨ l.areas.flatten.length ≤ offp.toNat := by
  have hcases := monitorRead_cases l (fun _ => 0)
    (show l.areas.length < l.areas.length + 1 + spare by omega) buffer count offp
  constructor
  · rintro ⟨n, r, hread, h⟩
    have hoffp := monitorRead_offp hread
    have hadv := h.advanced
    have hlen := h.length
    rw [hoffp] at hadv
    omega
  · intro hnone
    rcases hcases with ⟨hlt, hr⟩ | ⟨limit, f, hstart, hlimit, hat, hr⟩
    · refine ⟨0, _, hr, ?_, rfl, rfl, fun _ _ => rfl, rfl⟩
      rw [l.length_flatten]
      omega
    · obtain ⟨hcount, havail⟩ := readLeftover_le l count hstart
      rw [← hlimit] at hcount havail
      have hzero : limit = 0 := by
        rcases hnone with hnone | hnone
        · omega
        · rw [l.length_flatten] at hnone
          have hge : l.areas.length ≤ startIndex offp.toNat := by
            by_contra hgt
            have := (startIndex_le_iff offp.toNat (startIndex offp.toNat)).mp (Nat.le_refl _)
            have := Nat.mul_lt_mul_of_pos_right (Nat.not_le.mp hgt)
              (show 0 < monitorVmstructSize by decide)
            omega
          rw [Nat.sub_eq_zero_of_le hge, Nat.zero_mul] at havail
          omega
      have hfits := hat.fits
      have hdata : f.data = [] := List.length_eq_zero_iff.mp (by omega)
      refine ⟨0, _, hr, by omega, ?_, rfl, ?_, rfl⟩
      · rw [hdata]
        rfl
      · intro a ha
        exact hat.kept a (by omega)

theorem readerOffp_eq_zero (l : VmStructList β) (spare : ℕ) (buffer : ℤ → β)
    (counts : ℕ → BitVec 64) (k : ℕ) : readerOffp l spare buffer counts k = some 0 := by
  induction k with
  | zero => rfl
  | succ k ih =>
    rw [readerOffp, ih, Option.bind_some]
    rcases monitorRead_cases l (fun _ => 0) (show l.areas.length < l.areas.length + 1 + spare by
      omega) buffer (counts k) 0 with ⟨_, hr⟩ | ⟨limit, f, _, _, _, hr⟩
    · rw [hr, Option.map_some]
    · rw [hr, Option.map_some]

theorem readerCall_eq (l : VmStructList β) (spare : ℕ) (buffer : ℤ → β)
    (counts : ℕ → BitVec 64) (k : ℕ) : readerCall l spare buffer counts k =
      monitorRead l (fun _ => 0) (l.areas.length + 1 + spare) buffer (counts k) 0 := by
  rw [readerCall, readerOffp_eq_zero, Option.bind_some]

/-- Readers of one byte at a time never see the end, whatever there is to read. -/
theorem readerYields_iff (l : VmStructList β) (spare : ℕ) (buffer : ℤ → β) :
    (∀ counts : ℕ → BitVec 64, (∀ k, counts k ≠ 0) → ReaderYields l spare buffer counts) ↔
      l.areas.flatten = [] := by
  constructor
  · intro h
    by_contra hne
    obtain ⟨k, hk, _⟩ := h (fun _ => 1) fun _ => by decide
    obtain ⟨r, hr, hret, _⟩ := monitorRead_rounds_up l spare buffer
      (show (1 : BitVec 64).toNat < 2 ^ 31 by decide) 0
    rw [readerCall_eq, hr, Option.map_some, Option.some.injEq] at hk
    have hpos := List.length_pos_of_ne_nil hne
    have hstart : startIndex (0 : BitVec 64).toNat * monitorVmstructSize = 0 := by decide
    have hone : (1 : BitVec 64).toNat = 1 := by decide
    rw [hk, hstart, hone] at hret
    have hzero : (0 : BitVec 64).toNat = 0 := by decide
    omega
  · intro hnil counts _
    obtain ⟨n, r, hr, h⟩ := (readsAtPosition_iff l spare buffer (counts 0) 0).mpr
      (.inr (by rw [hnil]; exact Nat.zero_le _))
    have hret : r.ret = 0 := by
      apply BitVec.eq_of_toNat_eq
      rw [h.ret, h.length, hnil]
      simp
    refine ⟨0, ?_, fun j hj => absurd hj (Nat.not_lt_zero j), ?_⟩
    · rw [readerCall_eq, hr, Option.map_some, hret]
    · rw [hnil]
      rfl

/-- A call never moves its position, so it reads at its position exactly when there is
nothing to read, and readers of every kind see the end and have the content only of a
list that is empty. -/
theorem monitor_read_positional_iff (l : VmStructList β) (spare : ℕ) (buffer : ℤ → β)
    (count offp : BitVec 64) :
    (ReadsAtPosition l spare buffer count offp ↔
        count.toNat = 0 ∨ l.areas.flatten.length ≤ offp.toNat) ∧
      ((∀ counts : ℕ → BitVec 64, (∀ k, counts k ≠ 0) → ReaderYields l spare buffer counts) ↔
        l.areas.flatten = []) :=
  ⟨readsAtPosition_iff l spare buffer count offp, readerYields_iff l spare buffer⟩

/-- Two areas, one of zeros and one of ones. -/
def zerosThenOnes : VmStructList (BitVec 8) where
  areas := [List.replicate 8192 0, List.replicate 8192 1]
  length_eq area h := by
    rcases List.mem_pair.mp h with rfl | rfl
    · exact List.length_replicate
    · exact List.length_replicate
  size_lt := by decide

/-- The server's second read, of 1096 bytes at offset 1096: it gets the second area and
leaves the position where it was. -/
theorem second_read_skips_an_area :
    ¬ReadsAtPosition zerosThenOnes 0 (fun _ => 0) 1096 1096 ∧
      ∃ r, monitorRead zerosThenOnes (fun _ => 0) 3 (fun _ => 0) 1096 1096 = some r ∧
        r.ret = 1096 ∧ r.offp = 1096 ∧
        (List.range 1096).map (fun k : ℕ => r.buffer k) = List.replicate 1096 1 := by
  have hlen : zerosThenOnes.areas.flatten.length = 16384 := zerosThenOnes.length_flatten
  obtain ⟨r, hr, hret, hoffp, hbytes⟩ := monitorRead_rounds_up zerosThenOnes 0 (fun _ => 0)
    (show (1096 : BitVec 64).toNat < 2 ^ 31 by decide) 1096
  have hn : min (1096 : BitVec 64).toNat (zerosThenOnes.areas.flatten.length -
      startIndex (1096 : BitVec 64).toNat * monitorVmstructSize) = 1096 := by
    rw [hlen]
    rfl
  rw [hn] at hret hbytes
  have hret : r.ret = 1096 := BitVec.eq_of_toNat_eq hret
  refine ⟨?_, r, hr, hret, hoffp, ?_⟩
  · rintro ⟨n, r', hr', h⟩
    obtain rfl : r = r' := Option.some.inj (hr.symm.trans hr')
    have hadv := h.advanced
    rw [hoffp, h.length, hlen] at hadv
    exact absurd hadv (by decide)
  · have hdrop : zerosThenOnes.areas.flatten.drop (1 * monitorVmstructSize) =
        List.replicate 8192 1 := by
      rw [drop_mul_flatten zerosThenOnes.length_eq]
      exact List.append_nil _
    rw [hbytes]
    exact (congrArg (List.take 1096) hdrop).trans (by rw [List.take_replicate]; rfl)

end Maitland
