import Mathlib.Data.List.Basic
import Mathlib.Data.Nat.Notation
import Mathlib.Tactic.Ring
import Maitland.Library.MachineInt

/-!
# Reads from the monitor device

`monitor_read` copies the mapped areas to a user buffer.  An `int` is a `BitVec 32`,
`size_t`, `unsigned long` and `loff_t` are a `BitVec 64`, and `<` on these is the
unsigned comparison the conversions of C make of every test but `leftover>0`.
-/

namespace Maitland

open MachineInt

/-- `MONITOR_VMSTRUCT_SIZE` -/
def monitorVmstructSize : ℕ := 8192

/-- `vm_struct_list`, with the bytes at the address of each area. -/
structure VmStructList (β : Type) where
  areas : List (List β)
  length_eq : ∀ area ∈ areas, area.length = monitorVmstructSize
  size_lt : areas.length < 2 ^ 31

variable {β : Type}

/-- `vm_struct_list_size` -/
def VmStructList.size (l : VmStructList β) : BitVec 32 := BitVec.ofNat 32 l.areas.length

/-- `vm_struct_list[i]->addr`; `none` is an access outside the list. -/
def VmStructList.get (l : VmStructList β) (i : BitVec 32) : Option (List β) :=
  if i.toInt < 0 then none else l.areas[i.toInt.toNat]?

/-- One call of `copy_to_user`. -/
structure Copy (β : Type) where
  /-- The area it copies from. -/
  index : ℤ
  /-- Where in the buffer it copies to. -/
  dst : ℤ
  /-- The length asked for. -/
  len : ℕ
  /-- The bytes that were copied. -/
  bytes : List β

/-- The buffer after `bytes` were copied to `dst`. -/
def storeBytes (buffer : ℤ → β) (dst : ℤ) (bytes : List β) : ℤ → β :=
  fun a => if dst ≤ a then (bytes[(a - dst).toNat]?).getD (buffer a) else buffer a

/-- The locals of `monitor_read`, the user buffer and the copies made so far. -/
structure ReadFrame (β : Type) where
  byteCount : BitVec 32
  i : BitVec 32
  leftover : BitVec 32
  buffer : ℤ → β
  copies : List (Copy β)

/-- `i*MONITOR_VMSTRUCT_SIZE` -/
def vmstructOffset (i : BitVec 32) : BitVec 64 :=
  i.signExtend 64 * BitVec.ofNat 64 monitorVmstructSize

/-- `while(i*MONITOR_VMSTRUCT_SIZE<*offp)`, with the number of rounds it may take. -/
def readIndex (offp : BitVec 64) : ℕ → BitVec 32 → Option (BitVec 32)
  | 0, _ => none
  | n + 1, i => if vmstructOffset i < offp then readIndex offp n (i + 1) else some i

/-- The call of `copy_to_user` in a round, with `len` the length it asks for, and what
follows it.  `left` are the bytes the call leaves, at most all of them. -/
def readCopy (f : ReadFrame β) (area : List β) (len : BitVec 64) (left : ℕ)
    (leftover : BitVec 32) : ReadFrame β :=
  let throwaway := BitVec.ofNat 64 (min left len.toNat)
  let bytes := area.take (len.toNat - min left len.toNat)
  { byteCount := (f.byteCount.signExtend 64 + (len - throwaway)).setWidth 32
    i := f.i + 1
    leftover := leftover
    buffer := storeBytes f.buffer f.byteCount.toInt bytes
    copies := f.copies ++ [⟨f.i.toInt, f.byteCount.toInt, len.toNat, bytes⟩] }

section Read

variable (l : VmStructList β) (left : ℕ → ℕ)

/-- `while(leftover>0)`: whole areas, then a segment of one and the break.  `left k`
are the bytes that the `k`-th call of `copy_to_user` leaves. -/
def readLoop : ℕ → ReadFrame β → Option (ReadFrame β)
  | 0, _ => none
  | n + 1, f =>
    if 0 < f.leftover.toInt then
      (l.get f.i).bind fun area =>
        if f.leftover.signExtend 64 < BitVec.ofNat 64 monitorVmstructSize then
          some (readCopy f area (f.leftover.signExtend 64) (left f.copies.length) 0)
        else
          let size := BitVec.ofNat 64 monitorVmstructSize
          readLoop n (readCopy f area size (left f.copies.length)
            ((f.leftover.signExtend 64 - size).setWidth 32))
    else some f

/-- What a call leaves: its value, `*offp`, the buffer and the copies made. -/
structure ReadResult (β : Type) where
  ret : BitVec 64
  offp : BitVec 64
  buffer : ℤ → β
  copies : List (Copy β)

/-- `leftover` after the test against what follows the starting area. -/
def readLeftover (count : BitVec 64) (i : BitVec 32) : BitVec 32 :=
  let leftover := count.setWidth 32
  if vmstructOffset (l.size - i) < leftover.signExtend 64 then
    (vmstructOffset (l.size - i)).setWidth 32
  else leftover

/-- `none` is an access outside `vm_struct_list`, or more than `rounds` rounds of one
of the loops.  `*offp` is never written. -/
def monitorRead (rounds : ℕ) (buffer : ℤ → β) (count offp : BitVec 64) :
    Option (ReadResult β) :=
  if vmstructOffset l.size < offp then some ⟨0, offp, buffer, []⟩
  else do
    let i ← readIndex offp rounds 0
    let f ← readLoop l left rounds ⟨0, i, readLeftover l count i, buffer, []⟩
    some ⟨f.byteCount.signExtend 64, offp, f.buffer, f.copies⟩

end Read

/-! ## The conversions -/

theorem vmstructOffset_ofNat {n : ℕ} (h : n < 2 ^ 31) :
    (vmstructOffset (BitVec.ofNat 32 n)).toNat = n * monitorVmstructSize := by
  rw [vmstructOffset, signExtend_ofNat h, monitorVmstructSize, ← BitVec.ofNat_mul,
    BitVec.toNat_ofNat]
  omega

/-- The area a byte offset is rounded up to. -/
def startIndex (offp : ℕ) : ℕ := (offp + (monitorVmstructSize - 1)) / monitorVmstructSize

theorem startIndex_le_iff (offp n : ℕ) : startIndex offp ≤ n ↔ offp ≤ n * monitorVmstructSize := by
  unfold startIndex monitorVmstructSize
  omega

/-- The search for the first area ends at the one the offset is rounded up to. -/
theorem readIndex_eq {offp : BitVec 64} {size : ℕ} (hsize : size < 2 ^ 31)
    (hoff : offp.toNat ≤ size * monitorVmstructSize) {n j : ℕ}
    (hj : j ≤ startIndex offp.toNat) (hn : startIndex offp.toNat < j + n) :
    readIndex offp n (BitVec.ofNat 32 j) = some (BitVec.ofNat 32 (startIndex offp.toNat)) := by
  have hle := (startIndex_le_iff _ _).mpr hoff
  induction n generalizing j with
  | zero => omega
  | succ n ih =>
    rw [readIndex]
    have hoffset := @vmstructOffset_ofNat j (by omega)
    split
    · next hlt =>
      rw [BitVec.lt_def, hoffset] at hlt
      have hnext : j + 1 ≤ startIndex offp.toNat := by
        by_contra hge
        have := (startIndex_le_iff offp.toNat j).mp (by omega)
        omega
      have hsucc : BitVec.ofNat 32 j + 1 = BitVec.ofNat 32 (j + 1) := by
        simp [BitVec.ofNat_add]
      rw [hsucc]
      exact ih hnext (by omega)
    · next hge =>
      rw [BitVec.lt_def, hoffset] at hge
      have := (startIndex_le_iff offp.toNat j).mpr (by omega)
      rw [show j = startIndex offp.toNat by omega]

/-! ## The length of a read -/

theorem VmStructList.offset_sub (l : VmStructList β) {i : ℕ} (hi : i ≤ l.areas.length) :
    (vmstructOffset (l.size - BitVec.ofNat 32 i)).toNat =
      (l.areas.length - i) * monitorVmstructSize := by
  have hlt := l.size_lt
  have hsub : l.size - BitVec.ofNat 32 i = BitVec.ofNat 32 (l.areas.length - i) := by
    apply BitVec.eq_of_toNat_eq
    rw [VmStructList.size, BitVec.toNat_sub, BitVec.toNat_ofNat, BitVec.toNat_ofNat,
      BitVec.toNat_ofNat]
    omega
  rw [hsub, vmstructOffset_ofNat (by omega)]

/-- A negative `leftover` is larger than any length as an `unsigned long`. -/
theorem vmstructOffset_lt_of_ge (l : VmStructList β) {i : ℕ} (hi : i ≤ l.areas.length)
    {x : BitVec 32} (hx : 2 ^ 31 ≤ x.toNat) :
    vmstructOffset (l.size - BitVec.ofNat 32 i) < x.signExtend 64 := by
  have hlt := l.size_lt
  have hmsb : x.msb = true := by
    rw [BitVec.msb_eq_decide, decide_eq_true_eq]
    omega
  rw [BitVec.lt_def, l.offset_sub hi, BitVec.toNat_signExtend, hmsb, BitVec.toNat_setWidth,
    if_pos rfl, monitorVmstructSize]
  omega

/-- The length is never more than was asked for, nor than there is. -/
theorem readLeftover_le (l : VmStructList β) (count : BitVec 64) {i : ℕ}
    (hi : i ≤ l.areas.length) :
    (readLeftover l count (BitVec.ofNat 32 i)).toInt.toNat ≤ count.toNat ∧
      (readLeftover l count (BitVec.ofNat 32 i)).toInt.toNat ≤
        (l.areas.length - i) * monitorVmstructSize := by
  have hcount : (count.setWidth 32).toNat ≤ count.toNat := by
    rw [BitVec.toNat_setWidth]
    exact Nat.mod_le _ _
  have hoffset := l.offset_sub hi
  rw [readLeftover]
  split
  · next hclip =>
    have hle := toInt_toNat_le ((vmstructOffset (l.size - BitVec.ofNat 32 i)).setWidth 32)
    rw [BitVec.toNat_setWidth, hoffset] at hle
    have hmod := Nat.mod_le ((l.areas.length - i) * monitorVmstructSize) (2 ^ 32)
    refine ⟨?_, by omega⟩
    rw [BitVec.lt_def, hoffset] at hclip
    rcases Nat.lt_or_ge (count.setWidth 32).toNat (2 ^ 31) with hs | hs
    · rw [toNat_signExtend_of_lt hs] at hclip
      omega
    · omega
  · next hclip =>
    rcases Nat.lt_or_ge (count.setWidth 32).toNat (2 ^ 31) with hs | hs
    · rw [BitVec.lt_def, hoffset, toNat_signExtend_of_lt hs] at hclip
      rw [toInt_toNat_of_lt hs]
      omega
    · exact absurd (vmstructOffset_lt_of_ge l hi hs) hclip

/-- For a count that fits an `int` it is the lesser of the two. -/
theorem readLeftover_eq (l : VmStructList β) {count : BitVec 64} (hc : count.toNat < 2 ^ 31)
    {i : ℕ} (hi : i ≤ l.areas.length) :
    (readLeftover l count (BitVec.ofNat 32 i)).toInt.toNat =
      min count.toNat ((l.areas.length - i) * monitorVmstructSize) := by
  have hcount : (count.setWidth 32).toNat = count.toNat := by
    rw [BitVec.toNat_setWidth]
    omega
  have hoffset := l.offset_sub hi
  have hs : (count.setWidth 32).toNat < 2 ^ 31 := by omega
  rw [readLeftover]
  split
  · next hclip =>
    rw [BitVec.lt_def, hoffset, toNat_signExtend_of_lt hs] at hclip
    rw [toInt_toNat_of_lt (by rw [BitVec.toNat_setWidth]; omega), BitVec.toNat_setWidth, hoffset]
    omega
  · next hclip =>
    rw [BitVec.lt_def, hoffset, toNat_signExtend_of_lt hs] at hclip
    rw [toInt_toNat_of_lt hs]
    omega

/-! ## The copy loop -/

/-- The bytes that were copied, one copy after the other. -/
def ReadFrame.data (f : ReadFrame β) : List β := f.copies.flatMap Copy.bytes

/-- The copy reads a prefix of one area and writes below `limit`. -/
structure Copy.Inside (l : VmStructList β) (limit : ℕ) (x : Copy β) : Prop where
  index_nonneg : 0 ≤ x.index
  index_lt : x.index < l.areas.length
  dst_nonneg : 0 ≤ x.dst
  dst_le : x.dst + x.len ≤ limit
  bytes_le : x.bytes.length ≤ x.len
  bytes_prefix : ∃ area, l.areas[x.index.toNat]? = some area ∧ x.bytes <+: area

/-- Between two rounds of a loop that began at area `start` with `limit` bytes to
copy, `c` of them still to come. -/
structure ReadFrame.At (l : VmStructList β) (left : ℕ → ℕ) (buffer : ℤ → β) (start limit : ℕ)
    (f : ReadFrame β) (c : ℕ) : Prop where
  leftover : f.leftover.toInt.toNat = c
  byteCount : f.byteCount = BitVec.ofNat 32 f.data.length
  i : f.i = BitVec.ofNat 32 (start + f.copies.length)
  fits : f.data.length + c ≤ limit
  avail : (start + f.copies.length) * monitorVmstructSize + c ≤
    l.areas.length * monitorVmstructSize
  inside : ∀ x ∈ f.copies, x.Inside l limit
  order : f.copies.map Copy.index = (List.range f.copies.length).map fun k => ((start + k : ℕ) : ℤ)
  stored : ∀ (k : ℕ) v, f.data[k]? = some v → f.buffer k = v
  kept : ∀ a, a < 0 ∨ (limit : ℤ) ≤ a → f.buffer a = buffer a
  /-- Without partial copies nothing is left out. -/
  whole : (∀ k, left k = 0) →
    f.data ++ (l.areas.flatten.drop ((start + f.copies.length) * monitorVmstructSize)).take c =
      (l.areas.flatten.drop (start * monitorVmstructSize)).take limit

theorem drop_mul_flatten {size : ℕ} {ls : List (List β)} (h : ∀ area ∈ ls, area.length = size)
    (j : ℕ) : ls.flatten.drop (j * size) = (ls.drop j).flatten := by
  induction j generalizing ls with
  | zero => simp
  | succ j ih =>
    cases ls with
    | nil => simp
    | cons area ls =>
      have harea : area.length = size := h area (by simp)
      rw [List.flatten_cons, Nat.add_one_mul, Nat.add_comm, ← List.drop_drop, ← harea,
        List.drop_left, harea, List.drop_succ_cons]
      exact ih fun a ha => h a (List.mem_cons_of_mem _ ha)

theorem VmStructList.take_drop_flatten (l : VmStructList β) {j : ℕ} {area : List β}
    (h : l.areas[j]? = some area) (c : ℕ) :
    (l.areas.flatten.drop (j * monitorVmstructSize)).take c =
      area.take (min c monitorVmstructSize) ++
        (l.areas.flatten.drop ((j + 1) * monitorVmstructSize)).take (c - monitorVmstructSize) := by
  have harea : area.length = monitorVmstructSize := l.length_eq area (List.mem_of_getElem? h)
  obtain ⟨hlt, rfl⟩ := List.getElem?_eq_some_iff.mp h
  rw [drop_mul_flatten l.length_eq, drop_mul_flatten l.length_eq, List.drop_eq_getElem_cons hlt,
    List.flatten_cons, List.take_append, ← harea, ← List.take_eq_take_min]

theorem storeBytes_before {buffer : ℤ → β} {dst a : ℤ} (h : a < dst) (bytes : List β) :
    storeBytes buffer dst bytes a = buffer a :=
  if_neg (by omega)

theorem storeBytes_after {buffer : ℤ → β} {dst a : ℤ} {bytes : List β}
    (h : dst + bytes.length ≤ a) : storeBytes buffer dst bytes a = buffer a := by
  rw [storeBytes, if_pos (by omega), List.getElem?_eq_none (by omega), Option.getD_none]

/-- A copy right after the data extends it. -/
theorem storeBytes_append {buffer : ℤ → β} {data : List β}
    (h : ∀ (k : ℕ) v, data[k]? = some v → buffer k = v) (bytes : List β) :
    ∀ (k : ℕ) v, (data ++ bytes)[k]? = some v → storeBytes buffer data.length bytes k = v := by
  intro k v hk
  rcases Nat.lt_or_ge k data.length with hlt | hge
  · rw [List.getElem?_append_left hlt] at hk
    rw [storeBytes_before (by omega)]
    exact h k v hk
  · rw [List.getElem?_append_right hge] at hk
    rw [storeBytes, if_pos (by omega),
      show ((k : ℤ) - data.length).toNat = k - data.length by omega,
      hk, Option.getD_some]

theorem Copy.inside_of_prefix {l : VmStructList β} {limit j d m k : ℕ} {area : List β}
    (harea : l.areas[j]? = some area) (hd : d + m ≤ limit) (hk : k ≤ m) :
    Copy.Inside l limit ⟨j, d, m, area.take k⟩ := by
  obtain ⟨hj, _⟩ := List.getElem?_eq_some_iff.mp harea
  refine ⟨Int.natCast_nonneg _, Int.ofNat_lt.mpr hj, Int.natCast_nonneg _, ?_, ?_, area, harea,
    List.take_prefix _ _⟩
  · show (d : ℤ) + m ≤ limit
    omega
  · exact Nat.le_trans (List.length_take_le _ _) hk

namespace ReadFrame.At

variable {l : VmStructList β} {left : ℕ → ℕ} {buffer : ℤ → β} {start limit c : ℕ}
  {f : ReadFrame β}

/-- The loop starts with an empty frame. -/
theorem entry {leftover : BitVec 32} (hlimit : leftover.toInt.toNat = limit)
    (hstart : start ≤ l.areas.length)
    (hle : limit ≤ (l.areas.length - start) * monitorVmstructSize) :
    ReadFrame.At l left buffer start limit ⟨0, BitVec.ofNat 32 start, leftover, buffer, []⟩
      limit := by
  refine ⟨hlimit, rfl, rfl, by simp [ReadFrame.data], ?_, by simp, rfl, by simp [ReadFrame.data],
    fun _ _ => rfl, fun _ => rfl⟩
  have hsub := Nat.sub_mul l.areas.length start monitorVmstructSize
  have hmul := Nat.mul_le_mul_right monitorVmstructSize hstart
  rw [List.length_nil, Nat.add_zero]
  omega

theorem leftover_eq (h : f.At l left buffer start limit c) (hc : 0 < c) :
    f.leftover = BitVec.ofNat 32 c ∧ c < 2 ^ 31 := by
  have hle := toInt_toNat_le f.leftover
  have hlo := h.leftover
  have hlt : f.leftover.toNat < 2 ^ 31 := by
    by_contra hge
    have := toInt_toNat_of_ge (Nat.not_lt.mp hge)
    omega
  rw [toInt_toNat_of_lt hlt] at hlo
  refine ⟨?_, by omega⟩
  rw [← hlo, BitVec.ofNat_toNat, BitVec.setWidth_eq]

theorem get_area (h : f.At l left buffer start limit c) (hc : 0 < c) :
    ∃ area, l.areas[start + f.copies.length]? = some area ∧ l.get f.i = some area := by
  have havail := h.avail
  have hlt := l.size_lt
  have hi : start + f.copies.length < l.areas.length := by
    by_contra hge
    have := Nat.mul_le_mul_right monitorVmstructSize (Nat.not_lt.mp hge)
    omega
  refine ⟨_, List.getElem?_eq_getElem hi, ?_⟩
  rw [VmStructList.get, h.i, toInt_ofNat_int (by omega), if_neg (by omega), Int.toNat_natCast]
  exact List.getElem?_eq_getElem hi

/-- A call of `copy_to_user` that is asked for `m` bytes and leaves `k` of them, without
the conversions. -/
theorem readCopy_eq (h : f.At l left buffer start limit c) (hlimit : limit < 2 ^ 31)
    {area : List β} (harea : l.areas[start + f.copies.length]? = some area) {m : ℕ} (hm : m ≤ c)
    (k : ℕ) (leftover : BitVec 32) :
    readCopy f area (BitVec.ofNat 64 m) k leftover =
      { byteCount := BitVec.ofNat 32 (f.data.length + (m - min k m))
        i := BitVec.ofNat 32 (start + (f.copies.length + 1))
        leftover := leftover
        buffer := storeBytes f.buffer f.data.length (area.take (m - min k m))
        copies := f.copies ++
          [⟨((start + f.copies.length : ℕ) : ℤ), f.data.length, m, area.take (m - min k m)⟩] } := by
  have hfits := h.fits
  have hsize := l.size_lt
  obtain ⟨hi, _⟩ := List.getElem?_eq_some_iff.mp harea
  have hmn : (BitVec.ofNat 64 m).toNat = m := toNat_ofNat_of_lt (by omega)
  have hcount : ((BitVec.ofNat 32 f.data.length).signExtend 64 +
      (BitVec.ofNat 64 m - BitVec.ofNat 64 (min k m))).setWidth 32 =
        BitVec.ofNat 32 (f.data.length + (m - min k m)) := by
    rw [signExtend_ofNat (by omega)]
    apply BitVec.eq_of_toNat_eq
    simp only [BitVec.toNat_setWidth, BitVec.toNat_add, BitVec.toNat_sub, BitVec.toNat_ofNat]
    omega
  have hindex : BitVec.ofNat 32 (start + f.copies.length) + 1 =
      BitVec.ofNat 32 (start + (f.copies.length + 1)) := by
    rw [← Nat.add_assoc, BitVec.ofNat_add (start + f.copies.length)]
    rfl
  simp only [readCopy, hmn, h.byteCount, h.i, hcount, hindex,
    toInt_ofNat_int (show f.data.length < 2 ^ 31 by omega),
    toInt_ofNat_int (show start + f.copies.length < 2 ^ 31 by omega)]

/-- One call of `copy_to_user`, of a whole area or of what is left, may copy less than
it was asked for. -/
theorem copy (h : f.At l left buffer start limit c) (hlimit : limit < 2 ^ 31)
    {area : List β} (harea : l.areas[start + f.copies.length]? = some area)
    (leftover : BitVec 32) (hleft : leftover.toInt.toNat = c - monitorVmstructSize) :
    (readCopy f area (BitVec.ofNat 64 (min c monitorVmstructSize)) (left f.copies.length)
      leftover).At l left buffer start limit (c - monitorVmstructSize) := by
  have hfits := h.fits
  have havail := h.avail
  have hlen : area.length = monitorVmstructSize := l.length_eq area (List.mem_of_getElem? harea)
  have hcopy := h.readCopy_eq hlimit harea (Nat.min_le_left c monitorVmstructSize)
    (left f.copies.length) leftover
  generalize readCopy f area _ (left f.copies.length) leftover = f' at hcopy ⊢
  generalize hm : min c monitorVmstructSize = m at hcopy
  generalize ht : min (left f.copies.length) m = t at hcopy
  have hbytes : (area.take (m - t)).length = m - t := by
    rw [List.length_take]
    omega
  have hcopies : f'.copies =
      f.copies ++ [⟨((start + f.copies.length : ℕ) : ℤ), f.data.length, m, area.take (m - t)⟩] := by
    rw [hcopy]
  have hbuffer : f'.buffer = storeBytes f.buffer f.data.length (area.take (m - t)) := by rw [hcopy]
  have hdata : f'.data = f.data ++ area.take (m - t) := by
    rw [ReadFrame.data, hcopies, List.flatMap_append, List.flatMap_singleton, ReadFrame.data]
  refine ⟨by rw [hcopy, hleft], ?_, ?_, ?_, ?_, ?_, ?_, ?_, ?_, ?_⟩
  · rw [hdata, List.length_append, hbytes, hcopy]
  · rw [hcopies, List.length_append, List.length_singleton, hcopy]
  · rw [hdata, List.length_append, hbytes]
    omega
  · obtain ⟨hi, _⟩ := List.getElem?_eq_some_iff.mp harea
    have hmul := Nat.mul_le_mul_right monitorVmstructSize (Nat.succ_le_of_lt hi)
    rw [hcopies, List.length_append, List.length_singleton, ← Nat.add_assoc, Nat.add_one_mul]
    rw [Nat.succ_eq_add_one, Nat.add_one_mul] at hmul
    omega
  · rw [hcopies]
    intro x hx
    rcases List.mem_append.mp hx with hx | hx
    · exact h.inside x hx
    · rw [List.mem_singleton.mp hx]
      exact Copy.inside_of_prefix harea (by omega) (Nat.sub_le _ _)
  · rw [hcopies, List.map_append, List.length_append, List.length_singleton, List.range_succ,
      List.map_append, h.order, List.map_singleton, List.map_singleton]
  · rw [hdata, hbuffer]
    exact storeBytes_append h.stored (area.take (m - t))
  · rw [hbuffer]
    rintro a (ha | ha)
    · rw [storeBytes_before (by omega)]
      exact h.kept a (.inl ha)
    · rw [storeBytes_after (by rw [hbytes]; omega)]
      exact h.kept a (.inr ha)
  · intro hfull
    have ht0 : t = 0 := by
      rw [← ht, hfull]
      exact Nat.zero_min _
    rw [hdata, hcopies, List.length_append, List.length_singleton, ← h.whole hfull,
      l.take_drop_flatten harea, hm, List.append_assoc, ← Nat.add_assoc, ht0, Nat.sub_zero]

end ReadFrame.At

/-- The loop ends once every area of the list could have been copied. -/
theorem readLoop_at {l : VmStructList β} {left : ℕ → ℕ} {buffer : ℤ → β} {start limit : ℕ}
    (hlimit : limit < 2 ^ 31) (n : ℕ) {f : ReadFrame β} {c : ℕ}
    (h : f.At l left buffer start limit c)
    (hn : l.areas.length < start + f.copies.length + n) :
    ∃ f', readLoop l left n f = some f' ∧ f'.At l left buffer start limit 0 := by
  induction n generalizing f c with
  | zero =>
    have havail := h.avail
    have := Nat.mul_le_mul_right monitorVmstructSize (Nat.succ_le_of_lt hn)
    rw [Nat.succ_mul, Nat.add_zero, monitorVmstructSize] at this
    rw [monitorVmstructSize] at havail
    omega
  | succ n ih =>
    rw [readLoop]
    rcases Nat.eq_zero_or_pos c with rfl | hc
    · have hlo := h.leftover
      rw [if_neg (by omega)]
      exact ⟨f, rfl, h⟩
    have hpos : 0 < f.leftover.toInt := by
      have hlo := h.leftover
      omega
    obtain ⟨hleft, hclt⟩ := h.leftover_eq hc
    obtain ⟨area, harea, hget⟩ := h.get_area hc
    rw [if_pos hpos, hget, Option.bind_some, hleft, signExtend_ofNat hclt]
    split
    · next hlt =>
      have hlt : c < monitorVmstructSize := by
        rw [BitVec.lt_def, BitVec.toNat_ofNat, BitVec.toNat_ofNat, monitorVmstructSize] at hlt
        rw [monitorVmstructSize]
        omega
      have hcopy := h.copy hlimit harea 0 (Nat.sub_eq_zero_of_le (Nat.le_of_lt hlt)).symm
      rw [Nat.min_eq_left (Nat.le_of_lt hlt), Nat.sub_eq_zero_of_le (Nat.le_of_lt hlt)] at hcopy
      exact ⟨_, rfl, hcopy⟩
    · next hge =>
      have hge : monitorVmstructSize ≤ c := by
        rw [BitVec.lt_def, BitVec.toNat_ofNat, BitVec.toNat_ofNat, monitorVmstructSize] at hge
        rw [monitorVmstructSize]
        omega
      have hnext : (BitVec.ofNat 64 c - BitVec.ofNat 64 monitorVmstructSize).setWidth 32 =
          BitVec.ofNat 32 (c - monitorVmstructSize) := by
        apply BitVec.eq_of_toNat_eq
        rw [monitorVmstructSize] at hge ⊢
        simp only [BitVec.toNat_setWidth, BitVec.toNat_sub, BitVec.toNat_ofNat]
        omega
      dsimp only
      rw [hnext]
      have hcopy := h.copy hlimit harea (BitVec.ofNat 32 (c - monitorVmstructSize)) (by
        rw [toInt_ofNat_int (by omega), Int.toNat_natCast])
      rw [Nat.min_eq_right hge] at hcopy
      refine ih hcopy ?_
      simp only [readCopy, List.length_append, List.length_singleton]
      omega

/-- A call either starts past the end, or it copies from the area its offset is
rounded up to, as many bytes as `readLeftover` says unless a copy is cut short. -/
theorem monitorRead_cases (l : VmStructList β) (left : ℕ → ℕ) {rounds : ℕ}
    (hr : l.areas.length < rounds) (buffer : ℤ → β) (count offp : BitVec 64) :
    (l.areas.length * monitorVmstructSize < offp.toNat ∧
      monitorRead l left rounds buffer count offp = some ⟨0, offp, buffer, []⟩) ∨
    ∃ (limit : ℕ) (f : ReadFrame β), startIndex offp.toNat ≤ l.areas.length ∧
      limit = (readLeftover l count (BitVec.ofNat 32 (startIndex offp.toNat))).toInt.toNat ∧
      f.At l left buffer (startIndex offp.toNat) limit 0 ∧
      monitorRead l left rounds buffer count offp =
        some ⟨BitVec.ofNat 64 f.data.length, offp, f.buffer, f.copies⟩ := by
  have hsize := l.size_lt
  have hend : (vmstructOffset l.size).toNat = l.areas.length * monitorVmstructSize :=
    vmstructOffset_ofNat hsize
  rw [monitorRead]
  split
  · next hlt =>
    rw [BitVec.lt_def, hend] at hlt
    exact .inl ⟨hlt, rfl⟩
  · next hge =>
    rw [BitVec.lt_def, hend] at hge
    have hstart := (startIndex_le_iff offp.toNat _).mpr (Nat.not_lt.mp hge)
    have hindex := readIndex_eq hsize (Nat.not_lt.mp hge) (Nat.zero_le _)
      (show startIndex offp.toNat < 0 + rounds by omega)
    generalize hlimit : (readLeftover l count
      (BitVec.ofNat 32 (startIndex offp.toNat))).toInt.toNat = limit
    have hle := readLeftover_le l count hstart
    have hlt := (toInt_toNat_le (readLeftover l count
      (BitVec.ofNat 32 (startIndex offp.toNat)))).2
    rw [hlimit] at hle hlt
    have hat : ReadFrame.At l left buffer _ _ _ limit := .entry hlimit hstart hle.2
    obtain ⟨f, hf, hat'⟩ := readLoop_at hlt rounds hat (by simp only [List.length_nil]; omega)
    refine .inr ⟨limit, f, hstart, rfl, hat', ?_⟩
    have hfits := hat'.fits
    have hindex : readIndex offp rounds 0 = _ := hindex
    have hf : readLoop l left rounds _ = _ := hf
    simp only [hindex, hf, Option.bind_eq_bind, Option.bind_some, hat'.byteCount,
      signExtend_ofNat (show f.data.length < 2 ^ 31 by omega)]

end Maitland
