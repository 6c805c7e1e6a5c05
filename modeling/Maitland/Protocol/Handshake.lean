import Maitland.Library.Layout
import Maitland.Server.Register
import Maitland.Server.Report

/-!
# The registration handshake

`malpage_register` prints what the monitor needs into one line of text,
`watch_domain_register` takes it apart and packs the numbers again, and
`monitor_populate_info` reads the bytes through `monitor_uspace_info_t`.
-/

namespace Maitland

open Decimal Layout

/-! ## The guest -/

/-- What `%s` prints of a buffer: up to the NUL. -/
def cString (s : Text) : Text := s.takeWhile fun c => c ≠ '\x00'

/-- `sprintf(value, "%u:%u:%u:%s", info->domid, info->gref, info->evtchn, info->uuid)` -/
def malpageRegisterValue (domid : BitVec 16) (gref evtchn : BitVec 32) (uuid : Text) : Text :=
  print domid.toNat ++ ':' :: (print gref.toNat ++ ':' :: (print evtchn.toNat ++ ':' ::
    cString uuid))

def malpageXsReportPath : Text := "/malpage/report".toList
def malpageXsWatchreportPath : Text := "/malpage/watch".toList

/-- `sprintf(report_path, "%s/%s", .., domid_str)` of `malpage_xs_report`. -/
def malpageReportPath (domid : BitVec 16) : Text :=
  malpageXsReportPath ++ "/".toList ++ print domid.toNat

/-- The same of `malpage_xs_watch`. -/
def malpageWatchPath (domid : BitVec 16) : Text :=
  malpageXsWatchreportPath ++ "/".toList ++ print domid.toNat

/-! ## The server -/

def monitorXsReportPath : Text := "/malpage/report".toList
def monitorXsWatchreportPath : Text := "/malpage/watch".toList

/-- `values[i]` after `values = value.split(":")`; `none` is the `IndexError`. -/
def registerField (value : Text) (i : ℕ) : Option Text := (value.splitOn ':')[i]?

/-- `MONITOR_XS_REPORT_PATH+"/"+str(values[0])` -/
def registerReportPath (value : Text) : Option Text :=
  (registerField value 0).map fun v => monitorXsReportPath ++ "/".toList ++ v

/-- `MONITOR_XS_WATCHREPORT_PATH+"/"+str(values[0])` -/
def registerWatchPath (value : Text) : Option Text :=
  (registerField value 0).map fun v => monitorXsWatchreportPath ++ "/".toList ++ v

inductive UspaceField where
  | domid
  | gref
  | evtchn
  | uuid
  deriving DecidableEq

/-- The native format `"IIIs"`; an `s` without a count is one byte. -/
def packedRegister : Decl UspaceField :=
  .scalar .domid .u32 <| .scalar .gref .u32 <| .scalar .evtchn .u32 <| .chars .uuid 1 .nil

/-- The values that go into the format: the three numbers and the first character of
`str(values[3])`, or a zero byte when it is empty. -/
def packRegister (value : Text) : Option (UspaceField → ℕ) := do
  let arg ← parseRegister value
  let uuid ← registerField value 3
  some fun
    | .domid => arg.domid.toNat
    | .gref => arg.gref.toNat
    | .evtchn => arg.evtchn.toNat
    | .uuid => (uuid.head?.map Char.toNat).getD 0

/-! ## The driver -/

/-- `sizeof("00000000-0000-0000-0000-000000000000\n")` -/
def monitorUuidLength : ℕ := 38

/-- `monitor_uspace_info_t` -/
def monitorUspaceInfo : Decl UspaceField :=
  .scalar .domid .u32 <| .scalar .gref .u32 <| .scalar .evtchn .u32 <|
    .chars .uuid monitorUuidLength .nil

/-- What `monitor_populate_info` reads at the address it gets. -/
def readUspaceInfo (m : Memory) (arg : ℕ) : Option UspaceInfo := do
  let domid ← monitorUspaceInfo.read m arg .domid
  let gref ← monitorUspaceInfo.read m arg .gref
  let evtchn ← monitorUspaceInfo.read m arg .evtchn
  some ⟨BitVec.ofNat 32 domid, BitVec.ofNat 32 gref, BitVec.ofNat 32 evtchn⟩

/-- The numbers lie at the same places in the packed string and in the struct, although
the struct goes on where the string ends. -/
theorem read_packedRegister {f : UspaceField} (hf : f ≠ .uuid) (m : Memory) (arg : ℕ)
    (val : UspaceField → ℕ) :
    monitorUspaceInfo.read (packedRegister.write m arg val) arg f = some (val f % 2 ^ 32) := by
  cases f with
  | domid => exact Decl.read_write (l := ⟨.domid, 0, 4⟩) (by decide) (by decide) m arg val
  | gref => exact Decl.read_write (l := ⟨.gref, 4, 4⟩) (by decide) (by decide) m arg val
  | evtchn => exact Decl.read_write (l := ⟨.evtchn, 8, 4⟩) (by decide) (by decide) m arg val
  | uuid => exact absurd rfl hf

/-- The driver reads what the server parsed. -/
theorem readUspaceInfo_packRegister {value : Text} {val : UspaceField → ℕ}
    (h : packRegister value = some val) (m : Memory) (arg : ℕ) :
    readUspaceInfo (packedRegister.write m arg val) arg = parseRegister value := by
  obtain ⟨info, hinfo, h⟩ := Option.bind_eq_some_iff.mp h
  obtain ⟨uuid, huuid, h⟩ := Option.bind_eq_some_iff.mp h
  cases h
  rw [readUspaceInfo, read_packedRegister (by simp), read_packedRegister (by simp),
    read_packedRegister (by simp), hinfo]
  have hmod : ∀ x : BitVec 32, BitVec.ofNat 32 (x.toNat % 2 ^ 32) = x := fun x => by
    rw [Nat.mod_eq_of_lt x.isLt, BitVec.ofNat_toNat, BitVec.setWidth_eq]
  simp only [Option.bind_eq_bind, Option.bind_some, hmod]

/-- A printed number is the first field, whatever follows the colon. -/
theorem splitOn_print (n : ℕ) (rest : Text) :
    (print n ++ ':' :: rest).splitOn ':' = print n :: rest.splitOn ':' := by
  rw [List.splitOn_eq_splitOnP, List.splitOn_eq_splitOnP]
  refine List.splitOnP_append_cons_of_forall_mem ?_ ':' (by decide) rest
  intro c hc
  have hdigit := isDigit_of_mem_print hc
  rw [beq_eq_false_iff_ne]
  rintro rfl
  revert hdigit
  decide

theorem splitOn_malpageRegisterValue (domid : BitVec 16) (gref evtchn : BitVec 32) (uuid : Text) :
    (malpageRegisterValue domid gref evtchn uuid).splitOn ':' =
      print domid.toNat :: print gref.toNat :: print evtchn.toNat ::
        (cString uuid).splitOn ':' := by
  rw [malpageRegisterValue, splitOn_print, splitOn_print, splitOn_print]

theorem bind_pack_print (n : ℕ) : (int (print n)).bind (pack 32) = pack 32 (n : ℤ) := by
  rw [int_print, Option.bind_some]

theorem parseRegister_malpageRegisterValue (domid : BitVec 16) (gref evtchn : BitVec 32)
    (uuid : Text) : parseRegister (malpageRegisterValue domid gref evtchn uuid) =
      some ⟨domid.setWidth 32, gref, evtchn⟩ := by
  obtain ⟨first, others, hsplit⟩ :=
    List.exists_cons_of_ne_nil (List.splitOn_ne_nil ':' (cString uuid))
  rw [parseRegister, splitOn_malpageRegisterValue, hsplit]
  dsimp only
  rw [bind_pack_print, bind_pack_print, bind_pack_print, pack_domid, pack_toNat, pack_toNat]
  rfl

/-- The monitor ends up with the numbers of the guest, for every uuid, and the server makes
the nodes that the guest will write to. -/
theorem registration_round_trip (domid : BitVec 16) (gref evtchn : BitVec 32) (uuid : Text)
    (m : Memory) (arg : ℕ) :
    (∃ val info, packRegister (malpageRegisterValue domid gref evtchn uuid) = some val ∧
      readUspaceInfo (packedRegister.write m arg val) arg = some info ∧
      (monitorPopulateInfo info).domid = domid ∧
      (monitorPopulateInfo info).gref = gref ∧
      (monitorPopulateInfo info).evtchn = evtchn) ∧
    registerReportPath (malpageRegisterValue domid gref evtchn uuid) =
      some (malpageReportPath domid) ∧
    registerWatchPath (malpageRegisterValue domid gref evtchn uuid) =
      some (malpageWatchPath domid) := by
  have hparse := parseRegister_malpageRegisterValue domid gref evtchn uuid
  have hsplit := splitOn_malpageRegisterValue domid gref evtchn uuid
  refine ⟨?_, ?_, ?_⟩
  · obtain ⟨first, others, huuid⟩ :=
      List.exists_cons_of_ne_nil (List.splitOn_ne_nil ':' (cString uuid))
    have hfield : registerField (malpageRegisterValue domid gref evtchn uuid) 3 = some first := by
      rw [registerField, hsplit, huuid]
      rfl
    obtain ⟨val, hval⟩ : ∃ val,
        packRegister (malpageRegisterValue domid gref evtchn uuid) = some val := by
      rw [packRegister, hparse, hfield]
      exact ⟨_, rfl⟩
    refine ⟨val, _, hval, (readUspaceInfo_packRegister hval m arg).trans hparse, ?_, rfl, rfl⟩
    exact setWidth_domid domid
  · rw [registerReportPath, registerField, hsplit]
    rfl
  · rw [registerWatchPath, registerField, hsplit]
    rfl

end Maitland
