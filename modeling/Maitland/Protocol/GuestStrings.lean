import Mathlib.Data.List.TakeWhile
import Maitland.Malpage.Report
import Maitland.Protocol.Handshake

/-!
# The strings of the guest driver

Every `sprintf` and `strncpy` of the four functions that talk to Xenstore, with the
size its destination was allocated with.  The sizes are lengths of sample texts.
-/

namespace Maitland

open Decimal

/-- The destination of a formatted text. -/
inductive StringBuffer where
  | domidStr
  | pidStr
  | reportPath
  | reportGrefPath
  | pfnStr
  | grefStr
  | value
  | tmp2
  deriving DecidableEq

def StringBuffer.IsPath : StringBuffer → Prop
  | .reportPath | .reportGrefPath => True
  | _ => False

/-- A text put into a buffer of `size` bytes, without the NUL after it. -/
structure Formatted where
  buffer : StringBuffer
  size : ℕ
  text : Text
  deriving DecidableEq

def Formatted.Fits (f : Formatted) : Prop := f.text.length + 1 ≤ f.size

instance : DecidablePred Formatted.Fits := fun f => inferInstanceAs (Decidable (_ + 1 ≤ f.size))

/-- The text of `/sys/hypervisor/uuid` as `malpage_get_uuid` leaves it. -/
structure Uuid where
  text : Text
  length_eq : text.length = 36
  nul_notMem : '\x00' ∉ text

/-- `strlen("00000000-0000-0000-0000-000000000000\n")` -/
def malpageUuidLength : ℕ := "00000000-0000-0000-0000-000000000000\n".toList.length

def malpageRegisterValueFormat : Text := "%u:%u:%u:%s".toList
def malpageXsReportGrefPath : Text := "grefs".toList

/-- `sprintf(report_gref_path, "%s/%s/%s", .., domid_str, ..)` -/
def malpageReportGrefPath (domid : BitVec 16) : Text :=
  malpageReportPath domid ++ "/".toList ++ malpageXsReportGrefPath

/-- `strlen("10000")` bytes for `%u` of a domain id. -/
def formatDomid (domid : BitVec 16) : Formatted :=
  ⟨.domidStr, "10000".toList.length, print domid.toNat⟩

/-- `strlen("100000")` bytes for `%u` of a process id. -/
def formatPid (pid : BitVec 32) : Formatted := ⟨.pidStr, "100000".toList.length, print pid.toNat⟩

/-- `strncpy(tmp2,(char*)tmp,len)` of the `len` characters that `xenbus_read` found: it
stops after a NUL, or with the last of them. -/
def malpageGetDomidFormats (tmp : Text) : List Formatted := [⟨.tmp2, tmp.length, cString tmp⟩]

def malpageRegisterFormats (domid : BitVec 16) (gref evtchn : BitVec 32) (uuid : Uuid) :
    List Formatted :=
  [⟨.value, malpageRegisterValueFormat.length + malpageUuidLength + 15,
      malpageRegisterValue domid gref evtchn uuid.text⟩,
    formatDomid domid]

def malpageXsReportFormats (rep : GuestReport) : List Formatted :=
  [formatDomid rep.domid, formatPid rep.processId,
    ⟨.reportPath, malpageXsReportPath.length + (print rep.domid.toNat).length,
      malpageReportPath rep.domid⟩,
    ⟨.reportGrefPath, malpageXsReportPath.length + (print rep.domid.toNat).length +
      malpageXsReportGrefPath.length, malpageReportGrefPath rep.domid⟩] ++
  rep.pairs.flatMap fun p =>
    [⟨.pfnStr, "18446744073709551615".toList.length, print p.1.toNat⟩,
      ⟨.grefStr, "100000".toList.length, print p.2.toNat⟩]

def malpageXsWatchFormats (domid : BitVec 16) (pid : BitVec 32) : List Formatted :=
  [formatDomid domid, formatPid pid,
    ⟨.reportPath, malpageXsWatchreportPath.length + (print domid.toNat).length,
      malpageWatchPath domid⟩]

theorem fits_print_iff (buffer : StringBuffer) (n k : ℕ) (hk : 0 < k) :
    (Formatted.mk buffer (k + 1) (print n)).Fits ↔ n < 10 ^ k := by
  rw [← length_print_le_iff n hk]
  exact Nat.add_le_add_iff_right

theorem formatDomid_fits_iff (domid : BitVec 16) :
    (formatDomid domid).Fits ↔ domid.toNat < 10000 :=
  fits_print_iff _ _ 4 (by decide)

theorem formatPid_fits_iff (pid : BitVec 32) : (formatPid pid).Fits ↔ pid.toNat < 100000 :=
  fits_print_iff _ _ 5 (by decide)

theorem cString_eq_self_iff (s : Text) : cString s = s ↔ '\x00' ∉ s := by
  rw [cString, List.takeWhile_eq_self_iff]
  constructor
  · intro h hmem
    exact absurd (h _ hmem) (by decide)
  · intro h c hc
    refine decide_eq_true ?_
    rintro rfl
    exact h hc

theorem cString_length_lt_iff (s : Text) : (cString s).length < s.length ↔ '\x00' ∈ s := by
  have hprefix : cString s <+: s := List.takeWhile_prefix _
  rw [← not_iff_not, ← cString_eq_self_iff, Nat.not_lt]
  constructor
  · exact fun h => hprefix.eq_of_length_le h
  · intro h
    rw [h]

/-- The copy of the domain id has no room for its NUL unless the text holds one. -/
theorem malpageGetDomidFormats_fit_iff (tmp : Text) :
    (∀ f ∈ malpageGetDomidFormats tmp, f.Fits) ↔ '\x00' ∈ tmp := by
  rw [malpageGetDomidFormats, List.forall_mem_singleton, ← cString_length_lt_iff]
  exact Iff.rfl

theorem malpageRegisterFormats_fit_iff (domid : BitVec 16) (gref evtchn : BitVec 32)
    (uuid : Uuid) :
    (∀ f ∈ malpageRegisterFormats domid gref evtchn uuid, f.Fits) ↔
      (print domid.toNat).length + (print gref.toNat).length + (print evtchn.toNat).length ≤ 23 ∧
        domid.toNat < 10000 := by
  have hvalue : (malpageRegisterValue domid gref evtchn uuid.text).length =
      (print domid.toNat).length + (print gref.toNat).length + (print evtchn.toNat).length +
        39 := by
    rw [malpageRegisterValue, (cString_eq_self_iff _).mpr uuid.nul_notMem]
    simp only [List.length_append, List.length_cons, uuid.length_eq]
    omega
  have hsize : malpageRegisterValueFormat.length + malpageUuidLength + 15 = 63 := rfl
  rw [malpageRegisterFormats, List.forall_mem_cons, List.forall_mem_singleton,
    formatDomid_fits_iff, Formatted.Fits, hvalue]
  simp only [hsize]
  omega

/-- Neither path has room for its separators, let alone the NUL. -/
theorem not_fits_reportPath (domid : BitVec 16) :
    ¬(Formatted.mk .reportPath (malpageXsReportPath.length + (print domid.toNat).length)
      (malpageReportPath domid)).Fits := by
  simp only [Formatted.Fits, malpageReportPath, List.length_append]
  omega

theorem not_fits_watchPath (domid : BitVec 16) :
    ¬(Formatted.mk .reportPath (malpageXsWatchreportPath.length + (print domid.toNat).length)
      (malpageWatchPath domid)).Fits := by
  simp only [Formatted.Fits, malpageWatchPath, List.length_append]
  omega

theorem malpageXsReportFormats_numbers_fit_iff (rep : GuestReport) :
    (∀ f ∈ malpageXsReportFormats rep, ¬f.buffer.IsPath → f.Fits) ↔
      rep.domid.toNat < 10000 ∧ rep.processId.toNat < 100000 ∧
        ∀ p ∈ rep.pairs, p.1.toNat < 10 ^ 19 ∧ p.2.toNat < 100000 := by
  have hpfn (pfn : BitVec 64) : (Formatted.mk .pfnStr "18446744073709551615".toList.length
      (print pfn.toNat)).Fits ↔ pfn.toNat < 10 ^ 19 := fits_print_iff _ _ 19 (by decide)
  have hgref (gref : BitVec 32) : (Formatted.mk .grefStr "100000".toList.length
      (print gref.toNat)).Fits ↔ gref.toNat < 100000 := fits_print_iff _ _ 5 (by decide)
  rw [← formatDomid_fits_iff, ← formatPid_fits_iff]
  simp only [← hpfn, ← hgref, malpageXsReportFormats, List.forall_mem_append,
    List.forall_mem_cons, List.mem_flatMap]
  constructor
  · rintro ⟨⟨hdomid, hpid, _⟩, hpairs⟩
    refine ⟨hdomid (by simp [formatDomid, StringBuffer.IsPath]),
      hpid (by simp [formatPid, StringBuffer.IsPath]), fun p hp => ⟨?_, ?_⟩⟩
    · exact hpairs _ ⟨p, hp, by simp⟩ (by simp [StringBuffer.IsPath])
    · exact hpairs _ ⟨p, hp, by simp⟩ (by simp [StringBuffer.IsPath])
  · rintro ⟨hdomid, hpid, hpairs⟩
    refine ⟨⟨fun _ => hdomid, fun _ => hpid, fun h => absurd trivial h,
      fun h => absurd trivial h, fun f hf => nomatch hf⟩, ?_⟩
    rintro f ⟨p, hp, hf⟩ _
    rcases List.mem_cons.mp hf with rfl | hf
    · exact (hpairs p hp).1
    · rw [List.mem_singleton.mp hf]
      exact (hpairs p hp).2

theorem malpageXsWatchFormats_numbers_fit_iff (domid : BitVec 16) (pid : BitVec 32) :
    (∀ f ∈ malpageXsWatchFormats domid pid, ¬f.buffer.IsPath → f.Fits) ↔
      domid.toNat < 10000 ∧ pid.toNat < 100000 := by
  rw [← formatDomid_fits_iff, ← formatPid_fits_iff]
  simp [malpageXsWatchFormats, formatDomid, formatPid, StringBuffer.IsPath]

/-- Which texts fit, function by function: the copied domain id only when it holds a
NUL, the registration with a domain id of four digits and 23 digits in all, the two
announcements never, for the sake of their paths. -/
theorem guest_strings_fit_iff (tmp : Text) (domid : BitVec 16) (gref evtchn pid : BitVec 32)
    (uuid : Uuid) (rep : GuestReport) :
    ((∀ f ∈ malpageGetDomidFormats tmp, f.Fits) ↔ '\x00' ∈ tmp) ∧
      ((∀ f ∈ malpageRegisterFormats domid gref evtchn uuid, f.Fits) ↔
        (print domid.toNat).length + (print gref.toNat).length + (print evtchn.toNat).length ≤ 23 ∧
          domid.toNat < 10000) ∧
      ¬(∀ f ∈ malpageXsReportFormats rep, f.Fits) ∧
      ((∀ f ∈ malpageXsReportFormats rep, ¬f.buffer.IsPath → f.Fits) ↔
        rep.domid.toNat < 10000 ∧ rep.processId.toNat < 100000 ∧
          ∀ p ∈ rep.pairs, p.1.toNat < 10 ^ 19 ∧ p.2.toNat < 100000) ∧
      ¬(∀ f ∈ malpageXsWatchFormats domid pid, f.Fits) ∧
      ((∀ f ∈ malpageXsWatchFormats domid pid, ¬f.buffer.IsPath → f.Fits) ↔
        domid.toNat < 10000 ∧ pid.toNat < 100000) := by
  refine ⟨malpageGetDomidFormats_fit_iff tmp, malpageRegisterFormats_fit_iff domid gref evtchn uuid,
    fun h => ?_, malpageXsReportFormats_numbers_fit_iff rep, fun h => ?_,
    malpageXsWatchFormats_numbers_fit_iff domid pid⟩
  · exact not_fits_reportPath rep.domid (h _ (by simp [malpageXsReportFormats]))
  · exact not_fits_watchPath domid (h _ (by simp [malpageXsWatchFormats]))

/-- Domain 10000 reports process 100000 with a page whose grant failed with `-ENOSPC`:
no number of the report has room for its NUL but the frame, nor does the domain id
read before. -/
theorem guest_strings_overrun :
    let rep := malpageReport 100000 10000 [4096] 1 [-28]
    ¬(∀ f ∈ malpageGetDomidFormats "10000".toList, f.Fits) ∧
      (malpageXsReportFormats rep).map (fun f => (f.buffer, f.size, f.text.length + 1)) =
        [(.domidStr, 5, 6), (.pidStr, 6, 7), (.reportPath, 20, 22), (.reportGrefPath, 25, 28),
          (.pfnStr, 20, 5), (.grefStr, 6, 11)] ∧
      ¬(∀ f ∈ malpageXsReportFormats rep, f.Fits) := by
  intro rep
  refine ⟨by decide, by decide, fun h => ?_⟩
  exact absurd (h (formatDomid 10000) (by decide)) (by decide)

end Maitland
