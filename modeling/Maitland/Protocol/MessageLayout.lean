import Maitland.Library.Layout
import Maitland.Message

/-!
# The bytes of a message

malpage.h and monitor.h both declare `request_t` and `response_t`, around declarations
of `process_report_t` that differ.  The guest writes with its own, the monitor reads
with its own, and both count the slots of the page with the size they know.
-/

namespace Maitland

open Layout

/-- The members of a message, those of the embedded `process_report_t` included. -/
inductive MessageField where
  | operation
  | pfnGref
  | pfn
  | reportProcessId
  | reportDomid
  | reportProcessAge
  | reportPfnList
  | reportGrefList
  | reportPfnListLength
  | reportFirstGref
  | processId
  | domid
  | mmuPtr
  | faultAddr
  | mmuVal
  deriving DecidableEq

/-- `process_report_t` of malpage.h, with a `domid_t` of 16 bits. -/
def malpageProcessReport : Decl MessageField :=
  .scalar .reportProcessId .u32 <|
  .scalar .reportDomid .u16 <|
  .scalar .reportProcessAge .u32 <|
  .scalar .reportPfnList .u64 <|
  .scalar .reportGrefList .u64 <|
  .scalar .reportPfnListLength .u32 <|
  .scalar .reportFirstGref .u32 .nil

/-- `process_report_t` of monitor.h -/
def monitorProcessReport : Decl MessageField :=
  .scalar .reportProcessId .u32 <|
  .scalar .reportDomid .u32 <|
  .scalar .reportProcessAge .u32 <|
  .scalar .reportPfnList .u64 <|
  .scalar .reportGrefList .u64 <|
  .scalar .reportPfnListLength .u32 .nil

/-- The members that `request_t` and `response_t` have in both headers. -/
def messageOf (report : Decl MessageField) : Decl MessageField :=
  .scalar .operation .u32 <|
  .scalar .pfnGref .u32 <|
  .scalar .pfn .u32 <|
  .embed report <|
  .scalar .processId .u32 <|
  .scalar .domid .u32 <|
  .scalar .mmuPtr .u64 <|
  .scalar .faultAddr .u64 <|
  .scalar .mmuVal .u64 .nil

def malpageRequest : Decl MessageField := messageOf malpageProcessReport
def malpageResponse : Decl MessageField := messageOf malpageProcessReport
def monitorRequest : Decl MessageField := messageOf monitorProcessReport
def monitorResponse : Decl MessageField := messageOf monitorProcessReport

/-- `__RING_SIZE` of a ring in a page of 4096 bytes behind its header of 64, for slots of
`slot` bytes: the largest power of two that fits. -/
def ringEntries (slot : ℕ) : ℕ := 2 ^ Nat.log2 ((4096 - 64) / slot)

/-- A slot is the union of a request and a response. -/
def malpageSlot : ℕ := malpageRequest.unionSize malpageResponse
def monitorSlot : ℕ := monitorRequest.unionSize monitorResponse

/-- The members of a message by their values, with any `report`. -/
def Message.values (msg : Message) (report : MessageField → ℕ) : MessageField → ℕ
  | .operation => msg.operation.toNat
  | .pfnGref => msg.pfnGref.toNat
  | .pfn => msg.pfn.toNat
  | .processId => msg.processId.toNat
  | .domid => msg.domid.toNat
  | .mmuPtr => msg.mmuPtr.toNat
  | .faultAddr => msg.faultAddr.toNat
  | .mmuVal => msg.mmuVal.toNat
  | f => report f

/-- The struct at `base` is read as the message. -/
def ReadsAs (d : Decl MessageField) (m : Memory) (base : ℕ) (msg : Message) : Prop :=
  d.read m base .operation = some msg.operation.toNat ∧
  d.read m base .pfnGref = some msg.pfnGref.toNat ∧
  d.read m base .pfn = some msg.pfn.toNat ∧
  d.read m base .processId = some msg.processId.toNat ∧
  d.read m base .domid = some msg.domid.toNat ∧
  d.read m base .mmuPtr = some msg.mmuPtr.toNat ∧
  d.read m base .faultAddr = some msg.faultAddr.toNat ∧
  d.read m base .mmuVal = some msg.mmuVal.toNat

/-- The members outside the report and their sizes. -/
def messageFields : List (MessageField × ℕ) :=
  [(.operation, 4), (.pfnGref, 4), (.pfn, 4), (.processId, 4), (.domid, 4), (.mmuPtr, 8),
    (.faultAddr, 8), (.mmuVal, 8)]

/-- Two declarations of the message have these members at the same places. -/
def SamePlaces (d d' : Decl MessageField) : Prop :=
  ∀ p ∈ messageFields, d.leaf? p.1 = d'.leaf? p.1 ∧ (d.leaf? p.1).map Leaf.size = some p.2

instance (d d' : Decl MessageField) : Decidable (SamePlaces d d') :=
  inferInstanceAs (Decidable (∀ p ∈ messageFields, _ ∧ _))

section Places

variable {d d' : Decl MessageField}

theorem SamePlaces.read_write (h : SamePlaces d d') {f : MessageField} {w : ℕ}
    (hf : (f, w) ∈ messageFields) (m : Memory) (base : ℕ) (val : MessageField → ℕ) :
    d'.read (d.write m base val) base f = some (val f % 256 ^ w) := by
  obtain ⟨hsame, hsize⟩ := h _ hf
  obtain ⟨l, hl, rfl⟩ := Option.map_eq_some_iff.mp hsize
  exact Decl.read_write hl (hsame.symm.trans hl) m base val

theorem SamePlaces.readsAs (h : SamePlaces d d') (m : Memory) (base : ℕ) (msg : Message)
    (report : MessageField → ℕ) : ReadsAs d' (d.write m base (msg.values report)) base msg := by
  have hread : ∀ f w, (f, w) ∈ messageFields → msg.values report f < 256 ^ w →
      d'.read (d.write m base (msg.values report)) base f = some (msg.values report f) := by
    intro f w hf hlt
    rw [h.read_write hf, Nat.mod_eq_of_lt hlt]
  refine ⟨?_, ?_, ?_, ?_, ?_, ?_, ?_, ?_⟩
  · exact hread .operation 4 (by decide) msg.operation.isLt
  · exact hread .pfnGref 4 (by decide) msg.pfnGref.isLt
  · exact hread .pfn 4 (by decide) msg.pfn.isLt
  · exact hread .processId 4 (by decide) msg.processId.isLt
  · exact hread .domid 4 (by decide) msg.domid.isLt
  · exact hread .mmuPtr 8 (by decide) msg.mmuPtr.isLt
  · exact hread .faultAddr 8 (by decide) msg.faultAddr.isLt
  · exact hread .mmuVal 8 (by decide) msg.mmuVal.isLt

end Places

/-- Whatever message one end writes into a slot with its declarations, the other reads
with its own, and both count the same slots, as many as the rings of the model have. -/
theorem ring_ends_read_the_same :
    (∀ (m : Memory) (base : ℕ) (msg : Message) (report : MessageField → ℕ),
      ReadsAs monitorRequest (malpageRequest.write m base (msg.values report)) base msg ∧
      ReadsAs malpageResponse (monitorResponse.write m base (msg.values report)) base msg) ∧
    malpageSlot = monitorSlot ∧
    ringEntries malpageSlot = ringSize.entries ∧ ringEntries monitorSlot = ringSize.entries := by
  have hreq : SamePlaces malpageRequest monitorRequest := by decide
  have hresp : SamePlaces monitorResponse malpageResponse := by decide
  refine ⟨fun m base msg report => ⟨?_, ?_⟩, by decide, by decide, by decide⟩
  · exact hreq.readsAs m base msg report
  · exact hresp.readsAs m base msg report

end Maitland
