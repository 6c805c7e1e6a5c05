import Maitland.Library.Ring
import Maitland.Message

/-!
# The guest's page-table and fault hooks

`malpage_multi_mmu_update` and `malpage_do_page_fault`, which the guest kernel
calls on page-table updates and on page faults.  Both fill the next request slot
in place, so the fields they do not set keep what the slot held.
-/

namespace Maitland

/-- The guest's end of the ring: the shared page and `malpage_share_info`. -/
structure FrontEnd where
  domid : BitVec 16
  sring : Ring.Shared Message
  fring : Ring.Front

/-- `SHARED_RING_INIT` and `FRONT_RING_INIT` of `malpage_setup_ring`, on a page
with the contents `ring`. -/
def malpageSetupRing (domid : BitVec 16) (ring : ℕ → Message) : FrontEnd :=
  ⟨domid, Ring.sharedRingInit ring, Ring.frontRingInit⟩

/-- The steps both hooks share: take the slot at `req_prod_pvt`, set fields in it,
advance `req_prod_pvt` and publish it. -/
def FrontEnd.push (z : Ring.Size) (fe : FrontEnd) (fill : Message → Message) :
    FrontEnd × Option Message :=
  let req := fill (fe.sring.get z fe.fring.reqProdPvt)
  let fring := { fe.fring with reqProdPvt := fe.fring.reqProdPvt + 1 }
  let sring := Ring.pushRequests (fe.sring.put z fe.fring.reqProdPvt req) fring
  ({ fe with sring := sring, fring := fring }, some req)

def mmuptrTypeMask : BitVec 64 := 7
def mmuNormalPtUpdate : BitVec 64 := 0
def mmuPtUpdatePreserveAd : BitVec 64 := 2

/-- `dirty` is `pte_dirty(*ptep)`, `maddr` the machine address of `ptep` and `pid`
the pid of the current task. -/
def malpageMultiMmuUpdate (z : Ring.Size) (fe : FrontEnd) (dirty : Bool)
    (maddr ptep pte : BitVec 64) (pid : BitVec 32) : FrontEnd × Option Message :=
  if dirty then
    let cmd := maddr &&& mmuptrTypeMask
    if cmd = mmuNormalPtUpdate ∨ cmd = mmuPtUpdatePreserveAd then
      fe.push z fun ringReq => { ringReq with
        operation := Op.mmuupdate
        mmuPtr := ptep
        mmuVal := pte
        domid := fe.domid.setWidth 32
        processId := pid }
    else (fe, none)
  else (fe, none)

/-- The bits `MALPAGE_PF_PROT`, `MALPAGE_PF_USER` and `MALPAGE_PF_INSTR`. -/
def pfProt : ℕ := 0
def pfUser : ℕ := 2
def pfInstr : ℕ := 4

def malpageDoPageFault (z : Ring.Size) (fe : FrontEnd) (pid : BitVec 32)
    (address errorCode : BitVec 64) : FrontEnd × Option Message :=
  if errorCode.getLsbD pfInstr && errorCode.getLsbD pfUser && !errorCode.getLsbD pfProt then
    fe.push z fun ringReq => { ringReq with
      operation := Op.nxviolation
      faultAddr := address
      domid := fe.domid.setWidth 32
      processId := pid }
  else (fe, none)

/-- A call of one of the two hooks. -/
inductive Hook where
  | multiMmuUpdate (dirty : Bool) (maddr ptep pte : BitVec 64) (pid : BitVec 32)
  | doPageFault (pid : BitVec 32) (address errorCode : BitVec 64)

/-- The front end after the call and the request it pushed, if any. -/
def Hook.call (z : Ring.Size) (fe : FrontEnd) : Hook → FrontEnd × Option Message
  | .multiMmuUpdate dirty maddr ptep pte pid => malpageMultiMmuUpdate z fe dirty maddr ptep pte pid
  | .doPageFault pid address errorCode => malpageDoPageFault z fe pid address errorCode

/-- A call either leaves the front end alone or makes exactly one push. -/
theorem Hook.call_cases (z : Ring.Size) (fe : FrontEnd) (h : Hook) :
    h.call z fe = (fe, none) ∨ ∃ fill, h.call z fe = fe.push z fill := by
  cases h with
  | multiMmuUpdate dirty maddr ptep pte pid =>
    simp only [Hook.call, malpageMultiMmuUpdate]
    split
    · split
      · exact .inr ⟨_, rfl⟩
      · exact .inl rfl
    · exact .inl rfl
  | doPageFault pid address errorCode =>
    simp only [Hook.call, malpageDoPageFault]
    split
    · exact .inr ⟨_, rfl⟩
    · exact .inl rfl

/-- A push at counter `n` writes the slot of `n` and moves both producer indices on. -/
theorem FrontEnd.push_at {z : Ring.Size} {fe : FrontEnd} {n : ℕ}
    (hn : fe.fring.reqProdPvt = BitVec.ofNat 32 n) (fill : Message → Message) :
    ∃ req, fe.push z fill = (⟨fe.domid,
      { fe.sring with
        reqProd := BitVec.ofNat 32 (n + 1)
        ring := Function.update fe.sring.ring (n % z.entries) req },
      { fe.fring with reqProdPvt := BitVec.ofNat 32 (n + 1) }⟩, some req) := by
  refine ⟨fill (fe.sring.get z fe.fring.reqProdPvt), ?_⟩
  simp only [FrontEnd.push, Ring.pushRequests, Ring.Shared.put, hn, Ring.slot_ofNat,
    Ring.ofNat_succ]

end Maitland
