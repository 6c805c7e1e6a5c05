import Maitland.Library.Ring

/-!
# Ring messages

`request_t` and `response_t` are declared with the same fields in the same order,
and the ring stores both in one slot, so one record stands for either.
-/

namespace Maitland

structure Message where
  operation : BitVec 32
  pfnGref : BitVec 32
  pfn : BitVec 32
  /-- The 40 bytes of the embedded `process_report_t`, which no function reads. -/
  report : BitVec 320
  processId : BitVec 32
  /-- A C `int`, compared as such. -/
  domid : BitVec 32
  mmuPtr : BitVec 64
  faultAddr : BitVec 64
  mmuVal : BitVec 64
  deriving DecidableEq, Inhabited

/-- `__RING_SIZE` of the ring in one page: 4096 bytes less the 64 of the header
hold 45 slots of 88 bytes, rounded down to a power of two. -/
def ringSize : Ring.Size := ⟨5, by decide⟩

/-! The operations of both headers (`MONITOR_RING_*`, `MALPAGE_RING_*`). -/

namespace Op

def report : BitVec 32 := 1
def nonop : BitVec 32 := 2
def kill : BitVec 32 := 3
def resume : BitVec 32 := 4
def halt : BitVec 32 := 5
def mmuupdate : BitVec 32 := 6
def nx : BitVec 32 := 7
def nxviolation : BitVec 32 := 8

end Op

end Maitland
