import Maitland.Monitor.Driver
import Maitland.Store

/-!
# The server's report callback

`watch_domain_report` of main.py up to its `MONITOR_REPORT`: it reads `ready`,
lists the references, reads their frames with `domid` and `pid`, removes the
children of the node and packs what it read for the driver.
-/

namespace Maitland

open Decimal

/-- What the callback has read, as Python integers. -/
structure Reading where
  /-- `grefs` and `pfns`, which grow together. -/
  pairs : List (ℤ × ℤ)
  domid : ℤ
  pid : ℤ
  deriving DecidableEq

/-- One round of `for dir in dirs`.  `none` is an exception: of `int` on the name or on
the value, or of `int(None)` when there is no value. -/
def readGref (grefs : Option Directory) (dir : Text) : Option (ℤ × ℤ) := do
  let gref ← int dir
  let tmp ← grefs.bind fun grefs => grefs.lookup dir
  let pfn ← int tmp
  some (gref, pfn)

/-- The reading transaction, after the listing `dirs`. -/
def readReport (n : ReportNode) (dirs : List Text) : Option Reading := do
  let pairs ← dirs.mapM (readGref n.grefs)
  let domid ← n.domid.bind int
  let pid ← n.pid.bind int
  some ⟨pairs, domid, pid⟩

/-- `array.array('I',grefs)`, `array.array('L',pfns)` and
`struct.pack("IIIPPI",pid,domid,0,...,count)`. -/
def packReport (r : Reading) : Option ProcessReport := do
  let grefArr ← r.pairs.mapM fun p => pack 32 p.1
  let pfnArr ← r.pairs.mapM fun p => pack 64 p.2
  let pid ← pack 32 r.pid
  let domid ← pack 32 r.domid
  let count ← pack 32 r.pairs.length
  some ⟨pid, domid, 0, pfnArr, grefArr, count⟩

theorem pack_domid (domid : BitVec 16) :
    pack 32 (domid.toNat : ℤ) = some (domid.setWidth 32) := by
  rw [← pack_toNat (domid.setWidth 32), BitVec.toNat_setWidth_of_le (by decide)]

/-- The driver cuts the domain id back to the width the guest knows it in. -/
theorem setWidth_domid (domid : BitVec 16) : (domid.setWidth 32).setWidth 16 = domid := by
  rw [BitVec.setWidth_setWidth_of_le _ (by decide), BitVec.setWidth_eq]

/-- `value is not None and len(value) > 0` -/
def IsReady (value : Option Text) : Prop := value.any (fun v => 0 < v.length) = true

instance (value : Option Text) : Decidable (IsReady value) :=
  inferInstanceAs (Decidable (_ = _))

/-- The callback on a node that does not change under it, with `dirs` the listing of
its references: the argument of the `MONITOR_REPORT` it makes, if it makes one. -/
def watchDomainReport (n : ReportNode) (dirs : List Text) : Option ProcessReport :=
  if IsReady n.ready then (readReport n dirs).bind packReport else none

end Maitland
