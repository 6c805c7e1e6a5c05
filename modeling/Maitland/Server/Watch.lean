import Maitland.Monitor.Table
import Maitland.Server.Report

/-!
# The server's watch callback

`watch_domain_watchreport` of main.py: it reads `ready`, then `domid` and `pid`,
removes the whole node, makes its `MONITOR_WATCH` and returns False, which takes
the watch away.
-/

namespace Maitland

open Decimal

/-- The reading transaction on a node that may be gone.  `none` is the exception of
`int(None)` or of `int` on text that is no number. -/
def readWatch (n : Option WatchNode) : Option (ℤ × ℤ) := do
  let domid ← (n.bind WatchNode.domid).bind int
  let pid ← (n.bind WatchNode.pid).bind int
  some (domid, pid)

/-- `struct.pack("III",pid,domid,0)` -/
def packWatch (domid pid : ℤ) : Option WatchReport := do
  let pid ← pack 32 pid
  let domid ← pack 32 domid
  some ⟨pid, domid, 0⟩

theorem readWatch_announce (domid : BitVec 16) (pid : BitVec 32) :
    readWatch (some (.announce (print domid.toNat) (print pid.toNat))) =
      some ((domid.toNat : ℤ), (pid.toNat : ℤ)) := by
  simp [readWatch, WatchNode.announce]

theorem packWatch_toNat (domid : BitVec 16) (pid : BitVec 32) :
    packWatch domid.toNat pid.toNat = some ⟨pid, domid.setWidth 32, 0⟩ := by
  simp [packWatch, pack_domid]

end Maitland
