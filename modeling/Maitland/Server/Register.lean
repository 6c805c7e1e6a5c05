import Maitland.Library.Decimal
import Maitland.Monitor.Driver

/-!
# The server's registration message

`watch_domain_register` of main.py takes `domid:gref:evtchn:uuid` from the node of
the guest.
-/

namespace Maitland

open Decimal

/-- `values = value.split(":")` and `struct.pack("IIIs",...)`.  `none` is an exception: too
few fields, a field that is no number or one that does not fit. -/
def parseRegister (value : Text) : Option UspaceInfo :=
  match value.splitOn ':' with
  | domid :: gref :: evtchn :: _ :: _ => do
    let domid ← (int domid).bind (pack 32)
    let gref ← (int gref).bind (pack 32)
    let evtchn ← (int evtchn).bind (pack 32)
    some ⟨domid, gref, evtchn⟩
  | _ => none

end Maitland
