import Mathlib.Data.List.AList
import Maitland.Library.Decimal

/-!
# The Xenstore nodes of a guest

What lies under `/malpage/report/<domid>` and `/malpage/watch/<domid>`, and what
a committed transaction of the guest does to it.  A write makes the directories
above it.
-/

namespace Maitland

open Decimal

/-- A directory of nodes with a value each, listed in no particular order. -/
abbrev Directory := AList fun _ : Text => Text

/-- `/malpage/report/<domid>` -/
structure ReportNode where
  ready : Option Text
  domid : Option Text
  pid : Option Text
  /-- `grefs`, with the machine frame under each reference. -/
  grefs : Option Directory

/-- No children: as `watch_domain_register` makes the node, and as the clean-up of
a report leaves it. -/
def ReportNode.empty : ReportNode := ⟨none, none, none, none⟩

/-- The transactions of `malpage_xs_report`. -/
inductive ReportTxn where
  | mkdir
  | gref (key value : Text)
  | announce (domid pid : Text)
  deriving DecidableEq

def ReportTxn.apply (n : ReportNode) : ReportTxn → ReportNode
  | .mkdir => { n with grefs := some (n.grefs.getD ∅) }
  | .gref key value => { n with grefs := some ((n.grefs.getD ∅).insert key value) }
  | .announce domid pid => { n with ready := some ['1'], domid := some domid, pid := some pid }

/-- `/malpage/watch/<domid>` -/
structure WatchNode where
  ready : Option Text
  domid : Option Text
  pid : Option Text
  deriving DecidableEq

def WatchNode.empty : WatchNode := ⟨none, none, none⟩

/-- The one transaction of `malpage_xs_watch`. -/
def WatchNode.announce (domid pid : Text) : WatchNode := ⟨some ['1'], some domid, some pid⟩

end Maitland
