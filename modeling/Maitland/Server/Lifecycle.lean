import Maitland.Library.Run
import Maitland.Protocol.Handshake
import Maitland.Server.Callbacks

/-!
# The watches of the server

main.py sets a watch for every domain id and from then on only reacts to Xenstore: a
callback may set further watches, make ioctls, and take its own watch away by returning
False.  One thread makes all callbacks.
-/

namespace Maitland

open Decimal Semaphore

/-- The callbacks of main.py. -/
inductive WatchFn where
  | watchDomainUp
  | watchDomainDown
  | watchDomainRegister
  | watchDomainReport
  | watchDomainWatchreport
  deriving DecidableEq

/-- `xswatch(path, fn, xs)` -/
structure XsWatch where
  path : Text
  fn : WatchFn
  deriving DecidableEq

/-- The ioctls of `doMonitorOp`. -/
inductive MonitorOp where
  | register (arg : UspaceInfo)
  | deregister
  | report (arg : ProcessReport)
  | watch (arg : WatchReport)
  | resume
  | kill
  deriving DecidableEq

/-- An ioctl, with the path of the watch whose callback made it and whether it went through. -/
structure MonitorCall where
  path : Text
  op : MonitorOp
  ok : Bool
  deriving DecidableEq

structure ServerState where
  /-- `global_sem` -/
  sem : ℕ
  watches : List XsWatch
  calls : List MonitorCall

/-- What a callback reads from Xenstore, and whether grep then prints anything. -/
structure Seen where
  value : Option Text
  dirs : Option (List Text)
  node : ReportNode
  children : Option (List Text)
  watchNode : Option WatchNode
  found : Bool
  /-- Whether the uses of the device and of the dump file go through, one after the other: an
  open that fails raises, and so does an ioctl that returns an error. -/
  deviceOk : ℕ → Bool

/-- After the report the device and the dump file are opened, the pages are copied, and the device
is opened again for the verdict. -/
def Seen.dumpOk (seen : Seen) : Bool := (List.range' 2 4).all seen.deviceOk

/-- What main.py uses of the xenstore bindings: the path of a domain, for which domain ids there
is one, and for which `values[0]` the nodes of the domain are made.  They raise on the others. -/
structure Bindings where
  getDomainPath : ℕ → Text
  hasDomainPath : ℕ → Bool
  xsTakes : Text → Bool
  getDomainPath_injective : Function.Injective getDomainPath

abbrev Callback := ExceptT Stop (StateM ServerState)

namespace Callback

variable {α β : Type}

def acquire : Callback Unit := do
  let s ← get
  if s.sem = 0 then throw .blocked else set { s with sem := s.sem - 1 }

def release : Callback Unit := modify fun s => { s with sem := s.sem + 1 }

def attempt : Option α → Callback α
  | some a => pure a
  | none => throw .raised

/-- A step that raises unless `ok`. -/
def ensure (ok : Bool) : Callback Unit := attempt (if ok then some () else none)

def xswatch (path : Text) (fn : WatchFn) : Callback Unit :=
  modify fun s => { s with watches := s.watches ++ [⟨path, fn⟩] }

/-- An ioctl that returns an error raises. -/
def doMonitorOp (path : Text) (op : MonitorOp) (ok : Bool) : Callback Unit := do
  modify fun s => { s with calls := s.calls ++ [⟨path, op, ok⟩] }
  ensure ok

/-- How a callback ends, and the server then. -/
def run (p : Callback α) (s : ServerState) : Except Stop α × ServerState :=
  StateT.run (ExceptT.run p) s

variable (f : Unit → Callback β) (s : ServerState)

@[simp] theorem run_pure (a : α) : run (pure a) s = (.ok a, s) := rfl

@[simp] theorem run_throw : run (throw .raised : Callback α) s = (.error .raised, s) := rfl

@[simp] theorem run_attempt_some (a : α) (f : α → Callback β) :
    run (attempt (some a) >>= f) s = run (f a) s := rfl

@[simp] theorem run_attempt_none (f : α → Callback β) :
    run (attempt none >>= f) s = (.error .raised, s) := rfl

@[simp] theorem run_ensure (ok : Bool) :
    run (ensure ok >>= f) s = if ok then run (f ()) s else (.error .raised, s) := by
  cases ok <;> rfl

@[simp] theorem run_release : run (release >>= f) s = run (f ()) { s with sem := s.sem + 1 } := rfl

@[simp] theorem run_xswatch (path : Text) (fn : WatchFn) : run (xswatch path fn >>= f) s =
    run (f ()) { s with watches := s.watches ++ [⟨path, fn⟩] } := rfl

@[simp] theorem run_doMonitorOp (path : Text) (op : MonitorOp) (ok : Bool) :
    run (doMonitorOp path op ok >>= f) s =
      if ok then run (f ()) { s with calls := s.calls ++ [⟨path, op, true⟩] }
      else (.error .raised, { s with calls := s.calls ++ [⟨path, op, false⟩] }) := by
  cases ok <;> rfl

theorem run_acquire (n : ℕ) (watches : List XsWatch) (calls : List MonitorCall) :
    run (acquire >>= f) ⟨n + 1, watches, calls⟩ = run (f ()) ⟨n, watches, calls⟩ := rfl

theorem run_acquire_blocked (watches : List XsWatch) (calls : List MonitorCall) :
    run (acquire >>= f) ⟨0, watches, calls⟩ = (.error .blocked, ⟨0, watches, calls⟩) := rfl

end Callback

def monitorXsRegisterPath : Text := "/malpage/register".toList
def monitorXsReportReadyPath : Text := "/ready".toList

/-- `MONITOR_XS_REGISTER_PATH + "/"+ str(value)` -/
def registerPath (value : Text) : Text := monitorXsRegisterPath ++ "/".toList ++ value

/-- `xs.get_domain_path(i) + "/domid"` -/
def Bindings.domidPath (xs : Bindings) (i : ℕ) : Text := xs.getDomainPath i ++ "/domid".toList

section Source

open Callback

variable (xs : Bindings) (path : Text) (seen : Seen)

/-- `watch_domain_up`; `int` raises on None and on what is no number, and the node of a domain
that dom0 has started is made. -/
def watchDomainUpCb : Callback Bool := do
  let n ← attempt (seen.value.bind int)
  if 0 < n then
    xswatch (registerPath (seen.value.getD [])) .watchDomainRegister
    return false
  else return true

/-- `watch_domain_down`: there is no `domid` to deregister, which raises a NameError. -/
def watchDomainDownCb : Callback Bool := do
  if seen.value.isNone then throw .raised else return true

/-- `watch_domain_register` -/
def watchDomainRegisterCb : Callback Bool := do
  acquire
  release
  let value ← attempt seen.value
  if 0 < value.length then
    acquire
    ensure (seen.deviceOk 0)
    let arg ← attempt (parseRegister value)
    doMonitorOp path (.register arg) (seen.deviceOk 1)
    ensure (xs.hasDomainPath arg.domid.toNat)
    xswatch (xs.domidPath arg.domid.toNat) .watchDomainDown
    ensure ((value.splitOn ':').head?.any xs.xsTakes)
    xswatch ((registerReportPath value).getD [] ++ monitorXsReportReadyPath) .watchDomainReport
    xswatch ((registerWatchPath value).getD [] ++ monitorXsReportReadyPath) .watchDomainWatchreport
    release
    return false
  else return true

/-- `watch_domain_report` -/
def watchDomainReportCb : Callback Bool := do
  acquire
  release
  if IsReady seen.value then
    acquire
    let dirs ← attempt seen.dirs
    let r ← attempt (readReport seen.node dirs)
    let _ ← attempt seen.children
    release
    let rep ← attempt (packReport r)
    ensure (seen.deviceOk 0)
    doMonitorOp path (.report rep) (seen.deviceOk 1)
    ensure seen.dumpOk
    doMonitorOp path (if seen.found then .kill else .resume) (seen.deviceOk 6)
    return true
  else return true

/-- `watch_domain_watchreport` -/
def watchDomainWatchreportCb : Callback Bool := do
  acquire
  release
  let value ← attempt seen.value
  if 0 < value.length then
    acquire
    let r ← attempt (readWatch seen.watchNode)
    release
    let rep ← attempt (packWatch r.1 r.2)
    ensure (seen.deviceOk 0)
    doMonitorOp path (.watch rep) (seen.deviceOk 1)
    return false
  else return true

/-- `fn(path, xs)` -/
def WatchFn.callback : WatchFn → Callback Bool
  | .watchDomainUp => watchDomainUpCb seen
  | .watchDomainDown => watchDomainDownCb seen
  | .watchDomainRegister => watchDomainRegisterCb xs path seen
  | .watchDomainReport => watchDomainReportCb path seen
  | .watchDomainWatchreport => watchDomainWatchreportCb path seen

end Source

/-- The thread of xswatch makes a callback.  A watch is taken away when its callback returns
False, and stays when it raises; a callback that blocks is not got past. -/
def fire (xs : Bindings) (s : ServerState) (e : XsWatch × Seen) : Option ServerState :=
  if e.1 ∈ s.watches then
    match (e.1.fn.callback xs e.1.path e.2).run s with
    | (.error .blocked, _) => none
    | (.error .raised, t) => some t
    | (.ok true, t) => some t
    | (.ok false, t) => some { t with watches := t.watches.erase e.1 }
  else none

def monitorMinDomid : ℕ := 1
def monitorMaxDomid : ℕ := 255

/-- `main`, up to its sleep. -/
def serverStart (xs : Bindings) : ServerState where
  sem := 1
  watches := (List.range' monitorMinDomid (monitorMaxDomid - monitorMinDomid)).map fun i =>
    ⟨xs.domidPath i, .watchDomainUp⟩
  calls := []

end Maitland
