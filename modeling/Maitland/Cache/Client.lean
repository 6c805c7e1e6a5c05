import Maitland.Cache.Table

/-!
# The clients of the verdict table

`monitorSubmitHash` of service_client.py for any number of clients.  The name
server and the scanner answer; between two remote calls of a client the others may
make theirs.
-/

namespace Maitland

/-- `processData`: `[pageList, processID, processAge, domainID]` -/
structure ProcessData (Page Id : Type*) where
  pageList : List Page
  processID : Id
  processAge : Id
  domainID : Id
  deriving DecidableEq

variable {Page Id : Type*}

/-- `serviceHash.HashClass(processData[0][n], processData[1], processData[2], processData[3])` -/
def ProcessData.hashClass (d : ProcessData Page Id) (page : Page) : HashClass Page Id :=
  ⟨page, d.processID, d.processAge, d.domainID, .bad⟩

/-- The key the data is looked up by: the last page with the age and the domain. -/
def ProcessData.key (d : ProcessData Page Id) : Option (Page × Id × Id) :=
  d.pageList.getLast?.map fun page => (d.hashClass page).key

/-- Where a client is in `monitorSubmitHash`, with its `processData`, its
`hashClassObj` and, once it has one, its `result`. -/
inductive ClientPc (Page Id : Type*) where
  | idle
  | search (d : ProcessData Page Id) (x : HashClass Page Id)
  | scan (d : ProcessData Page Id) (x : HashClass Page Id)
  | clean (d : ProcessData Page Id) (x : HashClass Page Id) (result : Status)
  | append (d : ProcessData Page Id) (x : HashClass Page Id) (result : Status)
  deriving DecidableEq

structure CacheState (Page Id : Type*) where
  table : HashTable Page Id
  clients : List (ClientPc Page Id)
  /-- What the calls of `monitorSubmitHash` were given and what they returned. -/
  answers : List (ProcessData Page Id × Status)
  deriving DecidableEq

/-- A step of client `c`: it begins a call, or makes its next remote call. -/
inductive CacheAct (Page Id : Type*) where
  | submit (c : ℕ) (d : ProcessData Page Id)
  | search (c : ℕ)
  | scan (c : ℕ)
  | clean (c : ℕ)
  | append (c : ℕ)

def CacheState.move (s : CacheState Page Id) (c : ℕ) (pc : ClientPc Page Id) :
    CacheState Page Id :=
  { s with clients := s.clients.set c pc }

/-- Client `c` returns from its call. -/
def CacheState.answer (s : CacheState Page Id) (c : ℕ) (d : ProcessData Page Id)
    (result : Status) : CacheState Page Id :=
  { s with clients := s.clients.set c .idle, answers := s.answers ++ [(d, result)] }

variable [DecidableEq Page] [DecidableEq Id] (V : ProcessData Page Id → Status)

/-- `V` is `remoteHashObject.submitHash`. -/
def cacheStep (s : CacheState Page Id) : CacheAct Page Id → Option (CacheState Page Id)
  | .submit c d =>
    match s.clients[c]? with
    | some .idle =>
      -- The loop over the pages begins at the last one and leaves in its first round.
      match d.pageList.getLast? with
      | some page => some (s.move c (.search d (d.hashClass page)))
      | none => some (s.answer c d .good)
    | _ => none
  | .search c =>
    match s.clients[c]? with
    | some (.search d x) =>
      match searchHashList s.table x with
      | some status => some (s.answer c d status)
      | none => some (s.move c (.scan d x))
    | _ => none
  | .scan c =>
    match s.clients[c]? with
    | some (.scan d x) => some (s.move c (.clean d x (V d)))
    | _ => none
  | .clean c =>
    match s.clients[c]? with
    | some (.clean d x result) =>
      some { s.move c (.append d { x with status := result } result) with
        table := masterCleanUp s.table }
    | _ => none
  | .append c =>
    match s.clients[c]? with
    | some (.append d x result) =>
      some { s.answer c d result with table := appendList s.table x }
    | _ => none

/-- `n` clients and an empty table. -/
def cacheStart (n : ℕ) : CacheState Page Id := ⟨[], List.replicate n .idle, []⟩

end Maitland
