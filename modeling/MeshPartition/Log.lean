import MeshPartition.Summary

/-!
# The log of a run

A run reports what it does as a list of `LogEntry`, events with their data; level and wording are
functions of the event. `Logged` is a computation that may fail and keeps what was logged until
then.
-/

namespace MeshPartition

/-- How much a log entry matters. -/
inductive LogLevel where
  | debug
  | info
  | warn
deriving DecidableEq

/-- What a run reports. -/
inductive LogEntry where
  /-- A deck was read. -/
  | deckRead (nodes elements trailing : Nat)
  /-- A run starts. -/
  | started (nodes elements parts : Nat) (partitioner : String)
  /-- The dual graph was built. -/
  | dualGraph (vertices edges : Nat)
  /-- The elements were assigned, cutting this many edges. -/
  | edgeCut (edges : Nat)
  /-- The constraints were resolved. -/
  | constrained (nodes : Nat)
  /-- The closure was cut short. -/
  | unsettled (passes : Nat)
  /-- The closure ended. -/
  | closed (passes shared : Nat)
  /-- Some part reaches the slave but not its master. -/
  | unreachedMaster (master slave : GlobalId)
  /-- Some nodes are in no part. -/
  | orphans (nodes : Nat)
  /-- A run ends. -/
  | summary (rows : List Summary)
deriving DecidableEq

/-- The level of an entry. -/
def LogEntry.level : LogEntry → LogLevel
  | started .. | edgeCut .. | summary .. => .info
  | deckRead .. | dualGraph .. | constrained .. | closed .. => .debug
  | unsettled .. | unreachedMaster .. | orphans .. => .warn

/-- The text of an entry. -/
def LogEntry.message : LogEntry → String
  | deckRead nodes elements trailing =>
    s!"read deck: {nodes} dof managers, {elements} elements, {trailing} trailing records"
  | started nodes elements parts partitioner =>
    s!"partitioning {nodes} nodes / {elements} elements into {parts} parts with {partitioner}"
  | dualGraph vertices edges => s!"dual graph: {vertices} vertices, {edges} edges"
  | edgeCut edges => s!"edge cut: {edges}"
  | constrained nodes => s!"{nodes} constrained nodes"
  | unsettled passes => s!"dependency closure did not settle after {passes} passes"
  | closed passes shared => s!"closure: {passes} pass(es), {shared} shared nodes"
  | unreachedMaster master slave =>
    s!"master node {master} not reachable from every partition of slave {slave} " ++
      "after a single closure pass"
  | orphans nodes => s!"{nodes} nodes belong to no partition"
  | summary rows => "\n" ++ Summary.table rows

/-- A computation that may fail, with what it logged. -/
structure Logged (α : Type) where
  result : Except Error α
  log : List LogEntry

namespace Logged

variable {α β : Type}

/-- One computation and then another; what was logged before a failure stays. -/
def andThen (x : Logged α) (f : α → Logged β) : Logged β :=
  match x.result with
  | .error e => ⟨.error e, x.log⟩
  | .ok a => ⟨(f a).result, x.log ++ (f a).log⟩

instance : Monad Logged where
  pure a := ⟨.ok a, []⟩
  bind := andThen

/-- A step that logs nothing. -/
instance : MonadLift (Except Error) Logged := ⟨fun result => ⟨result, []⟩⟩

/-- Logs one entry. -/
def note (entry : LogEntry) : Logged Unit := ⟨.ok (), [entry]⟩

/-- Logs one entry if a condition holds. -/
def noteIf (condition : Bool) (entry : LogEntry) : Logged Unit :=
  if condition then note entry else pure ()

end Logged

end MeshPartition
