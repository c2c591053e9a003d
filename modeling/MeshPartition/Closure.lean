import MeshPartition.Classification
import MeshPartition.Dependency

/-!
# Closing partition sets over dependencies

A part that holds a slave needs the slave's masters as well. A pass visits the links of a dependency
table in order and moves the parts of each slave into the set of its master, which then counts as
shared. One pass is enough when no master is itself a slave visited earlier; in general passes are
repeated until one of them changes nothing. Statuses and sets are joined into one table for this, an
`Access` for each node.
-/

namespace MeshPartition

/-- How far the closure is driven. -/
inductive ClosureMode where
  /-- One pass over the links. -/
  | singlePass
  /-- Passes until nothing changes. -/
  | fixedPoint
deriving DecidableEq

/-- How a closure ended. -/
structure ClosureReport where
  mode : ClosureMode
  /-- The number of passes made. -/
  passes : Nat
  /-- Whether nothing is left to do. -/
  converged : Bool
deriving DecidableEq

/-- What the closure knows of one node. -/
structure Access where
  status : NodeStatus
  partitions : IndexSet
deriving DecidableEq

namespace Closure

/-- What a master becomes when one of its slaves is visited. A local slave whose parts all reach the
master already asks for nothing. -/
def pull (slave master : Access) : Access :=
  if slave.status = .localOnly ∧ slave.partitions ⊆ master.partitions then
    master
  else
    ⟨.shared, master.partitions ∪ slave.partitions⟩

/-- Visits one link. -/
def visit (table : List Access) (l : Link) : Except Error (List Access) := do
  let slave ← entryAt table l.slave
  let master ← entryAt table l.master
  return table.set l.master (pull slave master)

/-- Visits all links in order. -/
def pass (links : List Link) (table : List Access) : Except Error (List Access) :=
  links.foldlM visit table

/-- Where repeated passes ended. -/
structure Settled where
  table : List Access
  passes : Nat
  converged : Bool

/-- Makes at most the given number of passes, and stops after one that changes nothing. -/
def settle (links : List Link) : Nat → List Access → Except Error Settled
  | 0, table => .ok ⟨table, 0, false⟩
  | budget + 1, table => do
    let next ← pass links table
    if next = table then
      return ⟨table, 1, true⟩
    else
      let rest ← settle links budget next
      return { rest with passes := rest.passes + 1 }

/-- The links along which a slave's parts do not all reach the master. -/
def openLinks (sets : List IndexSet) : List Link → Except Error (List Link)
  | [] => .ok []
  | l :: ls => do
    let slave ← entryAt sets l.slave
    let master ← entryAt sets l.master
    let rest ← openLinks sets ls
    return if slave ⊆ master then rest else l :: rest

end Closure

namespace Classification

/-- The table of the nodes, of statuses and sets that are equally many. -/
def accesses (c : Classification) : List Access := List.zipWith Access.mk c.status c.partitions

/-- The classification that a table of the nodes holds. -/
def ofAccesses (table : List Access) : Classification where
  status := table.map Access.status
  partitions := table.map Access.partitions

/-- Fails unless the dependencies and the two halves of the classification are equally many. -/
def checkSizes (c : Classification) (deps : DependencyTable) : Except Error Unit := do
  if deps.size ≠ c.size then
    throw (.sizeMismatch .dependencies c.size deps.size)
  if c.partitions.length ≠ c.size then
    throw (.sizeMismatch .partitionSets c.size c.partitions.length)

/-- The links along which a slave's parts do not all reach the master. -/
def unsatisfied (c : Classification) (deps : DependencyTable) : Except Error (List Link) := do
  c.checkSizes deps
  Closure.openLinks c.partitions deps.links

/-- Closes the partition sets over the dependencies. One pass more than there are nodes always
suffices for a fixed point. -/
def propagate (c : Classification) (deps : DependencyTable) (mode : ClosureMode) :
    Except Error (ClosureReport × Classification) := do
  c.checkSizes deps
  match mode with
  | .singlePass =>
    let closed := ofAccesses (← Closure.pass deps.links c.accesses)
    let left ← Closure.openLinks closed.partitions deps.links
    return (⟨.singlePass, 1, left.isEmpty⟩, closed)
  | .fixedPoint =>
    let settled ← Closure.settle deps.links (c.size + 1) c.accesses
    return (⟨.fixedPoint, settled.passes, settled.converged⟩, ofAccesses settled.table)

end Classification

end MeshPartition
