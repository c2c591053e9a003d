import MeshPartition.Closure

/-!
# Closing a classification in place

`Classification.propagate` answers with a new classification. A program that keeps statuses and sets
in two tables of their own writes into them while it visits the links, so that what a slave has when
it is visited is what earlier visits have left. Whether a pass has changed anything is noted on the
way: a visit has changed something if it made the set of the master larger or its status another.
`Closing` is such a computation, and what it has written before it fails stays written. The sizes
are looked at before anything is written.
-/

namespace MeshPartition

/-- A computation that changes a classification and may fail, with the classification as it is
then. -/
abbrev Closing := EStateM Error Classification

namespace Closing

variable {α : Type}

/-- Looks up the entry of a node in one of the tables. -/
def read (table : Classification → List α) (n : Nat) : Closing α := do
  MonadExcept.ofExcept (entryAt (table (← get)) n)

/-- Whether the slave of a link is local and all its parts reach the master. -/
def asksForNothing (l : Link) : Closing Bool := do
  if (← read Classification.status l.slave) = .localOnly then
    let parts ← read Classification.partitions l.slave
    let masterParts ← read Classification.partitions l.master
    return decide (parts ⊆ masterParts)
  else
    return false

/-- Adds parts to the set of a node, and tells whether it has become larger. -/
def addParts (n : Nat) (parts : IndexSet) : Closing Bool := do
  let before ← read Classification.partitions n
  let after := before ∪ parts
  modify fun c => { c with partitions := c.partitions.set n after }
  return decide (after.size ≠ before.size)

/-- Makes a node shared, and tells whether it was something else. -/
def share (n : Nat) : Closing Bool := do
  if (← read Classification.status n) = .shared then
    return false
  else
    modify fun c => { c with status := c.status.set n .shared }
    return true

/-- Visits one link, and tells whether the master has changed. -/
def visit (l : Link) : Closing Bool := do
  if ← asksForNothing l then
    return false
  else
    let parts ← read Classification.partitions l.slave
    let grown ← addParts l.master parts
    let turned ← share l.master
    return grown || turned

/-- Visits all links in order, and tells whether anything has changed. -/
def pass : List Link → Closing Bool
  | [] => return false
  | l :: links => do
    let changed ← visit l
    let changedLater ← pass links
    return changed || changedLater

/-- Makes at most the given number of passes, and stops after one that changes nothing. The answer is
the number of passes made, and whether there was such a one. -/
def settle (links : List Link) : Nat → Closing (Nat × Bool)
  | 0 => return (0, false)
  | budget + 1 => do
    if ← pass links then
      let (passes, converged) ← settle links budget
      return (passes + 1, converged)
    else
      return (1, true)

/-- Fails unless the dependencies and the two tables are equally long. -/
def checkSizes (deps : DependencyTable) : Closing Unit := do
  let c ← get
  if deps.size ≠ c.status.length then
    throw (.sizeMismatch .dependencies c.status.length deps.size)
  if c.partitions.length ≠ c.status.length then
    throw (.sizeMismatch .partitionSets c.status.length c.partitions.length)

/-- Closes the partition sets over the dependencies. -/
def propagate (deps : DependencyTable) (mode : ClosureMode) : Closing ClosureReport := do
  checkSizes deps
  match mode with
  | .singlePass =>
    let _ ← pass deps.links
    let left ← MonadExcept.ofExcept (Closure.openLinks (← get).partitions deps.links)
    return ⟨.singlePass, 1, left.isEmpty⟩
  | .fixedPoint =>
    let (passes, converged) ← settle deps.links ((← get).status.length + 1)
    return ⟨.fixedPoint, passes, converged⟩

end Closing

end MeshPartition
