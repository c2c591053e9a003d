import MeshPartition.Incidence

/-!
# Classification of nodes

A node belongs to the parts of the elements that contain it. If that is one part the node is local
to it; otherwise, also with no element at all, it is shared. Classifications can come from outside
as well, with any statuses and any sets, so the type promises nothing about them.
-/

namespace MeshPartition

/-- How a node stands to the parts. -/
inductive NodeStatus where
  /-- Not looked at. -/
  | undefined
  /-- All its elements lie in one part. -/
  | localOnly
  /-- Elements of several parts meet at it, or it is needed beyond its own part. -/
  | shared
deriving DecidableEq

/-- The statuses of all nodes, and the parts from which each is reached. -/
structure Classification where
  status : List NodeStatus
  partitions : List IndexSet
deriving DecidableEq

namespace Classification

/-- The status of a node that belongs to the given parts. -/
def statusOf (parts : IndexSet) : NodeStatus :=
  if parts.size = 1 then .localOnly else .shared

/-- The classification of the nodes of an incidence table under an assignment of its elements. -/
def ofAssignment (inc : Incidence) (a : Assignment) : Except Error Classification := do
  if a.size ≠ inc.elementCount then
    throw (.invalidAssignment (.entryCount a.size inc.elementCount))
  let partitions ← (List.range inc.size).mapM (inc.partsAt a)
  return ⟨partitions.map statusOf, partitions⟩

/-- The number of statuses. -/
def size (c : Classification) : Nat := c.status.length

/-- Whether a node is reached from a part. -/
def isAccessible (c : Classification) (n p : Nat) : Except Error Bool := do
  let parts ← entryAt c.partitions n
  return decide (p ∈ parts)

/-- The number of nodes with a given status. -/
def count (c : Classification) (s : NodeStatus) : Nat := c.status.count s

end Classification

end MeshPartition
