import MeshPartition.Closure
import MeshPartition.IndexMap

/-!
# Node lists of parts

What the owner of a part has to know of the mesh: its elements, the nodes local to it, and the nodes
it shares with the parts that meet there. A list is built in three steps. The nodes of the part's
own elements come first. Then, judged against these, come the masters of listed slaves and the
slaves of local masters. Last come the nodes that the closed classification gives to the part. Nodes
of the last two steps are shared, with the other parts of their elements as annotation.

A `Context` holds the tables this needs, with proofs that they are of one mesh's sizes.
-/

namespace MeshPartition

/-- The nodes of one part. -/
structure NodeList where
  partition : Nat
  /-- The elements of the part. -/
  elements : List Nat
  /-- The nodes all of whose elements lie in the part. -/
  localNodes : IndexSet
  /-- The other nodes of the part, each with the other parts that meet at it. -/
  sharedNodes : IndexMap IndexSet
deriving DecidableEq

namespace NodeList

/-- Whether a node is listed as local. -/
def isLocal (l : NodeList) (n : Nat) : Bool := decide (n ∈ l.localNodes)

/-- Whether a node is listed as shared. -/
def isShared (l : NodeList) (n : Nat) : Bool := decide (n ∈ l.sharedNodes.keys)

/-- Whether a node is listed. -/
def isAccessible (l : NodeList) (n : Nat) : Bool := l.isLocal n || l.isShared n

theorem isAccessible_iff {l : NodeList} {n : Nat} :
    l.isAccessible n = true ↔ n ∈ l.localNodes ∨ n ∈ l.sharedNodes.keys := by
  simp [isAccessible, isLocal, isShared]

/-- The number of entries, local and shared. -/
def nodeCount (l : NodeList) : Nat := l.localNodes.size + l.sharedNodes.size

/-- The listed nodes in ascending order; a node listed twice stands twice. -/
def listed (l : NodeList) : List Nat :=
  (l.localNodes.toList ++ l.sharedNodes.keys.toList).mergeSort (· ≤ ·)

/-- The numbers of the listed nodes within the part, from `1` in ascending order. -/
def renumbering (l : NodeList) : IndexMap Nat := IndexMap.ofList (l.listed.zipIdx 1)

/-- The list with one more local node. -/
def addLocal (l : NodeList) (n : Nat) : NodeList :=
  { l with localNodes := l.localNodes.insert n }

/-- The list with one more shared node, or with more parts at one that is shared already. -/
def addShared (l : NodeList) (n : Nat) (parts : IndexSet) : NodeList :=
  { l with sharedNodes := l.sharedNodes.insert n ((l.sharedNodes.find? n).getD ∅ ∪ parts) }

/-- The end of a link that a list lacks: the master of a listed slave, or the slave of a local
master. -/
def lacking (l : NodeList) (link : Link) : Option Nat :=
  if l.isAccessible link.slave && !l.isLocal link.master then some link.master
  else if l.isLocal link.master && !l.isLocal link.slave then some link.slave
  else none

/-- The ends of links that a list lacks. -/
def lackingEnds (l : NodeList) (links : List Link) : IndexSet :=
  IndexSet.ofList (links.filterMap l.lacking)

/-- The nodes whose sets name the part of a list but which are not listed, ascending. -/
def unlisted (l : NodeList) (sets : List IndexSet) : List Nat :=
  (sets.zipIdx.filter fun x => decide (l.partition ∈ x.1) && !l.isAccessible x.2).map (·.2)

end NodeList

/-- Tables that belong together. -/
structure Context where
  mesh : Mesh
  incidence : Incidence
  assignment : Assignment
  classification : Classification
  dependencies : DependencyTable
  incidence_size : incidence.size = mesh.nodeCount
  incidence_elementCount : incidence.elementCount = mesh.elementCount
  assignment_size : assignment.size = mesh.elementCount
  classification_size : classification.size = mesh.nodeCount
  partitions_length : classification.partitions.length = mesh.nodeCount
  dependencies_size : dependencies.size = mesh.nodeCount

namespace Context

/-- Puts tables together; the first one whose size does not fit the mesh decides the error. -/
def ofTables (m : Mesh) (inc : Incidence) (a : Assignment) (c : Classification)
    (deps : DependencyTable) : Except Error Context :=
  if h₁ : inc.size ≠ m.nodeCount then
    .error (.sizeMismatch .incidence m.nodeCount inc.size)
  else if h₂ : inc.elementCount ≠ m.elementCount then
    .error (.sizeMismatch .incidenceElements m.elementCount inc.elementCount)
  else if h₃ : a.size ≠ m.elementCount then
    .error (.sizeMismatch .assignment m.elementCount a.size)
  else if h₄ : c.size ≠ m.nodeCount then
    .error (.sizeMismatch .classification m.nodeCount c.size)
  else if h₅ : c.partitions.length ≠ m.nodeCount then
    .error (.sizeMismatch .partitionSets m.nodeCount c.partitions.length)
  else if h₆ : deps.size ≠ m.nodeCount then
    .error (.sizeMismatch .dependencies m.nodeCount deps.size)
  else
    .ok ⟨m, inc, a, c, deps, Decidable.not_not.1 h₁, Decidable.not_not.1 h₂,
      Decidable.not_not.1 h₃, Decidable.not_not.1 h₄, Decidable.not_not.1 h₅,
      Decidable.not_not.1 h₆⟩

/-- The parts other than `p` that meet at a node. -/
def remoteParts (ctx : Context) (p n : Nat) : Except Error IndexSet := do
  let parts ← ctx.incidence.partsAt ctx.assignment n
  return parts.erase p

/-- The nodes of the given elements, one element after the other. -/
def nodesOf (ctx : Context) : List Nat → Except Error (List Nat)
  | [] => .ok []
  | e :: es => do
    let element ← ctx.mesh.element e
    let rest ← ctx.nodesOf es
    return element.nodes ++ rest

/-- Lists a node of an element of part `p`: local if no other part meets at it. -/
def enterNode (ctx : Context) (p : Nat) (l : NodeList) (n : Nat) : Except Error NodeList := do
  let remote ← ctx.remoteParts p n
  return if remote.isEmpty then l.addLocal n else l.addShared n remote

/-- Lists a node as shared. -/
def enterShared (ctx : Context) (p : Nat) (l : NodeList) (n : Nat) : Except Error NodeList := do
  let remote ← ctx.remoteParts p n
  return l.addShared n remote

/-- The node list of part `p`. -/
def nodeList (ctx : Context) (p : Nat) : Except Error NodeList := do
  let elements := ctx.assignment.elementsOf p
  let nodes ← ctx.nodesOf elements
  let own ← nodes.foldlM (ctx.enterNode p) ⟨p, elements, ∅, ∅⟩
  -- Both ends of every link are judged against the list of the part's own nodes.
  let linked ← (own.lackingEnds ctx.dependencies.links).toList.foldlM (ctx.enterShared p) own
  (linked.unlisted ctx.classification.partitions).foldlM (ctx.enterShared p) linked

/-- The node lists of all parts, in order. -/
def nodeLists (ctx : Context) : Except Error (List NodeList) :=
  (List.range ctx.assignment.partCount).mapM ctx.nodeList

end Context

end MeshPartition
