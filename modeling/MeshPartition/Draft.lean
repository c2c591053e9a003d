import MeshPartition.IndexMap
import MeshPartition.Mesh

/-!
# Meshes that are changed in place

A draft is a mesh as a program keeps it while it is being built: its two tables, and beside each of
them a map that gives the positions of the ids without a search. The operations change the draft in
place, and what one of them changed before it fails stays changed. Nothing in the type says that a
map belongs to its table, or that elements name only nodes that exist. The operations of `Mesh`,
whose type does say so, are the measure for those of a draft: `Edit` names the operations of both.
-/

namespace MeshPartition

/-- An operation that builds a mesh, with its arguments. -/
inductive Edit where
  | addNode (id : GlobalId) (constraint : Option Constraint)
  /-- The nodes are given by their ids. -/
  | addElement (id : GlobalId) (nodeIds : List GlobalId)
  /-- The nodes are given by their positions. -/
  | addElementAt (id : GlobalId) (nodes : List Nat)
  | setConstraint (position : Nat) (constraint : Constraint)
deriving DecidableEq

namespace Mesh

/-- Performs an operation. The answer is the position of what was added, if something was. -/
def perform (m : Mesh) : Edit → Except Error (Option Nat × Mesh)
  | .addNode id constraint => do
    let (i, m') ← m.addNode id constraint
    return (some i, m')
  | .addElement id nodeIds => do
    let (i, m') ← m.addElement id nodeIds
    return (some i, m')
  | .addElementAt id nodes => do
    let (i, m') ← m.addElementAt id nodes
    return (some i, m')
  | .setConstraint i constraint => return (none, ← m.setConstraint i constraint)

/-- The mesh after an operation; one that fails is passed over. -/
def after (m : Mesh) (edit : Edit) : Mesh :=
  match m.perform edit with
  | .ok (_, m') => m'
  | .error _ => m

/-- The mesh that some operations build from nothing. -/
def ofEdits (edits : List Edit) : Mesh := edits.foldl after empty

end Mesh

/-- A table of entries and a map from ids to positions. -/
structure Register (α : Type) where
  entries : List α
  positions : IndexMap Nat
deriving DecidableEq

namespace Register

variable {α : Type}

/-- The register without entries. -/
def empty : Register α := ⟨[], ∅⟩

/-- The position that the map gives for an id. -/
def position? (r : Register α) (id : GlobalId) : Option Nat := r.positions.find? id.toNat

/-- The register with an entry appended and its position written into the map. -/
def push (r : Register α) (id : GlobalId) (a : α) : Register α where
  entries := r.entries ++ [a]
  positions := r.positions.insert id.toNat r.entries.length

end Register

/-- A mesh that is changed in place. -/
structure Draft where
  nodes : Register Node
  elements : Register Element
deriving DecidableEq

/-- A computation that changes a draft and may fail, with the draft as it is then. -/
abbrev Drafting := EStateM Error Draft

namespace Draft

/-- The draft without nodes and elements. -/
def empty : Draft := ⟨.empty, .empty⟩

/-- Adds a node and answers its position. -/
def addNode (id : GlobalId) (constraint : Option Constraint) : Drafting Nat := do
  let d ← get
  if (d.nodes.position? id).isSome then
    throw (.duplicateId .node id)
  else
    set { d with nodes := d.nodes.push id ⟨id, constraint⟩ }
    return d.nodes.entries.length

/-- Adds an element over some nodes, whether they exist or not, and answers its position. -/
def addElementOver (id : GlobalId) (nodes : List Nat) : Drafting Nat := do
  let d ← get
  if (d.elements.position? id).isSome then
    throw (.duplicateId .element id)
  else
    set { d with elements := d.elements.push id ⟨id, nodes⟩ }
    return d.elements.entries.length

/-- The position of the node with a given id. -/
def nodePosition (referrer : Referrer) (id : GlobalId) : Drafting Nat := do
  match (← get).nodes.position? id with
  | some i => return i
  | none => throw (.unknownNode id referrer)

/-- Adds an element given by the ids of its nodes. -/
def addElement (id : GlobalId) (nodeIds : List GlobalId) : Drafting Nat := do
  addElementOver id (← nodeIds.mapM (nodePosition (.element id)))

/-- Adds an element given by the positions of its nodes. -/
def addElementAt (id : GlobalId) (nodes : List Nat) : Drafting Nat := do
  let nodeCount := (← get).nodes.entries.length
  match nodes.find? (nodeCount ≤ ·) with
  | some bad => throw (.invalidNodeIndex id bad nodeCount)
  | none => addElementOver id nodes

/-- Replaces the constraint of the node at a position. -/
def setConstraint (i : Nat) (constraint : Constraint) : Drafting Unit := do
  let d ← get
  if i < d.nodes.entries.length then
    set { d with nodes.entries := d.nodes.entries.modify i (·.withConstraint constraint) }
  else
    throw .indexOutOfRange

/-- Performs an operation. The answer is the position of what was added, if something was. -/
def perform : Edit → Drafting (Option Nat)
  | .addNode id constraint => return some (← addNode id constraint)
  | .addElement id nodeIds => return some (← addElement id nodeIds)
  | .addElementAt id nodes => return some (← addElementAt id nodes)
  | .setConstraint i constraint => do
    setConstraint i constraint
    return none

/-- The draft after an operation, whether it fails or not. -/
def after (d : Draft) (edit : Edit) : Draft :=
  match (perform edit).run d with
  | .ok _ d' => d'
  | .error _ d' => d'

/-- The draft that some operations leave when they start from nothing. -/
def ofEdits (edits : List Edit) : Draft := edits.foldl after empty

end Draft

end MeshPartition
