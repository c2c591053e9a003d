import MeshPartition.Error

/-!
# Meshes

A mesh is a list of nodes, each with an optional kinematic constraint, and a list of elements over
them. Within the mesh nodes and elements are named by their positions; the outside names them by
global ids. The type carries what every operation keeps: ids are distinct, and elements name only
nodes that exist. Constraints are not part of that, since a constraint may name masters that are
added later; `Dependency` says what they resolve to.
-/

namespace MeshPartition

/-- The ways in which a node can depend on other nodes. -/
inductive ConstraintKind where
  /-- The masters are listed. -/
  | explicitMasters
  /-- The node is the end of a rigid arm. -/
  | rigidArm
  /-- The node hangs on an element, whose nodes are its masters. -/
  | hangingOnElement
deriving DecidableEq

/-- The dependence of one node on others. -/
inductive Constraint where
  | explicitMasters (masters : List GlobalId)
  | rigidArm (masters : List GlobalId)
  /-- The element may be left open, to be found by whoever uses the mesh. -/
  | hangingOnElement (element : Option GlobalId)
deriving DecidableEq

/-- The kind of a constraint. -/
def Constraint.kind : Constraint → ConstraintKind
  | explicitMasters _ => .explicitMasters
  | rigidArm _ => .rigidArm
  | hangingOnElement _ => .hangingOnElement

/-- A node with its id and, if it depends on other nodes, its constraint. -/
structure Node where
  id : GlobalId
  constraint : Option Constraint
deriving DecidableEq

/-- The node with another constraint. -/
def Node.withConstraint (n : Node) (c : Constraint) : Node := { n with constraint := some c }

/-- An element with its id and the positions of its nodes, in the order of the element's shape. -/
structure Element where
  id : GlobalId
  nodes : List Nat
deriving DecidableEq

/-- A mesh. -/
structure Mesh where
  nodes : List Node
  elements : List Element
  /-- No two nodes have the same id. -/
  nodeIds_nodup : (nodes.map Node.id).Nodup
  /-- No two elements have the same id. -/
  elementIds_nodup : (elements.map Element.id).Nodup
  /-- Elements name only nodes that exist. -/
  node_lt : ∀ e ∈ elements, ∀ n ∈ e.nodes, n < nodes.length
deriving DecidableEq

namespace Mesh

/-- The mesh without nodes and elements. -/
def empty : Mesh := ⟨[], [], by simp, by simp, by simp⟩

/-- The number of nodes. -/
def nodeCount (m : Mesh) : Nat := m.nodes.length

/-- The number of elements. -/
def elementCount (m : Mesh) : Nat := m.elements.length

/-- The node at a position. -/
def node (m : Mesh) (i : Nat) : Except Error Node := entryAt m.nodes i

/-- The element at a position. -/
def element (m : Mesh) (i : Nat) : Except Error Element := entryAt m.elements i

/-- The position of the node with a given id. -/
def nodeIndex? (m : Mesh) (id : GlobalId) : Option Nat := m.nodes.findIdx? (·.id = id)

/-- The position of the element with a given id. -/
def elementIndex? (m : Mesh) (id : GlobalId) : Option Nat := m.elements.findIdx? (·.id = id)

theorem lt_of_nodeIndex? {m : Mesh} {id : GlobalId} {i : Nat} (h : m.nodeIndex? id = some i) :
    i < m.nodeCount :=
  (List.findIdx?_eq_some_iff_getElem.1 h).1

/-- Appending an entry with a fresh key keeps the keys distinct. -/
theorem nodup_map_append {α β : Type} {key : α → β} {as : List α} {a : α}
    (h : (as.map key).Nodup) (fresh : key a ∉ as.map key) : ((as ++ [a]).map key).Nodup := by
  rw [List.map_append, List.nodup_append]
  refine ⟨h, by simp, fun x hx y hy hxy => ?_⟩
  rw [List.map_singleton, List.mem_singleton] at hy
  subst hy hxy
  exact fresh hx

/-- Changing an entry without changing its key keeps the keys as they are. -/
theorem map_modify_of_key {α β : Type} (key : α → β) (f : α → α) (h : ∀ a, key (f a) = key a)
    (as : List α) (i : Nat) : (as.modify i f).map key = as.map key := by
  apply List.ext_getElem?
  intro j
  simp only [List.getElem?_map, List.getElem?_modify]
  cases as[j]? with
  | none => rfl
  | some a => by_cases hij : i = j <;> simp [hij, h]

/-- Adds a node and answers its position. -/
def addNode (m : Mesh) (id : GlobalId) (constraint : Option Constraint) :
    Except Error (Nat × Mesh) :=
  if h : id ∈ m.nodes.map Node.id then
    .error (.duplicateId .node id)
  else
    .ok (m.nodeCount,
      { m with
        nodes := m.nodes ++ [⟨id, constraint⟩]
        nodeIds_nodup := nodup_map_append m.nodeIds_nodup h
        node_lt := fun e he n hn => by
          have := m.node_lt e he n hn
          rw [List.length_append]
          omega })

/-- Adds an element over nodes known to exist, and answers its position. -/
def addElementOver (m : Mesh) (id : GlobalId) (nodes : List Nat)
    (nodes_lt : ∀ n ∈ nodes, n < m.nodes.length) : Except Error (Nat × Mesh) :=
  if h : id ∈ m.elements.map Element.id then
    .error (.duplicateId .element id)
  else
    .ok (m.elementCount,
      { m with
        elements := m.elements ++ [⟨id, nodes⟩]
        elementIds_nodup := nodup_map_append m.elementIds_nodup h
        node_lt := fun e he n hn => by
          rcases List.mem_append.1 he with he | he
          · exact m.node_lt e he n hn
          · rw [List.mem_singleton] at he
            subst he
            exact nodes_lt n hn })

/-- Adds an element given by the positions of its nodes. -/
def addElementAt (m : Mesh) (id : GlobalId) (nodes : List Nat) : Except Error (Nat × Mesh) :=
  match h : nodes.find? (m.nodes.length ≤ ·) with
  | some bad => .error (.invalidNodeIndex id bad m.nodeCount)
  | none => m.addElementOver id nodes (by simpa using h)

/-- The positions of the nodes with given ids. -/
def positions (m : Mesh) (referrer : Referrer) : List GlobalId → Except Error (List Nat)
  | [] => .ok []
  | id :: ids =>
    match m.nodeIndex? id with
    | none => .error (.unknownNode id referrer)
    | some i => (m.positions referrer ids).map (i :: ·)

theorem lt_of_mem_positions {m : Mesh} {referrer : Referrer} {ids : List GlobalId} {is : List Nat}
    (h : m.positions referrer ids = .ok is) : ∀ i ∈ is, i < m.nodes.length := by
  induction ids generalizing is with
  | nil => cases h; simp
  | cons id ids ih =>
    rw [positions] at h
    split at h
    · cases h
    · rename_i i hi
      cases hr : m.positions referrer ids with
      | error e => rw [hr] at h; cases h
      | ok js =>
        rw [hr] at h
        cases h
        intro j hj
        rcases List.mem_cons.1 hj with rfl | hj
        · exact lt_of_nodeIndex? hi
        · exact ih hr j hj

/-- Adds an element given by the ids of its nodes. -/
def addElement (m : Mesh) (id : GlobalId) (nodeIds : List GlobalId) : Except Error (Nat × Mesh) :=
  match h : m.positions (.element id) nodeIds with
  | .error e => .error e
  | .ok nodes => m.addElementOver id nodes (lt_of_mem_positions h)

/-- Replaces the constraint of the node at a position. -/
def setConstraint (m : Mesh) (i : Nat) (constraint : Constraint) : Except Error Mesh :=
  if i < m.nodes.length then
    .ok { m with
      nodes := m.nodes.modify i (·.withConstraint constraint)
      nodeIds_nodup := by
        rw [map_modify_of_key Node.id (·.withConstraint constraint) fun _ => rfl]
        exact m.nodeIds_nodup
      node_lt := by simpa using m.node_lt }
  else
    .error .indexOutOfRange

/-- The mesh whose nodes and elements have the ids `1`, `2`, … in order and no constraints. -/
def ofElementNodes (nodeCount : Nat) (elements : List (List Nat)) : Except Error Mesh := do
  let nodes ← (List.range nodeCount).foldlM (fun m i => do
    let id ← GlobalId.ofNat (i + 1)
    return (← m.addNode id none).2) Mesh.empty
  elements.zipIdx.foldlM (fun m e => do
    let id ← GlobalId.ofNat (e.2 + 1)
    return (← m.addElementAt id e.1).2) nodes

end Mesh

end MeshPartition
