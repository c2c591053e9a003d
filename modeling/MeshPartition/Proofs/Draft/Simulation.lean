import MeshPartition.Draft
import MeshPartition.Proofs.Mesh

/-!
# A draft is a mesh at any time

`Draft.ofMesh` is the draft that belongs to a mesh: it has the tables of the mesh, and maps made of
the positions in them. An operation on the draft of a mesh comes to the same as the operation on the
mesh (`Draft.run_perform`). So every draft that operations leave, some of them failed, belongs to
the mesh that they build (`Draft.ofEdits_eq`), and what the type of meshes promises holds of it.

A register is described apart from what it holds: its map follows the table when an entry is pushed
(`Register.push_ofEntries`), and answers what a search in the table finds
(`Register.Indexed.position?_eq`).
-/

namespace MeshPartition

namespace Register

variable {α : Type} {idOf : α → GlobalId} {entries : List α}

/-- The register of a table, with a map made of the positions in the table. -/
def ofEntries (idOf : α → GlobalId) (entries : List α) : Register α where
  entries := entries
  positions := .ofList ((entries.map idOf).zipIdx.map fun x => (x.1.toNat, x.2))

/-- Ids are distinct, and the map gives the position of exactly the ids in the table. -/
structure Indexed (idOf : α → GlobalId) (r : Register α) : Prop where
  ids_nodup : (r.entries.map idOf).Nodup
  position?_eq_some_iff : ∀ id i,
    r.position? id = some i ↔ ∃ a, r.entries[i]? = some a ∧ idOf a = id

/-- An entry that is pushed belongs to the table from then on. -/
theorem push_ofEntries (idOf : α → GlobalId) (entries : List α) (a : α) :
    (ofEntries idOf entries).push (idOf a) a = ofEntries idOf (entries ++ [a]) := by
  simp [push, ofEntries, IndexMap.ofList, List.zipIdx_append]

/-- The map does not change with an entry that keeps its id. -/
theorem modify_ofEntries (entries : List α) {f : α → α} (h : ∀ a, idOf (f a) = idOf a) (i : ℕ) :
    { ofEntries idOf entries with entries := entries.modify i f } =
      ofEntries idOf (entries.modify i f) := by
  rw [ofEntries, ofEntries, Mesh.map_modify_of_key idOf f h]

/-- The map of a table with distinct ids gives their positions. -/
theorem indexed_ofEntries (h : (entries.map idOf).Nodup) :
    (ofEntries idOf entries).Indexed idOf := by
  refine ⟨h, fun id i => ?_⟩
  have hkeys : (((entries.map idOf).zipIdx.map fun x => (x.1.toNat, x.2)).map Prod.fst).Nodup := by
    have hids : ((entries.map idOf).map GlobalId.toNat).Nodup :=
      List.Nodup.map (fun _ _ => GlobalId.toNat_injective) h
    rw [← List.zipIdx_map_fst 0 (entries.map idOf), List.map_map] at hids
    rwa [List.map_map]
  have hmem : (ofEntries idOf entries).position? id = some i ↔
      (entries.map idOf)[i]? = some id := by
    rw [position?, ofEntries, IndexMap.find?_ofList hkeys, List.mem_map]
    constructor
    · rintro ⟨⟨id', j⟩, hj, heq⟩
      obtain ⟨hid, rfl⟩ := Prod.mk.inj heq
      rw [← GlobalId.toNat_injective hid]
      exact List.mk_mem_zipIdx_iff_getElem?.1 hj
    · intro hi
      exact ⟨(id, i), List.mk_mem_zipIdx_iff_getElem?.2 hi, rfl⟩
  rw [hmem, List.getElem?_map, Option.map_eq_some_iff]
  rfl

/-- A map that belongs to its table answers what a search in the table finds. -/
theorem Indexed.position?_eq {r : Register α} (h : r.Indexed idOf) (id : GlobalId) :
    r.position? id = r.entries.findIdx? (idOf · = id) := by
  refine Option.ext fun i => ?_
  rw [h.position?_eq_some_iff, Mesh.findIdx?_eq_some_iff_of_nodup h.ids_nodup, List.getElem?_map,
    Option.map_eq_some_iff]

/-- A map that belongs to its table knows the ids that are in the table. -/
theorem Indexed.isSome_position?_iff {r : Register α} (h : r.Indexed idOf) (id : GlobalId) :
    (r.position? id).isSome = true ↔ id ∈ r.entries.map idOf := by
  rw [Option.isSome_iff_exists, List.mem_map]
  constructor
  · rintro ⟨i, hi⟩
    obtain ⟨a, ha, hid⟩ := (h.position?_eq_some_iff id i).1 hi
    exact ⟨a, List.mem_of_getElem? ha, hid⟩
  · rintro ⟨a, ha, hid⟩
    obtain ⟨i, hi⟩ := List.getElem?_of_mem ha
    exact ⟨i, (h.position?_eq_some_iff id i).2 ⟨a, hi, hid⟩⟩

end Register

namespace Mesh

variable {m : Mesh} {id : GlobalId} {nodes : List ℕ}

theorem addElementAt_of_some {bad : ℕ} (h : nodes.find? (m.nodes.length ≤ ·) = some bad) :
    m.addElementAt id nodes = .error (.invalidNodeIndex id bad m.nodeCount) := by
  unfold addElementAt
  split <;> simp_all

theorem lt_of_find?_eq_none {count : ℕ} (h : nodes.find? (count ≤ ·) = none) :
    ∀ n ∈ nodes, n < count := by
  simpa using h

theorem addElementAt_of_none (h : nodes.find? (m.nodes.length ≤ ·) = none) :
    m.addElementAt id nodes = m.addElementOver id nodes (lt_of_find?_eq_none h) := by
  unfold addElementAt
  split
  · simp_all
  · rfl

end Mesh

namespace Draft

/-- The draft that belongs to a mesh. -/
def ofMesh (m : Mesh) : Draft where
  nodes := .ofEntries Node.id m.nodes
  elements := .ofEntries Element.id m.elements

/-- What an operation on the draft of a mesh comes to, given what it comes to on the mesh. -/
def resultOf {β : Type} (m : Mesh) : Except Error (β × Mesh) → EStateM.Result Error Draft β
  | .ok (b, m') => .ok b (ofMesh m')
  | .error e => .error e (ofMesh m)

variable {m : Mesh} {id : GlobalId}

theorem resultOf_eq_ok_iff {β : Type} {x : Except Error (β × Mesh)} {b : β} {d : Draft} :
    resultOf m x = .ok b d ↔ ∃ m', x = .ok (b, m') ∧ d = ofMesh m' := by
  constructor
  · intro h
    match x, h with
    | .ok (_, m'), rfl => exact ⟨m', rfl, rfl⟩
  · rintro ⟨m', rfl, rfl⟩
    rfl

theorem resultOf_eq_error_iff {β : Type} {x : Except Error (β × Mesh)} {e : Error} {d : Draft} :
    resultOf m x = .error e d ↔ x = .error e ∧ d = ofMesh m := by
  constructor
  · intro h
    match x, h with
    | .error _, rfl => exact ⟨rfl, rfl⟩
  · rintro ⟨rfl, rfl⟩
    rfl

theorem indexed_nodes_ofMesh (m : Mesh) : (ofMesh m).nodes.Indexed Node.id :=
  Register.indexed_ofEntries m.nodeIds_nodup

theorem indexed_elements_ofMesh (m : Mesh) : (ofMesh m).elements.Indexed Element.id :=
  Register.indexed_ofEntries m.elementIds_nodup

/-- The map of the nodes answers what a search among the nodes finds. -/
theorem nodePosition?_ofMesh : (ofMesh m).nodes.position? id = m.nodeIndex? id :=
  (indexed_nodes_ofMesh m).position?_eq id

/-- The map of the elements answers what a search among the elements finds. -/
theorem elementPosition?_ofMesh : (ofMesh m).elements.position? id = m.elementIndex? id :=
  (indexed_elements_ofMesh m).position?_eq id

/-- Adding a node. -/
theorem run_addNode (m : Mesh) (id : GlobalId) (constraint : Option Constraint) :
    (addNode id constraint).run (ofMesh m) = resultOf m (m.addNode id constraint) := by
  have htaken := (indexed_nodes_ofMesh m).isSome_position?_iff id
  rw [addNode, EStateM.run_bind, EStateM.run_get, Mesh.addNode]
  dsimp only
  by_cases h : id ∈ m.nodes.map Node.id
  · rw [dif_pos h, if_pos (htaken.2 h)]
    rfl
  · have hpush := Register.push_ofEntries Node.id m.nodes ⟨id, constraint⟩
    rw [dif_neg h, if_neg (mt htaken.1 h)]
    exact congrArg (fun nodes => EStateM.Result.ok m.nodeCount { ofMesh m with nodes }) hpush

/-- Adding an element over nodes that exist. -/
theorem run_addElementOver (m : Mesh) (id : GlobalId) {nodes : List ℕ}
    (hnodes : ∀ n ∈ nodes, n < m.nodes.length) :
    (addElementOver id nodes).run (ofMesh m) = resultOf m (m.addElementOver id nodes hnodes) := by
  have htaken := (indexed_elements_ofMesh m).isSome_position?_iff id
  rw [addElementOver, EStateM.run_bind, EStateM.run_get, Mesh.addElementOver]
  dsimp only
  by_cases h : id ∈ m.elements.map Element.id
  · rw [dif_pos h, if_pos (htaken.2 h)]
    rfl
  · have hpush := Register.push_ofEntries Element.id m.elements ⟨id, nodes⟩
    rw [dif_neg h, if_neg (mt htaken.1 h)]
    exact congrArg (fun elements => EStateM.Result.ok m.elementCount { ofMesh m with elements })
      hpush

/-- Looking up the nodes of an element. -/
theorem run_nodePositions (m : Mesh) (referrer : Referrer) (ids : List GlobalId) :
    (ids.mapM (nodePosition referrer)).run (ofMesh m) =
      resultOf m ((m.positions referrer ids).map fun nodes => (nodes, m)) := by
  induction ids with
  | nil => rfl
  | cons id ids ih =>
    rw [List.mapM_cons, EStateM.run_bind, nodePosition, EStateM.run_bind, EStateM.run_get,
      Mesh.positions]
    simp only [nodePosition?_ofMesh]
    cases m.nodeIndex? id with
    | none => rfl
    | some i =>
      simp only [EStateM.run_pure, EStateM.run_bind, ih]
      cases m.positions referrer ids with
      | error e => rfl
      | ok nodes => rfl

/-- Adding an element given by the ids of its nodes. -/
theorem run_addElement (m : Mesh) (id : GlobalId) (nodeIds : List GlobalId) :
    (addElement id nodeIds).run (ofMesh m) = resultOf m (m.addElement id nodeIds) := by
  rw [addElement, EStateM.run_bind, run_nodePositions]
  cases h : m.positions (.element id) nodeIds with
  | error e =>
    rw [Mesh.addElement_of_error h]
    rfl
  | ok nodes =>
    rw [Mesh.addElement_of_ok h]
    exact run_addElementOver m id (Mesh.lt_of_mem_positions h)

/-- Adding an element given by the positions of its nodes. -/
theorem run_addElementAt (m : Mesh) (id : GlobalId) (nodes : List ℕ) :
    (addElementAt id nodes).run (ofMesh m) = resultOf m (m.addElementAt id nodes) := by
  rw [addElementAt, EStateM.run_bind, EStateM.run_get]
  dsimp only
  cases h : nodes.find? (m.nodes.length ≤ ·) with
  | some bad =>
    have hdraft : nodes.find? ((ofMesh m).nodes.entries.length ≤ ·) = some bad := h
    rw [hdraft, Mesh.addElementAt_of_some h]
    rfl
  | none =>
    have hdraft : nodes.find? ((ofMesh m).nodes.entries.length ≤ ·) = none := h
    rw [hdraft, Mesh.addElementAt_of_none h]
    exact run_addElementOver m id (Mesh.lt_of_find?_eq_none h)

/-- Replacing a constraint. -/
theorem run_setConstraint (m : Mesh) (i : ℕ) (constraint : Constraint) :
    (setConstraint i constraint).run (ofMesh m) =
      resultOf m ((m.setConstraint i constraint).map fun m' => ((), m')) := by
  rw [setConstraint, EStateM.run_bind, EStateM.run_get, Mesh.setConstraint]
  dsimp only
  by_cases h : i < m.nodes.length
  · have hdraft : i < (ofMesh m).nodes.entries.length := h
    have hids (node : Node) : (node.withConstraint constraint).id = node.id := rfl
    have hmodify := Register.modify_ofEntries m.nodes hids i
    rw [if_pos hdraft, if_pos h]
    exact congrArg (fun nodes => EStateM.Result.ok () { ofMesh m with nodes }) hmodify
  · have hdraft : ¬ i < (ofMesh m).nodes.entries.length := h
    rw [if_neg hdraft, if_neg h]
    rfl

/-- An operation on the draft of a mesh comes to the same as the operation on the mesh: to the
draft of the new mesh with the same answer, or to the same error with nothing changed. -/
theorem run_perform (m : Mesh) (edit : Edit) :
    (perform edit).run (ofMesh m) = resultOf m (m.perform edit) := by
  cases edit with
  | addNode id constraint =>
    rw [perform, EStateM.run_bind, run_addNode, Mesh.perform]
    cases m.addNode id constraint <;> rfl
  | addElement id nodeIds =>
    rw [perform, EStateM.run_bind, run_addElement, Mesh.perform]
    cases m.addElement id nodeIds <;> rfl
  | addElementAt id nodes =>
    rw [perform, EStateM.run_bind, run_addElementAt, Mesh.perform]
    cases m.addElementAt id nodes <;> rfl
  | setConstraint i constraint =>
    rw [perform, EStateM.run_bind, run_setConstraint, Mesh.perform]
    cases m.setConstraint i constraint <;> rfl

/-- One operation keeps a draft the draft of a mesh. -/
theorem after_ofMesh (m : Mesh) (edit : Edit) : (ofMesh m).after edit = ofMesh (m.after edit) := by
  rw [after, run_perform, Mesh.after]
  cases m.perform edit <;> rfl

/-- Any operations keep a draft the draft of a mesh. -/
theorem foldl_after_ofMesh (m : Mesh) (edits : List Edit) :
    edits.foldl after (ofMesh m) = ofMesh (edits.foldl Mesh.after m) := by
  induction edits generalizing m with
  | nil => rfl
  | cons edit edits ih => rw [List.foldl_cons, List.foldl_cons, after_ofMesh, ih]

/-- The draft that some operations leave belongs to the mesh that they build. -/
theorem ofEdits_eq (edits : List Edit) : ofEdits edits = ofMesh (Mesh.ofEdits edits) :=
  foldl_after_ofMesh Mesh.empty edits

end Draft

end MeshPartition
