import MeshPartition.Proofs.Draft.Simulation

/-!
# Tables and maps in step

Whatever operations build a draft, and however many of them fail, between any two of them its ids
are distinct, each map gives exactly the positions in its table, and elements name only nodes that
exist. Positions keep their meaning from then on, and a failure leaves no trace
(`Draft.ofEdits_consistent`).

The first part holds of the draft of any mesh (`Draft.consistent_ofMesh`). For the second,
`Mesh.Does` says what each operation can do to the tables: append one entry, or change a constraint.
So each keeps what the positions name (`Draft.keeps_of_does`), and a whole run does.
-/

namespace MeshPartition

namespace Mesh

variable {m m' : Mesh}

/-- What the operations that succeed do to the tables, and what they answer. -/
inductive Does (m m' : Mesh) : Edit → Option ℕ → Prop
  | addNode (id : GlobalId) (constraint : Option Constraint)
      (nodes_eq : m'.nodes = m.nodes ++ [⟨id, constraint⟩])
      (elements_eq : m'.elements = m.elements) :
      Does m m' (.addNode id constraint) (some m.nodes.length)
  | addElement (id : GlobalId) (nodeIds : List GlobalId) (nodes : List ℕ)
      (positions_eq : List.Forall₂ (fun nodeId n => m.nodeIndex? nodeId = some n) nodeIds nodes)
      (nodes_eq : m'.nodes = m.nodes) (elements_eq : m'.elements = m.elements ++ [⟨id, nodes⟩]) :
      Does m m' (.addElement id nodeIds) (some m.elements.length)
  | addElementAt (id : GlobalId) (nodes : List ℕ)
      (nodes_eq : m'.nodes = m.nodes) (elements_eq : m'.elements = m.elements ++ [⟨id, nodes⟩]) :
      Does m m' (.addElementAt id nodes) (some m.elements.length)
  | setConstraint (i : ℕ) (constraint : Constraint)
      (nodes_eq : m'.nodes = m.nodes.modify i (·.withConstraint constraint))
      (elements_eq : m'.elements = m.elements) :
      Does m m' (.setConstraint i constraint) none

/-- An operation that succeeds does what it should. -/
theorem does_of_perform {edit : Edit} {answer : Option ℕ}
    (h : m.perform edit = .ok (answer, m')) : m.Does m' edit answer := by
  cases edit with
  | addNode id constraint =>
    obtain ⟨⟨i, m''⟩, hadd, hanswer⟩ := bind_eq_ok_iff.1 h
    cases hanswer
    obtain ⟨rfl, hnodes, helements⟩ := addNode_eq_ok_iff.1 hadd
    exact .addNode id constraint hnodes helements
  | addElement id nodeIds =>
    obtain ⟨⟨i, m''⟩, hadd, hanswer⟩ := bind_eq_ok_iff.1 h
    cases hanswer
    obtain ⟨rfl, hsame, nodes, helements, hnodes⟩ := addElement_eq_ok_iff.1 hadd
    exact .addElement id nodeIds nodes hnodes hsame helements
  | addElementAt id nodes =>
    obtain ⟨⟨i, m''⟩, hadd, hanswer⟩ := bind_eq_ok_iff.1 h
    cases hanswer
    cases hbad : nodes.find? (m.nodes.length ≤ ·) with
    | some bad =>
      rw [addElementAt_of_some hbad] at hadd
      cases hadd
    | none =>
      rw [addElementAt_of_none hbad] at hadd
      obtain ⟨rfl, hn, he⟩ := addElementOver_eq_ok_iff.1 hadd
      exact .addElementAt id nodes hn he
  | setConstraint i constraint =>
    obtain ⟨m'', hset, hanswer⟩ := bind_eq_ok_iff.1 h
    cases hanswer
    unfold Mesh.setConstraint at hset
    split at hset
    · cases hset
      exact .setConstraint i constraint rfl rfl
    · cases hset

/-- Operations in a row go on from the mesh that the earlier ones build. -/
theorem ofEdits_append (edits later : List Edit) :
    ofEdits (edits ++ later) = later.foldl after (ofEdits edits) :=
  List.foldl_append

end Mesh

/-- What the position that an operation answers names from then on. -/
def Edit.Names (d : Draft) (i : ℕ) : Edit → Prop
  | addNode id _ => (d.nodes.entries.map Node.id)[i]? = some id
  | addElement id nodeIds => ∃ nodes, d.elements.entries[i]? = some ⟨id, nodes⟩ ∧
      List.Forall₂ (fun nodeId n => d.nodes.position? nodeId = some n) nodeIds nodes
  | addElementAt id nodes => d.elements.entries[i]? = some ⟨id, nodes⟩
  | setConstraint _ _ => False

namespace Draft

/-- What holds of the tables and the maps of a draft between two operations. -/
structure Consistent (d : Draft) : Prop where
  nodes_indexed : d.nodes.Indexed Node.id
  elements_indexed : d.elements.Indexed Element.id
  /-- Elements name only nodes that exist. -/
  node_lt : ∀ e ∈ d.elements.entries, ∀ n ∈ e.nodes, n < d.nodes.entries.length

/-- What the positions of a draft name is the same in a later one. -/
structure Keeps (d d' : Draft) : Prop where
  nodeIds : d.nodes.entries.map Node.id <+: d'.nodes.entries.map Node.id
  elements : d.elements.entries <+: d'.elements.entries

variable {m m' : Mesh} {d d' d'' : Draft}

/-- The draft of a mesh is consistent, as the mesh is. -/
theorem consistent_ofMesh (m : Mesh) : (ofMesh m).Consistent :=
  ⟨indexed_nodes_ofMesh m, indexed_elements_ofMesh m, m.node_lt⟩

theorem Keeps.refl (d : Draft) : d.Keeps d := ⟨List.prefix_rfl, List.prefix_rfl⟩

theorem Keeps.trans (h : d.Keeps d') (h' : d'.Keeps d'') : d.Keeps d'' :=
  ⟨h.nodeIds.trans h'.nodeIds, h.elements.trans h'.elements⟩

/-- A list that goes on with another one keeps its entries. -/
theorem getElem?_of_isPrefix {α : Type} {as bs : List α} {i : ℕ} {a : α} (h : as <+: bs)
    (hi : as[i]? = some a) : bs[i]? = some a := by
  obtain ⟨hlt, rfl⟩ := List.getElem?_eq_some_iff.1 hi
  exact List.prefix_iff_getElem?.1 h i hlt

/-- The position of an id stays the same. -/
theorem Keeps.position?_eq (h : d.Keeps d') (hd : d.Consistent) (hd' : d'.Consistent)
    {id : GlobalId} {i : ℕ} (hi : d.nodes.position? id = some i) :
    d'.nodes.position? id = some i := by
  have hid := (hd.nodes_indexed.position?_eq_some_iff id i).1 hi
  rw [← Option.map_eq_some_iff, ← List.getElem?_map] at hid
  refine (hd'.nodes_indexed.position?_eq_some_iff id i).2 ?_
  rw [← Option.map_eq_some_iff, ← List.getElem?_map]
  exact getElem?_of_isPrefix h.nodeIds hid

/-- What the position that an operation answered names is the same later. -/
theorem Keeps.names (h : d.Keeps d') (hd : d.Consistent) (hd' : d'.Consistent) {edit : Edit}
    {i : ℕ} (hnames : edit.Names d i) : edit.Names d' i := by
  cases edit with
  | addNode id constraint => exact getElem?_of_isPrefix h.nodeIds hnames
  | addElement id nodeIds =>
    obtain ⟨nodes, hi, hnodes⟩ := hnames
    exact ⟨nodes, getElem?_of_isPrefix h.elements hi,
      hnodes.imp fun _ _ hn => h.position?_eq hd hd' hn⟩
  | addElementAt id nodes => exact getElem?_of_isPrefix h.elements hnames
  | setConstraint i constraint => exact hnames

/-- The draft of a mesh whose tables go on keeps what the positions name. -/
theorem keeps_ofMesh (hnodes : m.nodes.map Node.id <+: m'.nodes.map Node.id)
    (helements : m.elements <+: m'.elements) : (ofMesh m).Keeps (ofMesh m') :=
  ⟨hnodes, helements⟩

/-- An operation that succeeds keeps what the positions name. -/
theorem keeps_of_does {edit : Edit} {answer : Option ℕ} (h : m.Does m' edit answer) :
    (ofMesh m).Keeps (ofMesh m') := by
  cases h with
  | addNode id constraint hnodes helements =>
    refine keeps_ofMesh ?_ (helements ▸ List.prefix_rfl)
    rw [hnodes, List.map_append]
    exact List.prefix_append _ _
  | addElement id nodeIds nodes _ hnodes helements =>
    exact keeps_ofMesh (hnodes ▸ List.prefix_rfl) (helements ▸ List.prefix_append _ _)
  | addElementAt id nodes hnodes helements =>
    exact keeps_ofMesh (hnodes ▸ List.prefix_rfl) (helements ▸ List.prefix_append _ _)
  | setConstraint i constraint hnodes helements =>
    have hids : m'.nodes.map Node.id = m.nodes.map Node.id := by
      rw [hnodes]
      exact Mesh.map_modify_of_key Node.id (·.withConstraint constraint) (fun _ => rfl) m.nodes i
    exact keeps_ofMesh (hids ▸ List.prefix_rfl) (helements ▸ List.prefix_rfl)

/-- The position that an operation answers names what was added. -/
theorem names_of_does {edit : Edit} {i : ℕ} (h : m.Does m' edit (some i)) :
    edit.Names (ofMesh m') i := by
  cases h with
  | addNode id constraint hnodes helements =>
    change (m'.nodes.map Node.id)[m.nodes.length]? = some id
    simp [hnodes]
  | addElement id nodeIds nodes hpositions hnodes helements =>
    refine ⟨nodes, ?_, hpositions.imp fun nodeId n hn => ?_⟩
    · change m'.elements[m.elements.length]? = some ⟨id, nodes⟩
      simp [helements]
    · rw [nodePosition?_ofMesh, Mesh.nodeIndex?, hnodes]
      exact hn
  | addElementAt id nodes hnodes helements =>
    change m'.elements[m.elements.length]? = some ⟨id, nodes⟩
    simp [helements]

/-- An operation, whether it fails or not, keeps what the positions name. -/
theorem keeps_after (m : Mesh) (edit : Edit) : (ofMesh m).Keeps (ofMesh (m.after edit)) := by
  rw [Mesh.after]
  cases h : m.perform edit with
  | error e => exact .refl _
  | ok x => exact keeps_of_does (Mesh.does_of_perform h)

/-- Any operations keep what the positions name. -/
theorem keeps_foldl (m : Mesh) (edits : List Edit) :
    (ofMesh m).Keeps (ofMesh (edits.foldl Mesh.after m)) := by
  induction edits generalizing m with
  | nil => exact .refl _
  | cons edit edits ih => exact (keeps_after m edit).trans (ih (m.after edit))

/-- After any operations that start from nothing, failed ones included, ids are distinct, each map
gives exactly the positions in its table, and elements name only nodes that exist. What positions
name then does not change, whatever operations follow, and the position that an operation answers
names what it added. An operation that fails leaves tables and maps as they were. All the while
draft and mesh come to the same: the draft belongs to the mesh that the same operations build, the
look-ups agree, and so do the answers and the errors of the next operation. -/
theorem ofEdits_consistent (edits : List Edit) :
    (ofEdits edits).Consistent ∧
    (∀ later, (ofEdits edits).Keeps (ofEdits (edits ++ later))) ∧
    (∀ edit i d, (perform edit).run (ofEdits edits) = .ok (some i) d →
      ∀ later, edit.Names (ofEdits (edits ++ edit :: later)) i) ∧
    (∀ edit e d, (perform edit).run (ofEdits edits) = .error e d → d = ofEdits edits) ∧
    ofEdits edits = ofMesh (Mesh.ofEdits edits) ∧
    (∀ id, (ofEdits edits).nodes.position? id = (Mesh.ofEdits edits).nodeIndex? id ∧
      (ofEdits edits).elements.position? id = (Mesh.ofEdits edits).elementIndex? id) ∧
    ∀ edit, (perform edit).run (ofEdits edits) =
      resultOf (Mesh.ofEdits edits) ((Mesh.ofEdits edits).perform edit) := by
  have hmesh := ofEdits_eq edits
  have hrun (edit : Edit) := run_perform (Mesh.ofEdits edits) edit
  rw [← hmesh] at hrun
  refine ⟨hmesh ▸ consistent_ofMesh _, fun later => ?_, fun edit i d hok later => ?_,
    fun edit e d herror => ?_, hmesh, fun id => ?_, hrun⟩
  · rw [hmesh, ofEdits_eq, Mesh.ofEdits_append]
    exact keeps_foldl (Mesh.ofEdits edits) later
  · rw [hrun, resultOf_eq_ok_iff] at hok
    obtain ⟨m, hperform, -⟩ := hok
    have hafter : (Mesh.ofEdits edits).after edit = m := by rw [Mesh.after, hperform]
    rw [ofEdits_eq, Mesh.ofEdits_append, List.foldl_cons, hafter]
    exact (keeps_foldl m later).names (consistent_ofMesh m) (consistent_ofMesh _)
      (names_of_does (Mesh.does_of_perform hperform))
  · rw [hrun, resultOf_eq_error_iff] at herror
    exact herror.2.trans hmesh.symm
  · rw [hmesh]
    exact ⟨nodePosition?_ofMesh, elementPosition?_ofMesh⟩

/-- An element that names a node past the last one is refused, and its id remains free. -/
example : let d := ofEdits [.addNode (.nth 9) none, .addNode (.nth 19) none]
    (perform (.addElementAt (.nth 6) [1, 5])).run d =
      .error (.invalidNodeIndex (.nth 6) 5 2) d ∧ d.elements.position? (.nth 6) = none :=
  ⟨rfl, rfl⟩

end Draft

end MeshPartition
