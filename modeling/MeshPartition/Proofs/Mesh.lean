import MeshPartition.Mesh
import Mathlib.Data.List.Forall2
import Mathlib.Data.List.Nodup

/-!
# What the operations on a mesh do

A mesh is its two tables (`Mesh.eq_of_tables`), so an operation that adds something is described by
the tables that it leaves (`Mesh.addNode_eq_ok_iff`, `Mesh.addElement_eq_ok_iff`). That ids are
distinct, which the type promises of the result, is all that adding asks for. Searches for an id
find the one position that has it (`Mesh.nodeIndex?_eq_some_iff`), and a list of ids is looked up as
far as the first that names nothing (`Mesh.positions_eq_error_iff`).
-/

namespace MeshPartition.Mesh

variable {m m' : Mesh} {id : GlobalId} {i : ℕ} {nodeIds : List GlobalId} {nodes : List ℕ}

/-- Meshes with the same tables are equal. -/
theorem eq_of_tables (hnodes : m.nodes = m'.nodes) (helements : m.elements = m'.elements) :
    m = m' := by
  cases m; cases m'; cases hnodes; cases helements; rfl

/-- If keys are distinct, a search for a key finds the only position that has it. -/
theorem findIdx?_eq_some_iff_of_nodup {α β : Type} [DecidableEq β] {key : α → β} {as : List α}
    (h : (as.map key).Nodup) {b : β} :
    as.findIdx? (key · = b) = some i ↔ (as.map key)[i]? = some b := by
  rw [List.findIdx?_eq_some_iff_getElem, List.getElem?_map, Option.map_eq_some_iff]
  constructor
  · rintro ⟨hi, hkey, -⟩
    exact ⟨as[i], List.getElem?_eq_getElem hi, of_decide_eq_true hkey⟩
  · rintro ⟨a, ha, rfl⟩
    obtain ⟨hi, rfl⟩ := List.getElem?_eq_some_iff.1 ha
    refine ⟨hi, by simp, fun j hj heq => ?_⟩
    -- The same key at an earlier position would be a repetition.
    have hkeys := List.pairwise_iff_getElem.1 h j i (by simp; omega) (by simpa) hj
    exact hkeys (by simpa using heq)

/-- If no entry has a key, a search for it finds nothing. -/
theorem findIdx?_eq_none_iff_notMem {α β : Type} [DecidableEq β] {key : α → β} {as : List α}
    {b : β} : as.findIdx? (key · = b) = none ↔ b ∉ as.map key := by
  rw [List.findIdx?_eq_none_iff, List.mem_map, not_exists]
  constructor
  · rintro h a ⟨ha, rfl⟩
    exact of_decide_eq_false (h a ha) rfl
  · exact fun h a ha => decide_eq_false fun hkey => h a ⟨ha, hkey⟩

/-- A search for a node finds the position of its id. -/
theorem nodeIndex?_eq_some_iff : m.nodeIndex? id = some i ↔ (m.nodes.map Node.id)[i]? = some id :=
  findIdx?_eq_some_iff_of_nodup m.nodeIds_nodup

/-- A search for a node finds nothing if no node has the id. -/
theorem nodeIndex?_eq_none_iff : m.nodeIndex? id = none ↔ id ∉ m.nodes.map Node.id :=
  findIdx?_eq_none_iff_notMem

/-- A search for an element finds the position of its id. -/
theorem elementIndex?_eq_some_iff :
    m.elementIndex? id = some i ↔ (m.elements.map Element.id)[i]? = some id :=
  findIdx?_eq_some_iff_of_nodup m.elementIds_nodup

/-- A search for an element finds nothing if no element has the id. -/
theorem elementIndex?_eq_none_iff : m.elementIndex? id = none ↔ id ∉ m.elements.map Element.id :=
  findIdx?_eq_none_iff_notMem

/-- The positions of some ids are found exactly if each of them is found. -/
theorem positions_eq_ok_iff {referrer : Referrer} : m.positions referrer nodeIds = .ok nodes ↔
    List.Forall₂ (fun nodeId n => m.nodeIndex? nodeId = some n) nodeIds nodes := by
  induction nodeIds generalizing nodes with
  | nil => simp [positions, eq_comm]
  | cons nodeId nodeIds ih =>
    rw [positions, List.forall₂_cons_left_iff]
    cases hn : m.nodeIndex? nodeId with
    | none => simp
    | some n =>
      simp only [map_eq_ok_iff, ih, Option.some.injEq]
      constructor
      · rintro ⟨rest, hrest, rfl⟩
        exact ⟨n, rest, rfl, hrest, rfl⟩
      · rintro ⟨_, rest, rfl, hrest, rfl⟩
        exact ⟨rest, hrest, rfl⟩

/-- Looking up ids fails at the first of them that no node has. -/
theorem positions_eq_error_iff {referrer : Referrer} {e : Error} :
    m.positions referrer nodeIds = .error e ↔ ∃ known bad after,
      nodeIds = known ++ bad :: after ∧ (∀ nodeId ∈ known, nodeId ∈ m.nodes.map Node.id) ∧
        bad ∉ m.nodes.map Node.id ∧ e = .unknownNode bad referrer := by
  induction nodeIds with
  | nil => simp [positions]
  | cons nodeId nodeIds ih =>
    rw [positions]
    cases hfound : m.nodeIndex? nodeId with
    | none =>
      have hunknown := nodeIndex?_eq_none_iff.1 hfound
      constructor
      · intro h
        cases h
        exact ⟨[], nodeId, nodeIds, rfl, List.forall_mem_nil _, hunknown, rfl⟩
      · rintro ⟨known, bad, after, hsplit, hknown, -, rfl⟩
        -- The first id is unknown, so that no known one stands before the bad one.
        cases known with
        | nil =>
          cases hsplit
          rfl
        | cons first known =>
          cases hsplit
          exact absurd (hknown nodeId List.mem_cons_self) hunknown
    | some i =>
      have hknown : nodeId ∈ m.nodes.map Node.id :=
        List.mem_of_getElem? (nodeIndex?_eq_some_iff.1 hfound)
      have hrest : (m.positions referrer nodeIds).map (i :: ·) = .error e ↔
          m.positions referrer nodeIds = .error e := by
        cases m.positions referrer nodeIds <;> simp [Except.map]
      show (m.positions referrer nodeIds).map (i :: ·) = .error e ↔ _
      rw [hrest, ih]
      constructor
      · rintro ⟨known, bad, after, rfl, hbefore, hbad⟩
        exact ⟨nodeId :: known, bad, after, rfl, List.forall_mem_cons.2 ⟨hknown, hbefore⟩, hbad⟩
      · rintro ⟨known, bad, after, hsplit, hbefore, hbad, rfl⟩
        cases known with
        | nil =>
          cases hsplit
          exact absurd hknown hbad
        | cons first known =>
          cases hsplit
          exact ⟨known, bad, after, rfl, (List.forall_mem_cons.1 hbefore).2, hbad, rfl⟩

/-- Adding a node appends it. -/
theorem addNode_eq_ok_iff {constraint : Option Constraint} :
    m.addNode id constraint = .ok (i, m') ↔ i = m.nodes.length ∧
      m'.nodes = m.nodes ++ [⟨id, constraint⟩] ∧ m'.elements = m.elements := by
  unfold addNode
  constructor
  · intro h
    split at h
    · cases h
    · cases h
      exact ⟨rfl, rfl, rfl⟩
  · rintro ⟨rfl, hnodes, helements⟩
    have hfresh : id ∉ m.nodes.map Node.id := by
      have hnodup := m'.nodeIds_nodup
      rw [hnodes, List.map_append, List.nodup_append] at hnodup
      exact fun hid => hnodup.2.2 id hid id (by simp) rfl
    rw [dif_neg hfresh]
    exact congrArg Except.ok (Prod.ext rfl (eq_of_tables hnodes.symm helements.symm))

/-- Adding an element over nodes that exist appends it. -/
theorem addElementOver_eq_ok_iff {hnodes : ∀ n ∈ nodes, n < m.nodes.length} :
    m.addElementOver id nodes hnodes = .ok (i, m') ↔ i = m.elements.length ∧
      m'.nodes = m.nodes ∧ m'.elements = m.elements ++ [⟨id, nodes⟩] := by
  unfold addElementOver
  constructor
  · intro h
    split at h
    · cases h
    · cases h
      exact ⟨rfl, rfl, rfl⟩
  · rintro ⟨rfl, hsame, helements⟩
    have hfresh : id ∉ m.elements.map Element.id := by
      have hnodup := m'.elementIds_nodup
      rw [helements, List.map_append, List.nodup_append] at hnodup
      exact fun hid => hnodup.2.2 id hid id (by simp) rfl
    rw [dif_neg hfresh]
    exact congrArg Except.ok (Prod.ext rfl (eq_of_tables hsame.symm helements.symm))

theorem addElement_of_error {e : Error} (h : m.positions (.element id) nodeIds = .error e) :
    m.addElement id nodeIds = .error e := by
  unfold addElement
  split <;> simp_all

theorem addElement_of_ok (h : m.positions (.element id) nodeIds = .ok nodes) :
    m.addElement id nodeIds = m.addElementOver id nodes (lt_of_mem_positions h) := by
  unfold addElement
  split
  · simp_all
  · rename_i h'
    obtain rfl := Except.ok.inj (h.symm.trans h')
    rfl

/-- Adding an element given by the ids of its nodes appends it over their positions. -/
theorem addElement_eq_ok_iff : m.addElement id nodeIds = .ok (i, m') ↔ i = m.elements.length ∧
    m'.nodes = m.nodes ∧ ∃ nodes, m'.elements = m.elements ++ [⟨id, nodes⟩] ∧
      List.Forall₂ (fun nodeId n => m.nodeIndex? nodeId = some n) nodeIds nodes := by
  constructor
  · intro h
    cases hnodes : m.positions (.element id) nodeIds with
    | error e =>
      rw [addElement_of_error hnodes] at h
      cases h
    | ok nodes =>
      rw [addElement_of_ok hnodes, addElementOver_eq_ok_iff] at h
      exact ⟨h.1, h.2.1, nodes, h.2.2, positions_eq_ok_iff.1 hnodes⟩
  · rintro ⟨hi, hsame, nodes, helements, hnodes⟩
    rw [addElement_of_ok (positions_eq_ok_iff.2 hnodes)]
    exact addElementOver_eq_ok_iff.2 ⟨hi, hsame, helements⟩

end MeshPartition.Mesh
