import MeshPartition.Proofs.DualGraph

/-!
# Meshes of one shape

Two meshes have the same shape if they have equally many nodes and elements, and the same nodes
belong to elements at the same position (`Mesh.SameShape`). Their ids and constraints may differ,
and so may the order in which an element lists its nodes, and how often. The tables that are made of
the elements do not see these differences: the incidence tables are equal
(`SameShape.incidence_eq`), and so are the rows of the dual graphs (`SameShape.rowsOf_eq`).
-/

namespace MeshPartition.Mesh

variable {m m' : Mesh} {e n : ℕ}

/-- The element at a position contains a node. -/
def Contains (m : Mesh) (e n : ℕ) : Prop := ∃ el, m.elements[e]? = some el ∧ n ∈ el.nodes

/-- The parts that meet at a node are those of the elements that contain it. -/
theorem mem_incidentParts {a : Assignment} {q : ℕ} :
    q ∈ m.incidentParts a n ↔ ∃ e, m.Contains e n ∧ a.parts[e]? = some q := by
  constructor
  · rintro ⟨e, el, hel, hn, hq⟩
    exact ⟨e, ⟨el, hel, hn⟩, hq⟩
  · rintro ⟨e, ⟨el, hel, hn⟩, hq⟩
    exact ⟨e, el, hel, hn, hq⟩

/-- Two meshes differ at most in ids and constraints, and in how elements list their nodes. -/
structure SameShape (m m' : Mesh) : Prop where
  nodeCount_eq : m.nodeCount = m'.nodeCount
  elementCount_eq : m.elementCount = m'.elementCount
  contains_iff : ∀ e n, m.Contains e n ↔ m'.Contains e n

/-- The nodes that an element contains are those that it lists. -/
theorem contains_iff_mem (he : e < m.elements.length) :
    m.Contains e n ↔ n ∈ m.elements[e].nodes := by
  rw [Contains, List.getElem?_eq_getElem he]
  constructor
  · rintro ⟨el, hel, hn⟩
    rwa [Option.some.inj hel]
  · exact fun hn => ⟨_, rfl, hn⟩

/-- The row of a node in the incidence table holds the elements that contain it. -/
theorem mem_getElem_rows (hn : n < (Incidence.rows m).length) :
    e ∈ (Incidence.rows m)[n] ↔ m.Contains e n := by
  rw [Contains, ← Incidence.mem_rows, List.getElem?_eq_getElem hn]
  constructor
  · exact fun he => ⟨_, rfl, he⟩
  · rintro ⟨s, hs, he⟩
    rwa [Option.some.inj hs]

namespace SameShape

variable (h : m.SameShape m')

include h

/-- Whether two meshes have the same shape does not depend on which is first. -/
theorem symm : m'.SameShape m :=
  ⟨h.nodeCount_eq.symm, h.elementCount_eq.symm, fun e n => (h.contains_iff e n).symm⟩

/-- The incidence tables are the same. -/
theorem incidence_eq : Incidence.ofMesh m = Incidence.ofMesh m' := by
  have hrows : Incidence.rows m = Incidence.rows m' := by
    apply List.ext_getElem
    · rw [Incidence.length_rows, Incidence.length_rows, h.nodeCount_eq]
    · intro n hn hn'
      refine IndexSet.ext fun e => ?_
      rw [mem_getElem_rows, mem_getElem_rows, h.contains_iff]
  simp only [Incidence.ofMesh, hrows, h.elementCount_eq]

/-- The same parts meet at a node. -/
theorem incidentParts_eq (a : Assignment) (n : ℕ) : m.incidentParts a n = m'.incidentParts a n := by
  ext q
  rw [← Incidence.mem_partSet_ofMesh, ← Incidence.mem_partSet_ofMesh, h.incidence_eq]

/-- The dual graphs have the same rows. -/
theorem rowsOf_eq : DualGraph.rowsOf m = DualGraph.rowsOf m' := by
  apply List.ext_getElem
  · rw [DualGraph.length_rowsOf, DualGraph.length_rowsOf, h.elementCount_eq]
  · intro e he he'
    have hel : e < m.elements.length := he.trans_eq (DualGraph.length_rowsOf m)
    have hel' : e < m'.elements.length := he'.trans_eq (DualGraph.length_rowsOf m')
    -- The elements at one position list the same nodes, so the same elements touch them.
    have htouching : DualGraph.touching (Incidence.ofMesh m) m.elements[e].nodes =
        DualGraph.touching (Incidence.ofMesh m') m'.elements[e].nodes := by
      refine IndexSet.ext fun v => ?_
      simp only [DualGraph.mem_touching, ← contains_iff_mem hel, ← contains_iff_mem hel',
        h.contains_iff, h.incidence_eq]
    simp only [DualGraph.rowsOf, List.getElem_map, List.getElem_zipIdx, Nat.zero_add, htouching]

end SameShape

end MeshPartition.Mesh
