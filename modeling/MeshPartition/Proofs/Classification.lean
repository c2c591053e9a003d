import MeshPartition.Proofs.Incidence.Filling

/-!
# Incidence and classification of a mesh

The rows of the incidence table, filled in place, are ascending and hold exactly the elements that
contain a node, and the classification under an assignment of the elements holds for each node
exactly the parts of these elements (`Incidence.fill_classifies`). An element that lists a node more
than once, at whichever places, is one element at this node. This shows in the number of all
entries, which is counted once by nodes and once by elements (`Incidence.incidenceCount_ofMesh`).
-/

namespace MeshPartition

namespace Mesh

variable {m : Mesh} {a : Assignment} {c : Classification} {n : ℕ}

/-- A classification says of each node of a mesh to which parts it belongs. -/
structure Classifies (m : Mesh) (a : Assignment) (c : Classification) : Prop where
  /-- There is a status for each node. -/
  size_eq : c.size = m.nodeCount
  /-- There is a set for each node. -/
  length_partitions : c.partitions.length = m.nodeCount
  /-- The set of a node holds the parts of the elements that contain it. -/
  mem_iff : ∀ n s, c.partitions[n]? = some s → ∀ q, q ∈ s ↔ q ∈ m.incidentParts a n
  /-- A node is local if that is one part. -/
  localOnly_iff : ∀ n < m.nodeCount,
    c.status[n]? = some .localOnly ↔ ∃ q, m.incidentParts a n = {q}
  /-- A node is shared if it is several parts or none. -/
  shared_iff : ∀ n < m.nodeCount, c.status[n]? = some .shared ↔ ¬ ∃ q, m.incidentParts a n = {q}

/-- No node is left without being looked at. -/
theorem Classifies.ne_undefined (h : m.Classifies a c) (n : ℕ) :
    c.status[n]? ≠ some .undefined := by
  intro hundefined
  have hn : n < m.nodeCount := h.size_eq ▸ (List.getElem?_eq_some_iff.1 hundefined).1
  by_cases hpart : ∃ q, m.incidentParts a n = {q}
  · cases hundefined.symm.trans ((h.localOnly_iff n hn).2 hpart)
  · cases hundefined.symm.trans ((h.shared_iff n hn).2 hpart)

end Mesh

namespace Classification

variable {m : Mesh} {a : Assignment}

/-- Classifying fails if the assignment is over another number of elements. -/
theorem ofAssignment_eq_error_iff {inc : Incidence} : ofAssignment inc a =
    .error (.invalidAssignment (.entryCount a.size inc.elementCount)) ↔
      a.size ≠ inc.elementCount := by
  constructor
  · intro h hsize
    cases h.symm.trans (ofAssignment_eq_ok_iff.2 ⟨hsize, rfl⟩)
  · intro hsize
    rw [ofAssignment, if_pos hsize]
    rfl

/-- A node is local if one part meets at it. -/
theorem statusOf_partSet_eq_localOnly_iff {n : ℕ} :
    statusOf ((Incidence.ofMesh m).partSet a n) = .localOnly ↔ ∃ q, m.incidentParts a n = {q} := by
  have hset : {q | q ∈ (Incidence.ofMesh m).partSet a n} = m.incidentParts a n :=
    Set.ext fun q => Incidence.mem_partSet_ofMesh
  rw [← hset, ← IndexSet.size_eq_one_iff, statusOf]
  split <;> simp_all

/-- A node that is not local is shared. -/
theorem statusOf_eq_shared_iff {parts : IndexSet} :
    statusOf parts = .shared ↔ statusOf parts ≠ .localOnly := by
  rw [statusOf]
  split <;> simp

/-- An assignment of the elements of a mesh classifies its nodes. -/
theorem classifies_of_ofAssignment {c : Classification}
    (h : ofAssignment (Incidence.ofMesh m) a = .ok c) : m.Classifies a c := by
  obtain ⟨-, rfl⟩ := ofAssignment_eq_ok_iff.1 h
  have hstatus : ∀ n < m.nodeCount, (((List.range (Incidence.ofMesh m).size).map
      ((Incidence.ofMesh m).partSet a)).map statusOf)[n]? =
        some (statusOf ((Incidence.ofMesh m).partSet a n)) := by
    intro n hn
    rw [Incidence.size_ofMesh, List.getElem?_map, List.getElem?_map, List.getElem?_range hn]
    rfl
  refine ⟨?_, ?_, fun n s hs q => ?_, fun n hn => ?_, fun n hn => ?_⟩
  · rw [size, List.length_map, List.length_map, List.length_range, Incidence.size_ofMesh]
  · rw [List.length_map, List.length_range, Incidence.size_ofMesh]
  · rw [List.getElem?_map, Option.map_eq_some_iff] at hs
    obtain ⟨k, hk, rfl⟩ := hs
    obtain ⟨-, rfl⟩ := List.getElem?_eq_some_iff.1 hk
    rw [List.getElem_range]
    exact Incidence.mem_partSet_ofMesh
  · rw [hstatus n hn, Option.some.injEq, statusOf_partSet_eq_localOnly_iff]
  · rw [hstatus n hn, Option.some.injEq, statusOf_eq_shared_iff, Ne,
      statusOf_partSet_eq_localOnly_iff]

end Classification

namespace Incidence

variable {m : Mesh}

/-- The row of a node is ascending and holds the elements that contain the node. -/
theorem row_of_getElem? {n : ℕ} {row : List ℕ}
    (h : ((ofMesh m).incident.map IndexSet.toList)[n]? = some row) :
    row.Pairwise (· < ·) ∧ ∀ e, e ∈ row ↔ m.Contains e n := by
  rw [List.getElem?_map, Option.map_eq_some_iff] at h
  obtain ⟨s, hs, rfl⟩ := h
  obtain ⟨hn, rfl⟩ := List.getElem?_eq_some_iff.1 hs
  exact ⟨IndexSet.sorted _, fun e => Mesh.mem_getElem_rows hn⟩

/-- Counted by nodes, the entries of the table are the pairs of a node and an element that contains
it. -/
theorem incidenceCount_eq_ncard (m : Mesh) :
    (ofMesh m).incidenceCount = {x : ℕ × ℕ | m.Contains x.2 x.1}.ncard := by
  have hrows : ∀ n row, ((ofMesh m).incident.map IndexSet.toList)[n]? = some row →
      row.Nodup ∧ ∀ e, e ∈ row ↔ m.Contains e n := fun n row hrow =>
    have hfacts := row_of_getElem? hrow
    ⟨hfacts.1.imp Nat.ne_of_lt, hfacts.2⟩
  have hlt : ∀ n e, m.Contains e n → n < ((ofMesh m).incident.map IndexSet.toList).length := by
    rintro n e ⟨el, hel, hn⟩
    rw [List.length_map, ← size, size_ofMesh]
    exact m.node_lt el (List.mem_of_getElem? hel) n hn
  rw [← sum_length_eq_ncard_pairs hrows hlt, ← List.length_flatten]
  rfl

/-- Counted by elements, they are the pairs of an element and a node of it. -/
theorem sum_ncard_nodes_eq_ncard (m : Mesh) :
    (m.elements.map fun el => {n | n ∈ el.nodes}.ncard).sum =
      {x : ℕ × ℕ | m.Contains x.1 x.2}.ncard := by
  have hrows : ∀ e row, (m.elements.map fun el => el.nodes.dedup)[e]? = some row →
      row.Nodup ∧ ∀ n, n ∈ row ↔ m.Contains e n := by
    intro e row hrow
    rw [List.getElem?_map, Option.map_eq_some_iff] at hrow
    obtain ⟨el, hel, rfl⟩ := hrow
    obtain ⟨he, rfl⟩ := List.getElem?_eq_some_iff.1 hel
    refine ⟨List.nodup_dedup _, fun n => ?_⟩
    rw [List.mem_dedup, Mesh.contains_iff_mem he]
  have hsizes : (m.elements.map fun el => {n | n ∈ el.nodes}.ncard) =
      (m.elements.map fun el => el.nodes.dedup).map List.length := by
    rw [List.map_map]
    refine List.map_congr_left fun el _ => ?_
    have hset : {n | n ∈ el.nodes} = {n | n ∈ el.nodes.dedup} :=
      Set.ext fun n => List.mem_dedup.symm
    rw [hset, ncard_setOf_mem (List.nodup_dedup _)]
    rfl
  have hlt : ∀ e n, m.Contains e n → e < (m.elements.map fun el => el.nodes.dedup).length := by
    rintro e n ⟨el, hel, -⟩
    rw [List.length_map]
    exact (List.getElem?_eq_some_iff.1 hel).1
  rw [hsizes, sum_length_eq_ncard_pairs hrows hlt]

/-- Each element has as many entries as it has different nodes. -/
theorem incidenceCount_ofMesh (m : Mesh) : (ofMesh m).incidenceCount =
    (m.elements.map fun el => {n | n ∈ el.nodes}.ncard).sum := by
  have hswap : {x : ℕ × ℕ | m.Contains x.2 x.1} = Prod.swap '' {x | m.Contains x.1 x.2} := by
    rw [Set.image_swap_eq_preimage_swap]
    rfl
  rw [incidenceCount_eq_ncard, sum_ncard_nodes_eq_ncard, hswap,
    Set.ncard_image_of_injective _ Prod.swap_injective]

/-- Filling the rows of a mesh in place succeeds, and gives for each node the elements that contain
it, ascending; this is what the incidence table holds. The number of its entries is the number of
different nodes of the elements, all together. An assignment is refused exactly if it is not over
the elements of the mesh. Otherwise each node gets the parts of the elements that contain it, and is
local or shared, which depends on whether that is one part. -/
theorem fill_classifies (m : Mesh) :
    (∃ rows, fill m = .ok rows ∧ (ofMesh m).incident.map IndexSet.toList = rows ∧
      rows.length = m.nodeCount ∧ ∀ n row, rows[n]? = some row →
        row.Pairwise (· < ·) ∧ ∀ e, e ∈ row ↔ m.Contains e n) ∧
    (ofMesh m).incidenceCount = (m.elements.map fun el => {n | n ∈ el.nodes}.ncard).sum ∧
    ∀ a : Assignment,
      (Classification.ofAssignment (ofMesh m) a =
        .error (.invalidAssignment (.entryCount a.size m.elementCount)) ↔
          a.size ≠ m.elementCount) ∧
      (a.size = m.elementCount ↔ ∃ c, Classification.ofAssignment (ofMesh m) a = .ok c ∧
        m.Classifies a c ∧ NodeStatus.undefined ∉ c.status) := by
  refine ⟨⟨_, fill_eq_ok m, rfl, ?_, fun n row hrow => row_of_getElem? hrow⟩,
    incidenceCount_ofMesh m, fun a => ⟨Classification.ofAssignment_eq_error_iff, ?_⟩⟩
  · rw [List.length_map]
    exact size_ofMesh m
  · constructor
    · intro hsize
      have hok : Classification.ofAssignment (ofMesh m) a = .ok _ :=
        Classification.ofAssignment_eq_ok_iff.2 ⟨hsize, rfl⟩
      have hclassifies := Classification.classifies_of_ofAssignment hok
      refine ⟨_, hok, hclassifies, fun hundefined => ?_⟩
      obtain ⟨n, hn⟩ := List.getElem?_of_mem hundefined
      exact hclassifies.ne_undefined n hn
    · rintro ⟨c, hok, -⟩
      exact (Classification.ofAssignment_eq_ok_iff.1 hok).1

end Incidence

end MeshPartition
