import MeshPartition.Partitioner
import MeshPartition.Proofs.Incidence
import Mathlib.Data.List.Basic

/-!
# The dual graph of a mesh

Every mesh has a dual graph (`DualGraph.ofMesh_eq_ok`), and the row of an element holds the other
elements that share a node with it (`DualGraph.mem_rowsOf`). A graph that is made of rows gives them
back (`DualGraph.neighbours_ofRows`). Its edges are read off them in lexicographic order
(`DualGraph.edges_ofRows`, `DualGraph.sorted_edgeList`), and if the rows name only its own vertices,
those that an assignment of these vertices cuts can be counted (`DualGraph.edgeCut_ofRows`), as for
a mesh (`DualGraph.edgeCut_rowsOf_eq_countP`).
-/

namespace MeshPartition

/-- Two elements of a mesh share a node. -/
def Mesh.Touch (m : Mesh) (u v : ℕ) : Prop :=
  ∃ (eu ev : Element) (n : ℕ),
    m.elements[u]? = some eu ∧ m.elements[v]? = some ev ∧ n ∈ eu.nodes ∧ n ∈ ev.nodes

namespace DualGraph

variable {m : Mesh} {inc : Incidence} {ns : List ℕ} {rows : List (List ℕ)} {u v : ℕ}

/-! ## The rows of a mesh -/

/-- The elements at any of some nodes. Positions past the table count for nothing. -/
def touching (inc : Incidence) (ns : List ℕ) : IndexSet :=
  ns.foldr (fun n s => inc.incident[n]?.getD ∅ ∪ s) ∅

/-- An element touches some nodes if it is listed at one of them. -/
theorem mem_touching :
    v ∈ touching inc ns ↔ ∃ n ∈ ns, ∃ s, inc.incident[n]? = some s ∧ v ∈ s := by
  induction ns with
  | nil => simp [touching]
  | cons n ns ih =>
    rw [List.exists_mem_cons_iff, ← ih]
    show v ∈ inc.incident[n]?.getD ∅ ∪ touching inc ns ↔ _
    rw [IndexSet.mem_union]
    cases inc.incident[n]? with
    | none => simp
    | some s => simp

/-- Looking up the elements at nodes of the table succeeds. -/
theorem elementsAtAny_eq_ok (h : ∀ n ∈ ns, n < inc.size) :
    elementsAtAny inc ns = .ok (touching inc ns) := by
  induction ns with
  | nil => rfl
  | cons n ns ih =>
    obtain ⟨hn, hns⟩ := List.forall_mem_cons.1 h
    have hlt : n < inc.incident.length := hn
    have hcons : touching inc (n :: ns) = inc.incident[n] ∪ touching inc ns := by
      rw [touching, List.foldr_cons, List.getElem?_eq_getElem hlt]
      rfl
    rw [hcons, elementsAtAny, Incidence.elementsAt, entryAt_of_lt hlt, ih hns]
    rfl

/-- The rows of the dual graph of a mesh. -/
def rowsOf (m : Mesh) : List (List ℕ) :=
  m.elements.zipIdx.map fun x => ((touching (Incidence.ofMesh m) x.1.nodes).erase x.2).toList

@[simp] theorem length_rowsOf (m : Mesh) : (rowsOf m).length = m.elementCount := by
  simp [rowsOf, Mesh.elementCount]

/-- The row of an element holds the other elements that share a node with it. -/
theorem mem_rowsOf :
    (∃ row, (rowsOf m)[u]? = some row ∧ v ∈ row) ↔ u ≠ v ∧ m.Touch u v := by
  simp only [rowsOf, List.getElem?_map, List.getElem?_zipIdx, Option.map_eq_some_iff]
  constructor
  · rintro ⟨_, ⟨_, ⟨eu, heu, rfl⟩, rfl⟩, hv⟩
    rw [IndexSet.mem_toList, IndexSet.mem_erase, mem_touching] at hv
    obtain ⟨hne, n, hn, hat⟩ := hv
    obtain ⟨ev, hev, hn'⟩ := Incidence.mem_rows.1 hat
    exact ⟨by simpa using Ne.symm hne, eu, ev, n, heu, hev, hn, hn'⟩
  · rintro ⟨hne, eu, ev, n, heu, hev, hn, hn'⟩
    refine ⟨_, ⟨_, ⟨eu, heu, rfl⟩, rfl⟩, ?_⟩
    rw [IndexSet.mem_toList, IndexSet.mem_erase, mem_touching]
    exact ⟨by simpa using Ne.symm hne, n, hn, Incidence.mem_rows.2 ⟨ev, hev, hn'⟩⟩

/-- Every mesh has a dual graph. -/
theorem ofMesh_eq_ok (m : Mesh) : ofMesh m (Incidence.ofMesh m) = .ok (ofRows (rowsOf m)) := by
  have hrows : (m.elements.zipIdx.mapM fun x => do
      let touching ← elementsAtAny (Incidence.ofMesh m) x.1.nodes
      return (touching.erase x.2).toList) = .ok (rowsOf m) := by
    refine mapM_eq_ok fun x hx => ?_
    -- Elements name only nodes of the mesh, and the table has a row for each of these.
    have hnodes : ∀ n ∈ x.1.nodes, n < (Incidence.ofMesh m).size := by
      rw [Incidence.size_ofMesh]
      exact m.node_lt x.1 (List.fst_mem_of_mem_zipIdx hx)
    rw [elementsAtAny_eq_ok hnodes]
    rfl
  rw [ofMesh, hrows]
  rfl

/-! ## Reading a graph with given rows -/

@[simp] theorem vertexCount_ofRows (rows : List (List ℕ)) :
    (ofRows rows).vertexCount = rows.length := by
  simp [vertexCount, ofRows]

/-- The row of a vertex starts where those before it end. -/
theorem getElem?_offsets (hu : u ≤ rows.length) :
    (ofRows rows).offsets[u]? = some (rows.take u).flatten.length := by
  rw [ofRows, List.getElem?_scanl, List.length_map, if_pos hu, List.length_flatten, List.map_take,
    List.sum_eq_foldl]

/-- The rows up to a vertex are those before it and its own. -/
theorem flatten_take_succ (hu : u < rows.length) :
    (rows.take (u + 1)).flatten = (rows.take u).flatten ++ rows[u] := by
  rw [← List.take_append_getElem hu, List.flatten_append, List.flatten_singleton]

/-- Reading a row gives it back. -/
theorem neighbours_ofRows (hu : u < rows.length) : (ofRows rows).neighbours u = .ok rows[u] := by
  have hstart := entryAt_eq_ok_iff.2 (getElem?_offsets (Nat.le_of_lt hu))
  have hstop := entryAt_eq_ok_iff.2 (getElem?_offsets (Nat.succ_le_of_lt hu))
  have htargets : (ofRows rows).targets =
      (rows.take (u + 1)).flatten ++ (rows.drop (u + 1)).flatten := by
    rw [← List.flatten_append, List.take_append_drop]
    rfl
  have hle : (rows.take u).flatten.length ≤ (rows.take (u + 1)).flatten.length := by
    rw [flatten_take_succ hu, List.length_append]
    exact Nat.le_add_right _ _
  have hle' : (rows.take (u + 1)).flatten.length ≤ (ofRows rows).targets.length := by
    rw [htargets, List.length_append]
    exact Nat.le_add_right _ _
  rw [neighbours, hstart, hstop]
  show (if _ ∧ _ then Except.ok _ else _) = _
  rw [if_pos ⟨hle, hle'⟩, htargets, List.take_left' rfl, flatten_take_succ hu, List.drop_left' rfl]

/-- The edges of a graph with given rows: for each row its entries past the vertex. -/
def edgeList (rows : List (List ℕ)) : List (ℕ × ℕ) :=
  (List.range rows.length).flatMap fun u => ((rows[u]?.getD []).filter (u < ·)).map (u, ·)

/-- An edge goes from a vertex to a higher one in its row. -/
theorem mem_edgeList :
    (u, v) ∈ edgeList rows ↔ u < v ∧ ∃ row, rows[u]? = some row ∧ v ∈ row := by
  rw [edgeList, List.mem_flatMap]
  constructor
  · rintro ⟨w, hw, hx⟩
    rw [List.getElem?_eq_getElem (List.mem_range.1 hw), Option.getD_some, List.mem_map] at hx
    obtain ⟨x, hx, heq⟩ := hx
    cases heq
    obtain ⟨hmem, hlt⟩ := List.mem_filter.1 hx
    exact ⟨of_decide_eq_true hlt, _, List.getElem?_eq_getElem (List.mem_range.1 hw), hmem⟩
  · rintro ⟨hlt, row, hrow, hv⟩
    refine ⟨u, List.mem_range.2 (List.getElem?_eq_some_iff.1 hrow).1, ?_⟩
    rw [hrow, Option.getD_some]
    exact List.mem_map.2 ⟨v, List.mem_filter.2 ⟨hv, decide_eq_true hlt⟩, rfl⟩

/-- If the rows are ascending, the edges are in lexicographic order. -/
theorem sorted_edgeList (h : ∀ row ∈ rows, row.Pairwise (· < ·)) :
    (edgeList rows).Pairwise (Prod.Lex (· < ·) (· < ·)) := by
  rw [edgeList, List.pairwise_flatMap]
  constructor
  · intro u hu
    rw [List.getElem?_eq_getElem (List.mem_range.1 hu), Option.getD_some, List.pairwise_map]
    exact ((h _ (List.getElem_mem _)).filter _).imp fun hlt => Prod.Lex.right u hlt
  · refine List.pairwise_lt_range.imp fun hlt x hx y hy => ?_
    obtain ⟨v, -, rfl⟩ := List.mem_map.1 hx
    obtain ⟨w, -, rfl⟩ := List.mem_map.1 hy
    exact Prod.Lex.left v w hlt

/-- If the rows are ascending, no edge is listed twice. -/
theorem nodup_edgeList (h : ∀ row ∈ rows, row.Pairwise (· < ·)) : (edgeList rows).Nodup :=
  (sorted_edgeList h).imp fun {x y} hlt heq => by
    subst heq
    cases hlt with
    | left _ _ hlt => exact Nat.lt_irrefl _ hlt
    | right _ hlt => exact Nat.lt_irrefl _ hlt

/-- Reading the edges gives those of the rows. -/
theorem edges_ofRows (rows : List (List ℕ)) : (ofRows rows).edges = .ok (edgeList rows) := by
  have hrows : ((List.range (ofRows rows).vertexCount).mapM fun u => do
      let row ← (ofRows rows).neighbours u
      return (row.filter (u < ·)).map (u, ·)) =
      .ok ((List.range rows.length).map fun u =>
        ((rows[u]?.getD []).filter (u < ·)).map (u, ·)) := by
    rw [vertexCount_ofRows]
    refine mapM_eq_ok fun u hu => ?_
    have hlt := List.mem_range.1 hu
    rw [neighbours_ofRows hlt, List.getElem?_eq_getElem hlt]
    rfl
  rw [edges, hrows, edgeList, List.flatMap_def]
  rfl

/-- Edges whose ends have entries in the assignment are cut if these differ. -/
theorem countCut_eq_ok {a : Assignment} {es : List (ℕ × ℕ)}
    (h : ∀ x ∈ es, x.1 < a.size ∧ x.2 < a.size) :
    countCut a es = .ok (es.countP fun x => decide (a.parts[x.1]? ≠ a.parts[x.2]?)) := by
  induction es with
  | nil => rfl
  | cons x es ih =>
    obtain ⟨⟨hu, hv⟩, hes⟩ := List.forall_mem_cons.1 h
    obtain ⟨u, v⟩ := x
    have hu' : u < a.parts.length := hu
    have hv' : v < a.parts.length := hv
    rw [countCut, Assignment.partOf, Assignment.partOf, entryAt_of_lt hu', entryAt_of_lt hv',
      ih hes, List.countP_cons, List.getElem?_eq_getElem hu', List.getElem?_eq_getElem hv']
    by_cases hpart : a.parts[u] = a.parts[v]
    · simp [bind, Except.bind, pure, Except.pure, hpart]
    · simp [bind, Except.bind, pure, Except.pure, hpart]

/-- The edges of a graph whose rows name only its own vertices can be counted against an assignment
of these vertices. -/
theorem edgeCut_ofRows {a : Assignment} (hsize : a.size = rows.length)
    (hlt : ∀ row ∈ rows, ∀ v ∈ row, v < rows.length) : (ofRows rows).edgeCut a =
      .ok ((edgeList rows).countP fun x => decide (a.parts[x.1]? ≠ a.parts[x.2]?)) := by
  rw [edgeCut, edges_ofRows]
  refine countCut_eq_ok fun x hx => ?_
  obtain ⟨-, row, hrow, hv⟩ := mem_edgeList.1 hx
  rw [hsize]
  exact ⟨(List.getElem?_eq_some_iff.1 hrow).1, hlt row (List.mem_of_getElem? hrow) x.2 hv⟩

/-- The rows of a mesh name only its own elements. -/
theorem lt_of_mem_rowsOf {row : List ℕ} (hrow : row ∈ rowsOf m) (hv : v ∈ row) :
    v < m.elementCount := by
  obtain ⟨u, hu⟩ := List.getElem?_of_mem hrow
  obtain ⟨-, eu, ev, n, -, hev, -⟩ := mem_rowsOf.1 ⟨row, hu, hv⟩
  exact (List.getElem?_eq_some_iff.1 hev).1

/-- The edges of the dual graph of a mesh can be counted against an assignment of its elements. -/
theorem edgeCut_rowsOf_eq_countP {a : Assignment} (hsize : a.size = m.elementCount) :
    (ofRows (rowsOf m)).edgeCut a = .ok
      ((edgeList (rowsOf m)).countP fun x => decide (a.parts[x.1]? ≠ a.parts[x.2]?)) := by
  refine edgeCut_ofRows (hsize.trans (length_rowsOf m).symm) fun row hrow v hv => ?_
  rw [length_rowsOf]
  exact lt_of_mem_rowsOf hrow hv

/-- The rows of a mesh are ascending. -/
theorem sorted_of_mem_rowsOf {row : List ℕ} (hrow : row ∈ rowsOf m) : row.Pairwise (· < ·) := by
  obtain ⟨x, -, rfl⟩ := List.mem_map.1 hrow
  exact IndexSet.sorted _

end DualGraph

end MeshPartition
