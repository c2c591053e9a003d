import MeshPartition.Proofs.Counting
import MeshPartition.Proofs.DualGraph

/-!
# The adjacency of the elements

The dual graph of a mesh is well formed, joins exactly the different elements that share a node, and
lists each edge once (`DualGraph.fill_adjacency`).

The rows are those of the sets that are collected node by node (`foldlM_meetAt_eq_ok`). One row that
is appended keeps the graph well formed (`DualGraph.Compressed.push`), hence so do all of them. That
sharing a node has no direction is not looked at when the rows are filled; it shows in the number of
their entries, which is twice that of the edges (`length_targets_eq_two_mul`).
-/

namespace MeshPartition

/-- Sharing a node has no direction. -/
theorem Mesh.Touch.symm {m : Mesh} {u v : ℕ} (h : m.Touch u v) : m.Touch v u := by
  obtain ⟨eu, ev, n, heu, hev, hu, hv⟩ := h
  exact ⟨ev, eu, n, hev, heu, hv, hu⟩

namespace DualGraph

variable {m : Mesh} {inc : Incidence} {found : IndexSet} {ns : List ℕ} {rows : List (List ℕ)}
  {g : DualGraph} {e n u v : ℕ}

/-! ## Collecting the neighbours of an element -/

/-- Adding some elements to those found leaves out the element itself. -/
theorem mem_foldl_insert_ne {vs : List ℕ} :
    v ∈ vs.foldl (fun found w => if w = e then found else found.insert w) found ↔
      v ∈ found ∨ v ≠ e ∧ v ∈ vs := by
  induction vs generalizing found with
  | nil => simp
  | cons w vs ih =>
    rw [List.foldl_cons, ih, List.mem_cons]
    by_cases hw : w = e
    · rw [if_pos hw]
      grind
    · rw [if_neg hw, IndexSet.mem_insert]
      grind

/-- The elements at one node. -/
theorem meetAt_eq_ok (hn : n < inc.size) :
    meetAt inc e found n = .ok (found ∪ (inc.incident[n]?.getD ∅).erase e) := by
  have hlt : n < inc.incident.length := hn
  rw [meetAt, Incidence.elementsAt, entryAt_of_lt hlt, List.getElem?_eq_getElem hlt,
    Option.getD_some]
  refine congrArg Except.ok (IndexSet.ext fun v => ?_)
  rw [mem_foldl_insert_ne, IndexSet.mem_union, IndexSet.mem_erase, IndexSet.mem_toList]

/-- The elements at some nodes. -/
theorem foldlM_meetAt_eq_ok (h : ∀ n ∈ ns, n < inc.size) :
    ns.foldlM (meetAt inc e) found = .ok (found ∪ (touching inc ns).erase e) := by
  induction ns generalizing found with
  | nil =>
    refine congrArg Except.ok (IndexSet.ext fun v => ?_)
    simp [touching]
  | cons n ns ih =>
    obtain ⟨hn, hns⟩ := List.forall_mem_cons.1 h
    rw [List.foldlM_cons, meetAt_eq_ok hn]
    refine (ih hns).trans (congrArg Except.ok (IndexSet.ext fun v => ?_))
    show _ ↔ v ∈ found ∪ (inc.incident[n]?.getD ∅ ∪ touching inc ns).erase e
    simp only [IndexSet.mem_union, IndexSet.mem_erase]
    grind

/-! ## Appending the rows -/

/-- A graph in compressed rows is well formed over a number of vertices: each has a row, the rows
lie one after the other, and they are all there is. -/
structure Compressed (g : DualGraph) (n : ℕ) : Prop where
  length_offsets : g.offsets.length = n + 1
  head?_offsets : g.offsets.head? = some 0
  ascending : g.offsets.Pairwise (· ≤ ·)
  getLast?_offsets : g.offsets.getLast? = some g.targets.length

/-- The graph without vertices. -/
theorem compressed_nil : Compressed ⟨[0], []⟩ 0 where
  length_offsets := rfl
  head?_offsets := rfl
  ascending := List.pairwise_singleton _ 0
  getLast?_offsets := rfl

/-- No row starts past the end. -/
theorem Compressed.le_length (h : g.Compressed n) {x : ℕ} (hx : x ∈ g.offsets) :
    x ≤ g.targets.length := by
  obtain ⟨front, hfront⟩ := List.getLast?_eq_some_iff.1 h.getLast?_offsets
  have hascending := h.ascending
  rw [hfront] at hx hascending
  rcases List.mem_append.1 hx with hbefore | hend
  · exact (List.pairwise_append.1 hascending).2.2 x hbefore _ (List.mem_singleton_self _)
  · exact Nat.le_of_eq (List.mem_singleton.1 hend)

/-- One more row. -/
theorem Compressed.push (h : g.Compressed n) (row : List ℕ) : (g.push row).Compressed (n + 1) where
  length_offsets := by
    rw [DualGraph.push, List.length_append, h.length_offsets]
    rfl
  head?_offsets := by
    rw [DualGraph.push, List.head?_append, h.head?_offsets]
    rfl
  ascending := by
    refine List.pairwise_append.2 ⟨h.ascending, List.pairwise_singleton _ _, fun x hx y hy => ?_⟩
    rw [List.mem_singleton.1 hy, List.length_append]
    exact Nat.le_add_right_of_le (h.le_length hx)
  getLast?_offsets := List.getLast?_concat

/-- Any number of rows. -/
theorem Compressed.foldl_push (h : g.Compressed n) (rows : List (List ℕ)) :
    (rows.foldl DualGraph.push g).Compressed (n + rows.length) := by
  induction rows generalizing g n with
  | nil => exact h
  | cons row rows ih =>
    rw [List.foldl_cons, List.length_cons, Nat.add_comm rows.length, ← Nat.add_assoc]
    exact ih (h.push row)

/-- A graph with one more row. -/
theorem ofRows_concat (rows : List (List ℕ)) (row : List ℕ) :
    ofRows (rows ++ [row]) = (ofRows rows).push row := by
  have hlast : (rows.map List.length).foldl (· + ·) 0 = rows.flatten.length := by
    rw [List.length_flatten, List.sum_eq_foldl]
  simp [ofRows, push, List.scanl_append, hlast]

/-- Appending rows one after the other gives the graph with these rows. -/
theorem foldl_push_eq_ofRows (rows : List (List ℕ)) : rows.foldl push ⟨[0], []⟩ = ofRows rows := by
  induction rows using List.reverseRecOn with
  | nil => rfl
  | append_singleton rows row ih => rw [List.foldl_concat, ih, ofRows_concat]

/-- A graph that is made of rows is well formed. -/
theorem compressed_ofRows (rows : List (List ℕ)) : (ofRows rows).Compressed rows.length := by
  rw [← foldl_push_eq_ofRows, ← Nat.zero_add rows.length]
  exact compressed_nil.foldl_push rows

/-- Filling the dual graph of a mesh row by row gives the graph with its rows. -/
theorem fill_eq_ok (m : Mesh) : fill m (Incidence.ofMesh m) = .ok (ofRows (rowsOf m)) := by
  have hrows : (m.elements.zipIdx.mapM fun x =>
      x.1.nodes.foldlM (meetAt (Incidence.ofMesh m) x.2) ∅) =
        .ok (m.elements.zipIdx.map fun x =>
          ∅ ∪ (touching (Incidence.ofMesh m) x.1.nodes).erase x.2) := by
    refine mapM_eq_ok fun x hx => foldlM_meetAt_eq_ok ?_
    rw [Incidence.size_ofMesh]
    exact m.node_lt x.1 (List.fst_mem_of_mem_zipIdx hx)
  have hempty : ∀ s : IndexSet, ∅ ∪ s = s := fun s => IndexSet.ext fun v => by simp
  rw [fill, hrows]
  show Except.ok (List.foldl push _ _) = _
  rw [foldl_push_eq_ofRows, List.map_map, rowsOf]
  simp only [Function.comp_def, hempty]

/-! ## Adjacency -/

/-- A vertex stands in the row of another. -/
def Adjacent (g : DualGraph) (u v : ℕ) : Prop := ∃ row, g.neighbours u = .ok row ∧ v ∈ row

/-- Only vertices have rows. -/
theorem lt_of_neighbours {row : List ℕ} (h : (ofRows rows).neighbours u = .ok row) :
    u < rows.length := by
  rw [neighbours] at h
  obtain ⟨_, -, h⟩ := bind_eq_ok_iff.1 h
  obtain ⟨_, hstop, -⟩ := bind_eq_ok_iff.1 h
  obtain ⟨hlt, -⟩ := List.getElem?_eq_some_iff.1 (entryAt_eq_ok_iff.1 hstop)
  rw [(compressed_ofRows rows).length_offsets] at hlt
  exact Nat.lt_of_succ_lt_succ hlt

/-- In a graph that is made of rows a vertex is adjacent to what its row holds. -/
theorem adjacent_ofRows : (ofRows rows).Adjacent u v ↔ ∃ row, rows[u]? = some row ∧ v ∈ row := by
  constructor
  · rintro ⟨row, hrow, hv⟩
    have hu := lt_of_neighbours hrow
    cases hrow.symm.trans (neighbours_ofRows hu)
    exact ⟨_, List.getElem?_eq_getElem hu, hv⟩
  · rintro ⟨row, hrow, hv⟩
    obtain ⟨hu, rfl⟩ := List.getElem?_eq_some_iff.1 hrow
    exact ⟨_, neighbours_ofRows hu, hv⟩

/-- The edges are the adjacent pairs in ascending order. -/
theorem mem_edgeList_iff_adjacent :
    (u, v) ∈ edgeList rows ↔ u < v ∧ (ofRows rows).Adjacent u v := by
  rw [mem_edgeList, adjacent_ofRows]

/-- If adjacency has no direction and there are no loops, each edge stands in two rows. -/
theorem length_targets_eq_two_mul (hsorted : ∀ row ∈ rows, row.Pairwise (· < ·))
    (hsymm : ∀ u v, (ofRows rows).Adjacent u v → (ofRows rows).Adjacent v u)
    (hirrefl : ∀ u, ¬ (ofRows rows).Adjacent u u) :
    (ofRows rows).targets.length = 2 * (edgeList rows).length := by
  have hlists : ∀ u row, rows[u]? = some row →
      row.Nodup ∧ ∀ v, v ∈ row ↔ (ofRows rows).Adjacent u v := by
    intro u row hrow
    refine ⟨(hsorted row (List.mem_of_getElem? hrow)).imp Nat.ne_of_lt, fun v => ?_⟩
    rw [adjacent_ofRows, hrow]
    simp
  have hlt : ∀ u v, (ofRows rows).Adjacent u v → u < rows.length :=
    fun _ _ ⟨_, hrow, _⟩ => lt_of_neighbours hrow
  have hedges : {x : ℕ × ℕ | x.1 < x.2 ∧ (ofRows rows).Adjacent x.1 x.2} =
      {x | x ∈ edgeList rows} := Set.ext fun x => mem_edgeList_iff_adjacent.symm
  have hfinite : {x : ℕ × ℕ | x.1 < x.2 ∧ (ofRows rows).Adjacent x.1 x.2}.Finite :=
    hedges ▸ List.finite_toSet _
  calc (ofRows rows).targets.length
      = (rows.map List.length).sum := List.length_flatten
    _ = {x : ℕ × ℕ | (ofRows rows).Adjacent x.1 x.2}.ncard := sum_length_eq_ncard_pairs hlists hlt
    _ = 2 * {x : ℕ × ℕ | x.1 < x.2 ∧ (ofRows rows).Adjacent x.1 x.2}.ncard :=
        ncard_symmetric_pairs hsymm hirrefl hfinite
    _ = 2 * (edgeList rows).length := by
        rw [hedges, ncard_setOf_mem (nodup_edgeList hsorted)]

/-- Different elements are adjacent if they share a node. -/
theorem adjacent_rowsOf : (ofRows (rowsOf m)).Adjacent u v ↔ u ≠ v ∧ m.Touch u v := by
  rw [adjacent_ofRows, mem_rowsOf]

/-- The row of an element is ascending and holds the other elements that share a node with it. -/
theorem exists_neighbours_rowsOf (hu : u < m.elementCount) :
    ∃ row, (ofRows (rowsOf m)).neighbours u = .ok row ∧ row.Pairwise (· < ·) ∧ u ∉ row ∧
      ∀ v, v ∈ row ↔ u ≠ v ∧ m.Touch u v := by
  rw [← length_rowsOf] at hu
  have hmem : ∀ v, v ∈ (rowsOf m)[u] ↔ u ≠ v ∧ m.Touch u v := by
    intro v
    rw [← mem_rowsOf, List.getElem?_eq_getElem hu]
    simp
  exact ⟨_, neighbours_ofRows hu, sorted_of_mem_rowsOf (List.getElem_mem hu),
    fun hself => ((hmem u).1 hself).1 rfl, hmem⟩

/-- Adjacency of elements has no direction. -/
theorem adjacent_symm (h : (ofRows (rowsOf m)).Adjacent u v) :
    (ofRows (rowsOf m)).Adjacent v u := by
  obtain ⟨hne, htouch⟩ := adjacent_rowsOf.1 h
  exact adjacent_rowsOf.2 ⟨hne.symm, htouch.symm⟩

/-- The dual graph of a mesh exists, filled row by row or not, and has the elements as its vertices.
It is well formed. The row of an element is ascending and holds the other elements that share a node
with it, so that adjacency has no direction. The edges are the adjacent pairs in ascending order,
each listed once and all in lexicographic order, and there are half as many as entries of the
rows. -/
theorem fill_adjacency (m : Mesh) : ∃ g, fill m (Incidence.ofMesh m) = .ok g ∧
    ofMesh m (Incidence.ofMesh m) = .ok g ∧
    g.vertexCount = m.elementCount ∧ g.Compressed m.elementCount ∧
    (∀ u < m.elementCount, ∃ row, g.neighbours u = .ok row ∧ row.Pairwise (· < ·) ∧ u ∉ row ∧
      ∀ v, v ∈ row ↔ u ≠ v ∧ m.Touch u v) ∧
    (∀ u v, g.Adjacent u v → g.Adjacent v u) ∧
    ∃ edges, g.edges = .ok edges ∧ edges.Pairwise (Prod.Lex (· < ·) (· < ·)) ∧ edges.Nodup ∧
      (∀ u v, (u, v) ∈ edges ↔ u < v ∧ g.Adjacent u v) ∧
      g.targets.length = 2 * edges.length ∧ g.edgeCount = edges.length := by
  have hcompressed := compressed_ofRows (rowsOf m)
  rw [length_rowsOf] at hcompressed
  have hsorted : ∀ row ∈ rowsOf m, row.Pairwise (· < ·) := fun _ => sorted_of_mem_rowsOf
  have hloops : ∀ u, ¬ (ofRows (rowsOf m)).Adjacent u u := fun u h => (adjacent_rowsOf.1 h).1 rfl
  have htwice := length_targets_eq_two_mul hsorted (fun _ _ => adjacent_symm) hloops
  refine ⟨_, fill_eq_ok m, ofMesh_eq_ok m, ?_, hcompressed, fun u => exists_neighbours_rowsOf,
    fun u v => adjacent_symm, _, edges_ofRows _, sorted_edgeList hsorted, nodup_edgeList hsorted,
    fun u v => mem_edgeList_iff_adjacent, htwice, ?_⟩
  · rw [vertexCount_ofRows, length_rowsOf]
  · rw [edgeCount, htwice]
    exact Nat.mul_div_cancel_left _ Nat.two_pos

end DualGraph

end MeshPartition
