import MeshPartition.Proofs.Counting
import MeshPartition.Proofs.Partitioner
import MeshPartition.Proofs.Run.Stages
import MeshPartition.Proofs.Shape

/-!
# The edges that a partitioner cuts

A partitioner of the library that succeeds gives each element of the mesh to one of the parts that
it was asked for, and its edge cut is the number of pairs of elements that share a node and lie in
different parts (`Partitioner.builtIn_partition_edgeCut`).

The pairs are counted on the dual graph, edge by edge. That each pair is counted once is due to the
order of the edges: a list in lexicographic order has no repeats (`DualGraph.edgeCut_rowsOf`). The
classification of the nodes goes another way, from each node to the parts of its elements. Both see
the same thing: a pair is cut exactly if two parts meet at a node that its elements share
(`Mesh.exists_isCut_iff`).
-/

namespace MeshPartition

namespace Mesh

variable {m : Mesh} {a : Assignment} {u v : ℕ}

/-- Two elements in the order of their positions share a node but lie in different parts. -/
def IsCut (m : Mesh) (a : Assignment) (u v : ℕ) : Prop :=
  u < v ∧ m.Touch u v ∧ ∃ p q, a.parts[u]? = some p ∧ a.parts[v]? = some q ∧ p ≠ q

/-- Elements share a node if one node is in both. -/
theorem touch_iff : m.Touch u v ↔ ∃ n, m.Contains u n ∧ m.Contains v n := by
  constructor
  · rintro ⟨eu, ev, n, heu, hev, hu, hv⟩
    exact ⟨n, ⟨eu, heu, hu⟩, ev, hev, hv⟩
  · rintro ⟨n, ⟨eu, heu, hu⟩, ev, hev, hv⟩
    exact ⟨eu, ev, n, heu, hev, hu, hv⟩

/-- Some pair of elements is cut exactly if different parts meet at some node. -/
theorem exists_isCut_iff : (∃ u v, m.IsCut a u v) ↔
    ∃ n p q, p ∈ m.incidentParts a n ∧ q ∈ m.incidentParts a n ∧ p ≠ q := by
  constructor
  · rintro ⟨u, v, -, htouch, p, q, hp, hq, hne⟩
    obtain ⟨n, hu, hv⟩ := touch_iff.1 htouch
    exact ⟨n, p, q, mem_incidentParts.2 ⟨u, hu, hp⟩, mem_incidentParts.2 ⟨v, hv, hq⟩, hne⟩
  · rintro ⟨n, p, q, hp, hq, hne⟩
    obtain ⟨u, hu, hpu⟩ := mem_incidentParts.1 hp
    obtain ⟨v, hv, hqv⟩ := mem_incidentParts.1 hq
    -- Elements in different parts are different, so one of them comes first.
    rcases Nat.lt_trichotomy u v with huv | rfl | hvu
    · exact ⟨u, v, huv, touch_iff.2 ⟨n, hu, hv⟩, p, q, hpu, hqv, hne⟩
    · exact absurd (Option.some.inj (hpu.symm.trans hqv)) hne
    · exact ⟨v, u, hvu, touch_iff.2 ⟨n, hv, hu⟩, q, p, hqv, hpu, hne.symm⟩

end Mesh

/-- No pair of elements is cut exactly if no node has two parts in the classification. -/
theorem Classification.size_lt_two_iff {m : Mesh} {a : Assignment} {c : Classification}
    (h : ofAssignment (Incidence.ofMesh m) a = .ok c) :
    (∀ s ∈ c.partitions, s.size < 2) ↔ ¬ ∃ u v, m.IsCut a u v := by
  obtain ⟨-, rfl⟩ := ofAssignment_eq_ok_iff.1 h
  rw [Mesh.exists_isCut_iff, List.forall_mem_map]
  constructor
  · rintro hsizes ⟨n, p, q, hp, hq, hne⟩
    have hn : n ∈ List.range (Incidence.ofMesh m).size := by
      rw [List.mem_range, Incidence.size_ofMesh]
      exact Mesh.lt_of_mem_incidentParts hp
    refine Nat.not_lt.2 (IndexSet.one_lt_size_iff.2 ⟨p, q, ?_, ?_, hne⟩) (hsizes n hn)
    · exact Incidence.mem_partSet_ofMesh.2 hp
    · exact Incidence.mem_partSet_ofMesh.2 hq
  · intro hnone n _
    by_contra hsize
    obtain ⟨p, q, hp, hq, hne⟩ := IndexSet.one_lt_size_iff.1 (Nat.not_lt.1 hsize)
    exact hnone ⟨n, p, q, Incidence.mem_partSet_ofMesh.1 hp, Incidence.mem_partSet_ofMesh.1 hq, hne⟩

namespace DualGraph

variable {m : Mesh} {a : Assignment}

/-- The pairs of elements that are cut are the edges whose ends have different entries. -/
theorem isCut_iff (hsize : a.size = m.elementCount) {x : ℕ × ℕ} : m.IsCut a x.1 x.2 ↔
    x ∈ (edgeList (rowsOf m)).filter fun x => decide (a.parts[x.1]? ≠ a.parts[x.2]?) := by
  obtain ⟨u, v⟩ := x
  rw [List.mem_filter, mem_edgeList, mem_rowsOf, decide_eq_true_eq]
  constructor
  · rintro ⟨hlt, htouch, p, q, hp, hq, hne⟩
    refine ⟨⟨hlt, hlt.ne, htouch⟩, fun heq => hne ?_⟩
    exact Option.some.inj (hp.symm.trans (heq.trans hq))
  · rintro ⟨⟨hlt, -, htouch⟩, hne⟩
    obtain ⟨eu, ev, -, heu, hev, -⟩ := id htouch
    have hu : u < a.parts.length := (List.getElem?_eq_some_iff.1 heu).1.trans_eq hsize.symm
    have hv : v < a.parts.length := (List.getElem?_eq_some_iff.1 hev).1.trans_eq hsize.symm
    refine ⟨hlt, htouch, _, _, List.getElem?_eq_getElem hu, List.getElem?_eq_getElem hv, ?_⟩
    exact fun heq => hne (by
      rw [List.getElem?_eq_getElem hu, List.getElem?_eq_getElem hv, heq])

/-- Cut pairs of elements are finitely many. -/
theorem finite_isCut (hsize : a.size = m.elementCount) :
    {x : ℕ × ℕ | m.IsCut a x.1 x.2}.Finite :=
  (List.finite_toSet _).subset fun _ hx => (isCut_iff hsize).1 hx

/-- The edge cut of the dual graph is the number of pairs of elements that are cut. -/
theorem edgeCut_rowsOf (hsize : a.size = m.elementCount) :
    (ofRows (rowsOf m)).edgeCut a = .ok {x : ℕ × ℕ | m.IsCut a x.1 x.2}.ncard := by
  have hnodup : (edgeList (rowsOf m)).Nodup := nodup_edgeList fun _ => sorted_of_mem_rowsOf
  have hpairs : {x : ℕ × ℕ | m.IsCut a x.1 x.2} = {x | x ∈ (edgeList (rowsOf m)).filter
      fun x => decide (a.parts[x.1]? ≠ a.parts[x.2]?)} := Set.ext fun x => isCut_iff hsize
  rw [edgeCut_rowsOf_eq_countP hsize, hpairs, ncard_setOf_mem (hnodup.filter _),
    List.countP_eq_length_filter]

end DualGraph

namespace Partitioner

/-- If a partitioner of the library succeeds on the dual graph of a mesh, it has given each element
to one of the parts that it was asked for. Its edge cut is the number of pairs of elements that
share a node and lie in different parts; it is zero exactly if the classification of the nodes has
no set of two or more parts. -/
theorem builtIn_partition_edgeCut {partitioner : Partitioner} (h : partitioner.BuiltIn) (m : Mesh)
    (k : ℕ) : ∃ graph, DualGraph.ofMesh m (Incidence.ofMesh m) = .ok graph ∧
      ∀ outcome, partitioner.partition graph k = .ok outcome →
        outcome.assignment.size = m.elementCount ∧
        (∀ q ∈ outcome.assignment.parts, q < k) ∧ outcome.assignment.partCount = k ∧
        (∀ config : Config, config.partCount = k →
          m.checkShape partitioner.name config outcome.assignment = .ok ()) ∧
        outcome.edgeCut = {x : ℕ × ℕ | m.IsCut outcome.assignment x.1 x.2}.ncard ∧
        ∃ classified,
          Classification.ofAssignment (Incidence.ofMesh m) outcome.assignment = .ok classified ∧
            (outcome.edgeCut = 0 ↔ ∀ s ∈ classified.partitions, s.size < 2) := by
  refine ⟨_, DualGraph.ofMesh_eq_ok m, fun outcome hok => ?_⟩
  obtain ⟨parts, hlength, hparts, hcut⟩ := h.exists_parts hok
  obtain ⟨hpos, hrange, hassignment⟩ := Assignment.ofParts_eq_ok_iff.1 hparts
  have hsize : outcome.assignment.size = m.elementCount := by
    rw [hassignment]
    exact hlength.trans (by rw [DualGraph.vertexCount_ofRows, DualGraph.length_rowsOf])
  have hcount : outcome.assignment.partCount = k := by rw [hassignment]
  have hedgeCut : outcome.edgeCut = {x : ℕ × ℕ | m.IsCut outcome.assignment x.1 x.2}.ncard := by
    rcases hcut with hcut | ⟨rfl, hzero⟩
    · exact Except.ok.inj (hcut.symm.trans (DualGraph.edgeCut_rowsOf hsize))
    · -- There is one part only, so that no two elements lie in different ones.
      rw [hzero, eq_comm, Set.ncard_eq_zero (DualGraph.finite_isCut hsize),
        Set.eq_empty_iff_forall_notMem]
      rintro x ⟨-, -, p, q, hp, hq, hne⟩
      have hp' := hrange p (List.mem_of_getElem? hp)
      have hq' := hrange q (List.mem_of_getElem? hq)
      omega
  refine ⟨hsize, fun q hq => hcount ▸ hrange q hq, hcount, fun config hconfig => ?_, hedgeCut, ?_⟩
  · exact Mesh.checkShape_eq_ok_iff.2 ⟨hsize, hcount.trans hconfig.symm⟩
  · obtain ⟨classified, hclassified, -⟩ := Classification.exists_ofAssignment hsize
    refine ⟨classified, hclassified, ?_⟩
    rw [Classification.size_lt_two_iff hclassified, hedgeCut,
      Set.ncard_eq_zero (DualGraph.finite_isCut hsize), Set.eq_empty_iff_forall_notMem]
    exact ⟨fun hnone ⟨u, v, hcut⟩ => hnone (u, v) hcut, fun hnone x hcut => hnone ⟨_, _, hcut⟩⟩

/-- Three elements that share a node, two of which share another one, and an element apart. -/
def fan : Mesh where
  nodes := [⟨.nth 0, none⟩, ⟨.nth 1, none⟩, ⟨.nth 2, none⟩, ⟨.nth 3, none⟩, ⟨.nth 4, none⟩]
  elements := [⟨.nth 0, [0, 1, 0]⟩, ⟨.nth 1, [1, 0, 2]⟩, ⟨.nth 2, [0, 3]⟩, ⟨.nth 3, [4]⟩]
  nodeIds_nodup := by decide
  elementIds_nodup := by decide
  node_lt := by decide

/-- The dual graph of `fan`. -/
def fanGraph : DualGraph := ⟨[0, 2, 4, 6, 6], [1, 2, 0, 2, 0, 1]⟩

/-- The dual graph exists. -/
theorem ofMesh_fan : DualGraph.ofMesh fan (Incidence.ofMesh fan) = .ok fanGraph := by
  rfl

/-- A list made by hand and equal blocks cut two pairs each, at the node that is common to three
elements. With a single part nothing is cut. -/
theorem builtIn_partition_edgeCut_fan :
    ((Partitioner.manual [0, 1, 1, 0]).partition fanGraph 2 = .ok ⟨2, ⟨[0, 1, 1, 0], 2⟩⟩ ∧
      {x : ℕ × ℕ | fan.IsCut ⟨[0, 1, 1, 0], 2⟩ x.1 x.2}.ncard = 2) ∧
    (Partitioner.block.partition fanGraph 2 = .ok ⟨2, ⟨[0, 0, 1, 1], 2⟩⟩ ∧
      {x : ℕ × ℕ | fan.IsCut ⟨[0, 0, 1, 1], 2⟩ x.1 x.2}.ncard = 2) ∧
    Partitioner.metis.partition fanGraph 1 = .ok ⟨0, ⟨[0, 0, 0, 0], 1⟩⟩ ∧
      ∃ classified, Classification.ofAssignment (Incidence.ofMesh fan) ⟨[0, 0, 0, 0], 1⟩ =
        .ok classified ∧ ∀ s ∈ classified.partitions, s.size < 2 := by
  refine ⟨⟨rfl, ?_⟩, ⟨rfl, ?_⟩, rfl, ?_⟩
  · obtain ⟨graph, hgraph, hall⟩ := builtIn_partition_edgeCut (.manual [0, 1, 1, 0]) fan 2
    obtain rfl := Except.ok.inj (hgraph.symm.trans ofMesh_fan)
    obtain ⟨-, -, -, -, hcut, -⟩ := hall ⟨2, ⟨[0, 1, 1, 0], 2⟩⟩ rfl
    exact hcut.symm
  · obtain ⟨graph, hgraph, hall⟩ := builtIn_partition_edgeCut .block fan 2
    obtain rfl := Except.ok.inj (hgraph.symm.trans ofMesh_fan)
    obtain ⟨-, -, -, -, hcut, -⟩ := hall ⟨2, ⟨[0, 0, 1, 1], 2⟩⟩ rfl
    exact hcut.symm
  · obtain ⟨graph, hgraph, hall⟩ := builtIn_partition_edgeCut .metis fan 1
    obtain rfl := Except.ok.inj (hgraph.symm.trans ofMesh_fan)
    obtain ⟨-, -, -, -, -, classified, hclassified, hzero⟩ := hall ⟨0, ⟨[0, 0, 0, 0], 1⟩⟩ rfl
    exact ⟨classified, hclassified, hzero.1 rfl⟩

end Partitioner

end MeshPartition
