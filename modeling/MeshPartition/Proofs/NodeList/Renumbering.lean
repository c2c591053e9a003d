import MeshPartition.Proofs.NodeList.Membership
import Mathlib.Data.List.Permutation
import Mathlib.Data.Set.Function
import Mathlib.Order.Interval.Set.Defs

/-!
# The numbers of nodes within a part

The nodes of a list are numbered from `1` in ascending order. The numbering has no gaps as long as
local and shared nodes are apart (`NodeList.Apart`), since a node listed as both would use up two
numbers and keep the second. Then the node at place `i` of the listed nodes has the number `i + 1`
(`Apart.number_getElem`), from which the rest follows.

`Context.exists_nodeList_numbered` says that every list built by a `Context` is numbered in this
way. The tables of the context only have to be of the right sizes: they may come from different
meshes, and the parts of the assignment and of the classification may be past the part count, as may
the part whose list is built.
-/

namespace MeshPartition

namespace NodeList

variable {l : NodeList} {n k : ℕ}

/-- No node is local and shared at once. -/
def Apart (l : NodeList) : Prop := ∀ n ∈ l.localNodes, n ∉ l.sharedNodes.keys

/-- The number of a listed node within the part; for other nodes, `0`. -/
def number (l : NodeList) (n : ℕ) : ℕ := (l.renumbering.find? n).getD 0

/-- The listed nodes are the local and the shared ones. -/
theorem mem_listed : n ∈ l.listed ↔ l.isAccessible n = true := by
  rw [listed, List.mem_mergeSort, List.mem_append, isAccessible_iff]
  rfl

/-- Every entry of a list is numbered. -/
theorem length_listed (l : NodeList) : l.listed.length = l.nodeCount := by
  rw [listed, List.length_mergeSort, List.length_append]
  congr 1
  exact List.length_map _

/-- If local and shared nodes are apart, no node is listed twice. -/
theorem Apart.nodup_listed (h : l.Apart) : l.listed.Nodup := by
  rw [listed, (List.mergeSort_perm _ _).nodup_iff, List.nodup_append]
  refine ⟨?_, ?_, fun a ha b hb hab => ?_⟩
  · exact l.localNodes.sorted.imp Nat.ne_of_lt
  · exact l.sharedNodes.sorted.imp Nat.ne_of_lt
  · subst hab
    exact h a ha hb

/-- If local and shared nodes are apart, the listed nodes ascend. -/
theorem Apart.sorted_listed (h : l.Apart) : l.listed.Pairwise (· < ·) := by
  have hle : l.listed.Pairwise (· ≤ ·) := by
    have hsorted := @List.pairwise_mergeSort ℕ (fun a b => decide (a ≤ b))
      (fun a b c hab hbc => by simp at *; omega) (fun a b => by simp; omega)
      (l.localNodes.toList ++ l.sharedNodes.keys.toList)
    exact hsorted.imp of_decide_eq_true
  exact (hle.and h.nodup_listed).imp fun hab => Nat.lt_of_le_of_ne hab.1 hab.2

/-- The number of a node is its place among the listed nodes, counted from `1`. -/
theorem Apart.find?_renumbering (h : l.Apart) :
    l.renumbering.find? n = some k ↔ 1 ≤ k ∧ l.listed[k - 1]? = some n := by
  rw [renumbering, IndexMap.find?_ofList, List.mk_mem_zipIdx_iff_le_and_getElem?_sub]
  rw [List.zipIdx_map_fst]
  exact h.nodup_listed

/-- The node at a place has the number of the place. -/
theorem Apart.number_getElem (h : l.Apart) {i : ℕ} (hi : i < l.listed.length) :
    l.number l.listed[i] = i + 1 := by
  have hfind : l.renumbering.find? l.listed[i] = some (i + 1) :=
    h.find?_renumbering.2 ⟨Nat.le_add_left 1 i, List.getElem?_eq_getElem hi⟩
  rw [number, hfind]
  rfl

/-- Each listed node has a place. -/
theorem exists_getElem_listed (hn : l.isAccessible n = true) :
    ∃ (i : ℕ) (hi : i < l.listed.length), l.listed[i] = n :=
  List.mem_iff_getElem.1 (mem_listed.2 hn)

/-- Exactly the listed nodes have numbers. -/
theorem Apart.mem_keys_renumbering (h : l.Apart) :
    n ∈ l.renumbering.keys ↔ l.isAccessible n = true := by
  rw [IndexMap.mem_keys, Option.isSome_iff_exists]
  constructor
  · rintro ⟨k, hk⟩
    exact mem_listed.1 (List.mem_of_getElem? (h.find?_renumbering.1 hk).2)
  · intro hn
    obtain ⟨i, hi, rfl⟩ := exists_getElem_listed hn
    exact ⟨i + 1, h.find?_renumbering.2 ⟨Nat.le_add_left 1 i, List.getElem?_eq_getElem hi⟩⟩

/-- Numbers ascend with the nodes. -/
theorem Apart.strictMonoOn_number (h : l.Apart) :
    StrictMonoOn l.number {n | l.isAccessible n = true} := by
  intro n hn n' hn' hlt
  obtain ⟨i, hi, rfl⟩ := exists_getElem_listed hn
  obtain ⟨j, hj, rfl⟩ := exists_getElem_listed hn'
  rw [h.number_getElem hi, h.number_getElem hj]
  -- Places that are not in order would hold nodes that are not in order.
  rcases Nat.lt_trichotomy i j with hij | rfl | hji
  · exact Nat.succ_lt_succ hij
  · exact absurd hlt (Nat.lt_irrefl _)
  · exact absurd hlt (Nat.lt_asymm (List.pairwise_iff_getElem.1 h.sorted_listed j i hj hi hji))

/-- The numbers are those from `1` to the number of entries. -/
theorem Apart.bijOn_number (h : l.Apart) :
    Set.BijOn l.number {n | l.isAccessible n = true} (Set.Icc 1 l.nodeCount) := by
  refine ⟨fun n hn => ?_, h.strictMonoOn_number.injOn, fun k hk => ?_⟩
  · obtain ⟨i, hi, rfl⟩ := exists_getElem_listed hn
    rw [h.number_getElem hi]
    rw [length_listed] at hi
    exact ⟨Nat.le_add_left 1 i, hi⟩
  · -- The node with number `k` is the one at place `k - 1`.
    obtain ⟨hpos, hle⟩ := hk
    obtain ⟨i, rfl⟩ : ∃ i, k = i + 1 := ⟨k - 1, by omega⟩
    rw [← length_listed] at hle
    exact ⟨l.listed[i], mem_listed.1 (List.getElem_mem hle), h.number_getElem hle⟩

end NodeList

namespace Context

variable {ctx : Context} {p n : ℕ}

/-- A part needs only nodes of the mesh. -/
theorem lt_of_isNeeded (h : ctx.IsNeeded p n) : n < ctx.mesh.nodeCount := by
  have hfits := ctx.dependencies.fits_links
  rw [ctx.dependencies_size] at hfits
  rcases h with hown | ⟨s, hlink, -⟩ | ⟨m, hlink, -⟩ | hclosed
  · exact Mesh.lt_of_mem_incidentParts hown
  · exact (hfits ⟨s, n⟩ (DependencyTable.mem_links.2 hlink)).2
  · exact (hfits ⟨n, m⟩ (DependencyTable.mem_links.2 hlink)).1
  · -- Past the sets of the classification there are no parts.
    rw [← ctx.partitions_length]
    by_contra hlt
    rw [List.getElem?_eq_none (Nat.le_of_not_lt hlt)] at hclosed
    exact IndexSet.not_mem_empty p hclosed

/-- In the list of a part local and shared nodes are apart. -/
theorem Lists.apart {given : ℕ → Prop} {l : NodeList} (h : ctx.Lists p given l) : l.Apart := by
  intro n hlocal hshared
  exact ((h.mem_sharedNodes n).1 hshared).2 ((h.mem_localNodes n).1 hlocal)

/-- Whenever tables are of the sizes of a mesh, the list of every part can be built from them. It
lists nodes of the mesh, none of them twice, and its numbers ascend with the nodes from `1` to the
number of listed nodes. -/
theorem exists_nodeList_numbered {m : Mesh} {inc : Incidence} {a : Assignment} {c : Classification}
    {deps : DependencyTable} (h : ofTables m inc a c deps = .ok ctx) (p : ℕ) :
    ∃ l, ctx.nodeList p = .ok l ∧
      (∀ n, ¬ (l.isLocal n = true ∧ l.isShared n = true)) ∧
      (∀ n, l.isAccessible n = true → n < m.nodeCount) ∧
      (∀ n, n ∈ l.renumbering.keys ↔ l.isAccessible n = true) ∧
      StrictMonoOn l.number {n | l.isAccessible n = true} ∧
      Set.BijOn l.number {n | l.isAccessible n = true} (Set.Icc 1 l.nodeCount) := by
  obtain ⟨l, hl, hlists⟩ := ctx.exists_nodeList p
  have hapart := hlists.apart
  refine ⟨l, hl, fun n hn => ?_, fun n hn => ?_, fun n => hapart.mem_keys_renumbering,
    hapart.strictMonoOn_number, hapart.bijOn_number⟩
  · exact hapart n (of_decide_eq_true hn.1) (of_decide_eq_true hn.2)
  · have hneeded := (hlists.listed_iff fun hinner => Or.inl hinner.1).1
      (NodeList.isAccessible_iff.1 hn)
    rw [← (eq_of_ofTables h).1]
    exact lt_of_isNeeded hneeded

/-- Two segments that meet at node `2`; node `1` lies apart. -/
def segments : Mesh where
  nodes := [⟨⟨10, by decide, by decide⟩, none⟩, ⟨⟨20, by decide, by decide⟩, none⟩,
    ⟨⟨30, by decide, by decide⟩, none⟩, ⟨⟨40, by decide, by decide⟩, none⟩]
  elements := [⟨⟨10, by decide, by decide⟩, [0, 2]⟩, ⟨⟨20, by decide, by decide⟩, [2, 3]⟩]
  nodeIds_nodup := by decide
  elementIds_nodup := by decide
  node_lt := by decide

/-- Another mesh of the same size, in which node `2` is in no element and depends on node `3`, which
depends on it in turn. -/
def entangled : Mesh where
  nodes := [⟨⟨10, by decide, by decide⟩, none⟩, ⟨⟨20, by decide, by decide⟩, none⟩,
    ⟨⟨30, by decide, by decide⟩, some (.rigidArm [⟨40, by decide, by decide⟩])⟩,
    ⟨⟨40, by decide, by decide⟩,
      some (.explicitMasters [⟨30, by decide, by decide⟩, ⟨10, by decide, by decide⟩])⟩]
  elements := [⟨⟨10, by decide, by decide⟩, [3]⟩, ⟨⟨20, by decide, by decide⟩, [0, 3]⟩]
  nodeIds_nodup := by decide
  elementIds_nodup := by decide
  node_lt := by decide

/-- The mesh `segments` with the incidences and dependencies of `entangled`, an assignment to a part
past the part count, and a classification that fits neither. -/
def mixedContext : Context where
  mesh := segments
  incidence := Incidence.ofMesh entangled
  assignment := ⟨[7, 0], 1⟩
  classification := ⟨[.undefined, .shared, .localOnly, .undefined],
    [IndexSet.ofList [7], ∅, ∅, IndexSet.ofList [5, 7]]⟩
  dependencies := ⟨[none, none, some ⟨.rigidArm, [3]⟩, some ⟨.explicitMasters, [2, 0]⟩], by simp⟩
  incidence_size := rfl
  incidence_elementCount := rfl
  assignment_size := rfl
  classification_size := rfl
  partitions_length := rfl
  dependencies_size := rfl

/-- From mixed-up tables node `2` becomes local to part `7`, since no element is known to contain
it; it is numbered between the shared nodes `0` and `3`. -/
theorem exists_nodeList_numbered_mixed :
    entangled.resolveAll = .ok mixedContext.dependencies ∧
      ofTables segments (Incidence.ofMesh entangled) mixedContext.assignment
        mixedContext.classification mixedContext.dependencies = .ok mixedContext ∧
      ∃ l, mixedContext.nodeList 7 = .ok l ∧ l.localNodes = IndexSet.ofList [2] ∧
        l.sharedNodes.keys = IndexSet.ofList [0, 3] ∧ l.renumbering.find? 3 = some 3 ∧
        Set.BijOn l.number {n | l.isAccessible n = true} (Set.Icc 1 3) := by
  have htables : ofTables segments (Incidence.ofMesh entangled) mixedContext.assignment
      mixedContext.classification mixedContext.dependencies = .ok mixedContext := by rfl
  obtain ⟨l, hl, -, -, -, -, hbij⟩ := exists_nodeList_numbered htables 7
  have hlist : mixedContext.nodeList 7 = .ok ⟨7, [0], IndexSet.ofList [2],
      IndexMap.ofList [(0, IndexSet.ofList [0]), (3, IndexSet.ofList [0])]⟩ := by rfl
  obtain rfl := Except.ok.inj (hl.symm.trans hlist)
  exact ⟨by rfl, htables, _, hl, by decide, by decide, by cbv, hbij⟩

end Context

end MeshPartition
