import MeshPartition.Proofs.Run.Shape
import MeshPartition.Proofs.Run.Warnings

/-!
# More dependencies give more access

A node with more masters may ask for less when it is visited: the masters may already be reached
from all its parts. Nevertheless nothing is lost on the whole. `propagate_mono_masters` compares two
tables of dependencies, one of which has at least the masters of the other. Over the larger one each
node is reached from at least the same parts, in either mode, and each part lists the same local
nodes and at least the same shared ones. `Mesh.exists_partition_mono_masters` says so for runs.
-/

namespace MeshPartition

namespace Mesh

variable {m m' : Mesh} {deps deps' : DependencyTable} {partitioner : Partitioner} {config : Config}
  {run : Run}

/-- A run on a mesh of the same shape with more masters succeeds as well. It reaches each node from
at least the same parts, and its lists have the same local nodes and at least the same shared
nodes. -/
theorem exists_partition_mono_masters (h : m.SameShape m') (hdeps : m.resolveAll = .ok deps)
    (hdeps' : m'.resolveAll = .ok deps') (hsub : ∀ s, deps.mastersOf s ⊆ deps'.mastersOf s)
    (hrun : (m.partition partitioner config).result = .ok run) :
    ∃ run', (m'.partition partitioner config).result = .ok run' ∧
      run'.assignment = run.assignment ∧ (∀ n, run.closedParts n ⊆ run'.closedParts n) ∧
      ∀ p < config.partCount, ∃ l l', run.partitions[p]? = some l ∧
        run'.partitions[p]? = some l' ∧ l.localNodes = l'.localNodes ∧
        l.sharedNodes.keys ⊆ l'.sharedNodes.keys := by
  obtain ⟨st⟩ := exists_stages hrun
  obtain rfl := Except.ok.inj (hdeps.symm.trans st.resolveAll_eq)
  obtain ⟨hsize, hsets⟩ := Classification.sizes_of_propagate st.propagate_eq
  have hsize' : deps'.size = st.classified.size := by
    rw [← hsize, size_of_resolveAll hdeps, size_of_resolveAll hdeps', h.nodeCount_eq]
  obtain ⟨report, closed, hclosed⟩ := Classification.exists_propagate hsize' hsets config.closure
  obtain ⟨lists, ⟨st'⟩⟩ := exists_stages_of_propagate (h.graph_eq ▸ st.graph_eq)
    (h.answers st.answers) hdeps' (h.incidence_eq ▸ st.ofAssignment_eq) hclosed
  obtain rfl := Except.ok.inj (st'.resolveAll_eq.symm.trans hdeps')
  have hle := Classification.entry_le_of_propagate st.propagate_eq hclosed hsub
  have hparts : ∀ n, run.closedParts n ⊆
      Run.closedParts ⟨run.edgeCut, run.assignment, closed, report, lists⟩ n := fun n => by
    rw [st.closedParts_eq, st'.closedParts_eq]
    exact Access.partitions_subset (hle n)
  refine ⟨_, st'.result_eq, rfl, hparts, fun p hp => ?_⟩
  obtain ⟨l, hl, hheld⟩ := st.exists_list hp
  obtain ⟨l', hl', hheld'⟩ := st'.exists_list hp
  exact ⟨l, l', hl, hl', Context.lists_mono_of_sameShape h hsub hparts st.ofTables_eq
    st'.ofTables_eq hheld hheld'⟩

end Mesh

namespace Classification

/-- With more masters, closing leaves each node with at least the parts, and shared if it was. The
lists that are built from what it leaves, over the same elements, have the same local nodes and at
least the same shared nodes. -/
theorem propagate_mono_masters (c : Classification) (deps deps' : DependencyTable)
    (hdeps : deps.size = c.size) (hdeps' : deps'.size = c.size)
    (hsets : c.partitions.length = c.size) (hsub : ∀ s, deps.mastersOf s ⊆ deps'.mastersOf s)
    (mode : ClosureMode) :
    ∃ report closed report' closed', c.propagate deps mode = .ok (report, closed) ∧
      c.propagate deps' mode = .ok (report', closed') ∧
      (∀ n, (closed.entry n).partitions ⊆ (closed'.entry n).partitions) ∧
      (∀ n, (closed.entry n).status = .shared → (closed'.entry n).status = .shared) ∧
      ∀ (m m' : Mesh) (a : Assignment), m.SameShape m' → m.nodeCount = c.size →
        a.size = m.elementCount →
        ∃ ctx ctx', Context.ofTables m (Incidence.ofMesh m) a closed deps = .ok ctx ∧
          Context.ofTables m' (Incidence.ofMesh m') a closed' deps' = .ok ctx' ∧
          ∀ p, ∃ l l', ctx.nodeList p = .ok l ∧ ctx'.nodeList p = .ok l' ∧
            l.localNodes = l'.localNodes ∧ l.sharedNodes.keys ⊆ l'.sharedNodes.keys := by
  obtain ⟨report, closed, hclosed⟩ := exists_propagate hdeps hsets mode
  obtain ⟨report', closed', hclosed'⟩ := exists_propagate hdeps' hsets mode
  have hle := entry_le_of_propagate hclosed hclosed' hsub
  obtain ⟨hsize, hparts, -⟩ := propagate_eq_ok hclosed
  obtain ⟨hsize', hparts', -⟩ := propagate_eq_ok hclosed'
  refine ⟨report, closed, report', closed', hclosed, hclosed',
    fun n => Access.partitions_subset (hle n), fun n => Access.shared_of_le (hle n),
    fun m m' a hshape hnodes ha => ?_⟩
  have hnodes' : m'.nodeCount = c.size := hshape.nodeCount_eq.symm.trans hnodes
  obtain ⟨ctx, hctx⟩ := Context.exists_ofTables ha (hsize.trans hnodes.symm)
    (hparts.trans hnodes.symm) (hdeps.trans hnodes.symm)
  obtain ⟨ctx', hctx'⟩ := Context.exists_ofTables (ha.trans hshape.elementCount_eq)
    (hsize'.trans hnodes'.symm) (hparts'.trans hnodes'.symm) (hdeps'.trans hnodes'.symm)
  refine ⟨ctx, ctx', hctx, hctx', fun p => ?_⟩
  obtain ⟨l, hl, hheld⟩ := ctx.exists_nodeList p
  obtain ⟨l', hl', hheld'⟩ := ctx'.exists_nodeList p
  refine ⟨l, l', hl, hl', Context.lists_mono_of_sameShape hshape hsub (fun n => ?_) hctx hctx'
    hheld hheld'⟩
  rw [getD_partitions (hparts.trans hsize.symm), getD_partitions (hparts'.trans hsize'.symm)]
  exact Access.partitions_subset (hle n)

/-- The first arm of the chain alone. -/
def oneArmDependencies : DependencyTable where
  entries := [none, some ⟨.rigidArm, [0]⟩, none]
  master_lt := by simp

end Classification

/-- The nodes and elements of `armChain` with the first arm alone. -/
def Mesh.oneArm : Mesh where
  nodes := [⟨.nth 0, none⟩, ⟨.nth 1, some (.rigidArm [.nth 0])⟩, ⟨.nth 2, none⟩]
  elements := armChain.elements
  nodeIds_nodup := by decide
  elementIds_nodup := armChain.elementIds_nodup
  node_lt := armChain.node_lt

namespace Classification

open Mesh (oneArm armChain)

/-- The second arm takes the last part to both other nodes. Its list had no shared nodes without
it, and it has both with it. -/
theorem propagate_mono_masters_arm :
    oneArmDependencies.size = threeParts.size ∧ chainDependencies.size = threeParts.size ∧
      threeParts.partitions.length = threeParts.size ∧
      (∀ s, oneArmDependencies.mastersOf s ⊆ chainDependencies.mastersOf s) ∧
      oneArm.SameShape armChain ∧ oneArm.resolveAll = .ok oneArmDependencies ∧
      armChain.resolveAll = .ok chainDependencies ∧
      ∃ closed closed' ctx ctx' l l',
        threeParts.propagate oneArmDependencies .fixedPoint = .ok (⟨.fixedPoint, 2, true⟩, closed) ∧
        threeParts.propagate chainDependencies .fixedPoint = .ok (⟨.fixedPoint, 3, true⟩, closed') ∧
        (∀ n, (closed.entry n).partitions ⊆ (closed'.entry n).partitions) ∧
        2 ∉ (closed.entry 0).partitions ∧ 2 ∈ (closed'.entry 0).partitions ∧
        Context.ofTables oneArm (Incidence.ofMesh oneArm) ⟨[0, 1, 2], 3⟩ closed
          oneArmDependencies = .ok ctx ∧
        Context.ofTables armChain (Incidence.ofMesh armChain) ⟨[0, 1, 2], 3⟩ closed'
          chainDependencies = .ok ctx' ∧
        ctx.nodeList 2 = .ok l ∧ ctx'.nodeList 2 = .ok l' ∧ l.localNodes = l'.localNodes ∧
        l.sharedNodes.keys ⊆ l'.sharedNodes.keys ∧
        l.sharedNodes.keys = ∅ ∧ l'.sharedNodes.keys = IndexSet.ofList [0, 1] := by
  have hsub : ∀ s, oneArmDependencies.mastersOf s ⊆ chainDependencies.mastersOf s := by
    intro s
    match s with
    | 0 | 1 => exact List.Subset.refl _
    | 2 => exact List.nil_subset _
    | s + 3 => exact List.Subset.refl _
  have hshape : oneArm.SameShape armChain := ⟨rfl, rfl, fun _ _ => Iff.rfl⟩
  obtain ⟨report, closed, report', closed', hclosed, hclosed', hsets, -, hlists⟩ :=
    propagate_mono_masters threeParts oneArmDependencies chainDependencies rfl rfl rfl hsub
      .fixedPoint
  obtain ⟨ctx, ctx', hctx, hctx', hlist⟩ :=
    hlists oneArm armChain ⟨[0, 1, 2], 3⟩ hshape rfl rfl
  obtain ⟨l, l', hl, hl', hlocal, hshared⟩ := hlist 2
  have hrun : threeParts.propagate oneArmDependencies .fixedPoint = .ok (⟨.fixedPoint, 2, true⟩,
      ⟨[.shared, .localOnly, .localOnly],
        [IndexSet.ofList [0, 1], IndexSet.ofList [1], IndexSet.ofList [2]]⟩) := by rfl
  have hrun' : threeParts.propagate chainDependencies .fixedPoint = .ok (⟨.fixedPoint, 3, true⟩,
      ⟨[.shared, .shared, .localOnly],
        [IndexSet.ofList [0, 1, 2], IndexSet.ofList [1, 2], IndexSet.ofList [2]]⟩) := by rfl
  obtain ⟨rfl, rfl⟩ := Prod.mk.inj (Except.ok.inj (hclosed.symm.trans hrun))
  obtain ⟨rfl, rfl⟩ := Prod.mk.inj (Except.ok.inj (hclosed'.symm.trans hrun'))
  -- The contexts and their lists are evaluated.
  have halone : ctx.nodeList 2 = .ok ⟨2, [2], IndexSet.ofList [2], ∅⟩ := by
    obtain rfl := Except.ok.inj hctx
    rfl
  have hboth : ctx'.nodeList 2 = .ok ⟨2, [2], IndexSet.ofList [2],
      IndexMap.ofList [(0, IndexSet.ofList [0]), (1, IndexSet.ofList [1])]⟩ := by
    obtain rfl := Except.ok.inj hctx'
    rfl
  obtain rfl := Except.ok.inj (hl.symm.trans halone)
  obtain rfl := Except.ok.inj (hl'.symm.trans hboth)
  exact ⟨rfl, rfl, rfl, hsub, hshape, rfl, rfl, _, _, ctx, ctx', _, _, hclosed, hclosed', hsets,
    by decide, by decide, hctx, hctx', hl, hl', hlocal, hshared, rfl, rfl⟩

end Classification

end MeshPartition
