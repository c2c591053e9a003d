import MeshPartition.Proofs.Run.NodeLists

/-!
# Which nodes are listed at all

After a closure to a fixed point a node is listed by some part for one of two reasons
(`Mesh.partition_fixedPoint_listed_iff`). Either it is reached, along links from slaves to masters,
from a node that an element of the part contains, itself included; or one of its own masters is
local to the part. The parts are thus found from slaves to masters over any number of links, but
from a master to its slave over one link only, and only if all elements of the master lie in one
part.

Hence nodes can be lost. A slave without elements of its own whose masters lie on the boundary
between parts is in no list, although its masters are in several
(`Mesh.not_forall_constrained_listed`).
-/

namespace MeshPartition.Mesh

open Relation (ReflTransGen)

variable {m : Mesh} {partitioner : Partitioner} {config : Config} {run : Run} {p n : ℕ}

namespace Stages

variable (st : m.Stages partitioner config run)

include st

/-- After a closure to a fixed point a node is reached from the parts of all nodes that lead to it
along links. -/
theorem mem_closedParts_iff (hmode : config.closure = .fixedPoint) : p ∈ run.closedParts n ↔
    ∃ s, ReflTransGen (fun s k => k ∈ st.dependencies.mastersOf s) s n ∧
      p ∈ m.incidentParts run.assignment s := by
  have hclosure := Classification.isClosure_of_propagate (hmode ▸ st.propagate_eq)
  rw [st.closedParts_eq, hclosure.mem_partitions]
  simp only [st.mem_classified]

/-- Some list has a node if, for some part, the closed sets give it to the part or it is a slave of
one of the part's inner nodes. -/
theorem exists_isAccessible_iff : (∃ l ∈ run.partitions, l.isAccessible n = true) ↔
    ∃ p < config.partCount, p ∈ run.closedParts n ∨
      ∃ k ∈ st.dependencies.mastersOf n, m.incidentParts run.assignment k = {p} := by
  constructor
  · rintro ⟨l, hl, hn⟩
    obtain ⟨p, hp⟩ := List.getElem?_of_mem hl
    obtain ⟨hlt, hlists⟩ := st.lists_of_getElem? hp
    exact ⟨p, hlt, (st.isAccessible_iff hlists).1 hn⟩
  · rintro ⟨p, hlt, hn⟩
    obtain ⟨l, hl, hlists⟩ := st.exists_list hlt
    exact ⟨l, List.mem_of_getElem? hl, (st.isAccessible_iff hlists).2 hn⟩

end Stages

/-- After a closure to a fixed point, a node is in some list exactly if it is reached along links
from a node of an element of some part, or one of its masters is local to some part. -/
theorem partition_fixedPoint_listed_iff (h : (m.partition partitioner config).result = .ok run)
    (hmode : config.closure = .fixedPoint) :
    ∃ deps, m.resolveAll = .ok deps ∧ ∀ n, (∃ l ∈ run.partitions, l.isAccessible n = true) ↔
      ∃ p < config.partCount,
        (∃ s, ReflTransGen (fun s k => k ∈ deps.mastersOf s) s n ∧
          p ∈ m.incidentParts run.assignment s) ∨
        ∃ k ∈ deps.mastersOf n, m.incidentParts run.assignment k = {p} := by
  obtain ⟨st⟩ := exists_stages h
  refine ⟨st.dependencies, st.resolveAll_eq, fun n => ?_⟩
  simp only [st.exists_isAccessible_iff, st.mem_closedParts_iff hmode]

/-! ## Nodes that are in no list -/

/-- The ids of four nodes or elements. -/
def armId (i : Fin 4) : GlobalId where
  toNat := i + 1
  pos := Nat.succ_pos i
  lt := by rw [UInt64.size]; omega

/-- Two elements that share a node, and a rigid arm from that node to one without elements. -/
def armAtBoundary : Mesh where
  nodes := [⟨armId 0, none⟩, ⟨armId 1, none⟩, ⟨armId 2, none⟩,
    ⟨armId 3, some (.rigidArm [armId 1])⟩]
  elements := [⟨armId 0, [0, 1]⟩, ⟨armId 1, [1, 2]⟩]
  nodeIds_nodup := by decide
  elementIds_nodup := by decide
  node_lt := by decide

/-- The dependencies of `armAtBoundary`. -/
def armDependencies : DependencyTable where
  entries := [none, none, none, some ⟨.rigidArm, [1]⟩]
  master_lt := by simp

/-- What a run makes of `armAtBoundary` when each element is a part of its own. -/
def armRun : Run where
  edgeCut := 1
  assignment := ⟨[0, 1], 2⟩
  classification := ⟨[.localOnly, .shared, .localOnly, .shared],
    [IndexSet.ofList [0], IndexSet.ofList [0, 1], IndexSet.ofList [1], ∅]⟩
  closure := ⟨.fixedPoint, 1, true⟩
  partitions := [⟨0, [0], IndexSet.ofList [0], IndexMap.ofList [(1, IndexSet.ofList [1])]⟩,
    ⟨1, [1], IndexSet.ofList [2], IndexMap.ofList [(1, IndexSet.ofList [0])]⟩]

/-- The dependencies resolve. -/
theorem resolveAll_armAtBoundary : armAtBoundary.resolveAll = .ok armDependencies := by
  rfl

/-- The run succeeds. -/
theorem partition_armAtBoundary :
    (armAtBoundary.partition (.manual [0, 1]) ⟨2, .fixedPoint⟩).result = .ok armRun := by
  rfl

/-- The node at the boundary is listed, because its elements lie in parts of the run. The end of the
arm is not, since no node leads to it and its master is local nowhere. -/
theorem partition_fixedPoint_listed_arm :
    (armAtBoundary.partition (.manual [0, 1]) ⟨2, .fixedPoint⟩).result = .ok armRun ∧
      (∃ l ∈ armRun.partitions, l.isAccessible 1 = true) ∧
      (¬ ∃ l ∈ armRun.partitions, l.isAccessible 3 = true) ∧
      armDependencies.mastersOf 3 = [1] ∧
      (∀ p < 2, armAtBoundary.incidentParts armRun.assignment 1 ≠ {p}) ∧
      ∀ p < 2, ¬ ∃ s, ReflTransGen (fun s k => k ∈ armDependencies.mastersOf s) s 3 ∧
        p ∈ armAtBoundary.incidentParts armRun.assignment s := by
  obtain ⟨deps, hdeps, hlisted⟩ := partition_fixedPoint_listed_iff partition_armAtBoundary rfl
  rw [resolveAll_armAtBoundary, Except.ok.injEq] at hdeps
  subst hdeps
  have hboundary := (hlisted 1).2
    ⟨0, by decide, Or.inl ⟨1, .refl, 0, _, rfl, by decide, rfl⟩⟩
  have hlost : ¬ ∃ l ∈ armRun.partitions, l.isAccessible 3 = true := by decide
  have hneither := mt (hlisted 3).2 hlost
  refine ⟨partition_armAtBoundary, hboundary, hlost, rfl, fun p hp heq => ?_, fun p hp hs => ?_⟩
  · exact hneither ⟨p, hp, Or.inr ⟨1, by decide, heq⟩⟩
  · exact hneither ⟨p, hp, Or.inl hs⟩

/-- Not every node is listed that has an element or a master with one: in `armRun` the end of the
arm is in no list. -/
theorem not_forall_constrained_listed :
    ¬ ∀ (m : Mesh) (partitioner : Partitioner) (config : Config) (run : Run)
        (deps : DependencyTable), (m.partition partitioner config).result = .ok run →
      config.closure = .fixedPoint → m.resolveAll = .ok deps →
      (∀ n < m.nodeCount, (∃ el ∈ m.elements, n ∈ el.nodes) ∨
        ∃ k ∈ deps.mastersOf n, ∃ el ∈ m.elements, k ∈ el.nodes) →
      ∀ n < m.nodeCount, ∃ l ∈ run.partitions, l.isAccessible n = true := by
  intro hall
  have h := hall _ _ _ _ _ partition_armAtBoundary rfl resolveAll_armAtBoundary (by decide)
    3 (by decide)
  exact absurd h (by decide)

end MeshPartition.Mesh
