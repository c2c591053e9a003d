import MeshPartition.Config
import MeshPartition.Log
import MeshPartition.Partitioner

/-!
# Partitioning a mesh

A run takes a mesh, a partitioner and settings through all stages: incidence and dual graph, the
assignment of the elements, the dependencies of the nodes, their classification and its closure, and
the node lists of the parts. The stages are pure; the run strings them together, checks that the
partitioner answered for this mesh and part count, and logs.
-/

namespace MeshPartition

/-- The result of a run. -/
structure Run where
  edgeCut : Nat
  assignment : Assignment
  classification : Classification
  closure : ClosureReport
  partitions : List NodeList
deriving DecidableEq

/-- The sizes of the parts. -/
def Run.summary (r : Run) : List Summary := r.partitions.map Summary.ofNodeList

namespace Mesh

/-- Fails unless an assignment is over the elements of the mesh and the configured parts. -/
def checkShape (m : Mesh) (name : String) (config : Config) (a : Assignment) : Except Error Unit :=
  if a.size ≠ m.elementCount ∨ a.partCount ≠ config.partCount then
    .error (.invalidAssignment
      (.wrongShape name a.size a.partCount m.elementCount config.partCount))
  else
    .ok ()

/-- The warning for a link that a single pass left open. -/
def noteOpenLink (m : Mesh) (l : Link) : Logged Unit := do
  let master ← m.node l.master
  let slave ← m.node l.slave
  Logged.note (.unreachedMaster master.id slave.id)

/-- Cuts a mesh into parts. -/
def partition (m : Mesh) (partitioner : Partitioner) (config : Config) : Logged Run := do
  config.validate
  Logged.note (.started m.nodeCount m.elementCount config.partCount partitioner.name)
  -- The elements and how they touch.
  let incidence := Incidence.ofMesh m
  let graph ← DualGraph.ofMesh m incidence
  Logged.note (.dualGraph graph.vertexCount graph.edgeCount)
  -- The parts of the elements.
  let outcome ← partitioner.partition graph config.partCount
  m.checkShape partitioner.name config outcome.assignment
  Logged.note (.edgeCut outcome.edgeCut)
  -- The parts of the nodes, as far as elements and dependencies demand.
  let dependencies ← m.resolveAll
  Logged.note (.constrained dependencies.constrainedCount)
  let classified ← Classification.ofAssignment incidence outcome.assignment
  let (report, closed) ← classified.propagate dependencies config.closure
  Logged.noteIf (config.closure = .fixedPoint && !report.converged) (.unsettled report.passes)
  Logged.note (.closed report.passes (closed.count .shared))
  if config.closure = .singlePass then
    (← closed.unsatisfied dependencies).forM m.noteOpenLink
  let orphans := closed.partitions.countP (·.isEmpty)
  Logged.noteIf (0 < orphans) (.orphans orphans)
  -- The node lists.
  let context ← Context.ofTables m incidence outcome.assignment closed dependencies
  let partitions ← context.nodeLists
  let run : Run := ⟨outcome.edgeCut, outcome.assignment, closed, report, partitions⟩
  Logged.note (.summary run.summary)
  return run

end Mesh

end MeshPartition
