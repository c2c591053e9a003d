import MeshPartition.Incidence

/-!
# The dual graph

The vertices of the dual graph are the elements of a mesh, and two elements are neighbours if they
share a node. The graph is held in compressed rows: the neighbours of all vertices one after the
other, and for each vertex the position at which its row starts; `DualGraph.fill` builds it row by
row. Graphs may also come from outside as two bare lists, so reading a row checks that it lies
within the neighbour list.
-/

namespace MeshPartition

/-- A graph in compressed rows. -/
structure DualGraph where
  /-- Where the row of each vertex starts in `targets`, and at last where the last row ends. -/
  offsets : List Nat
  /-- The rows, one after the other. -/
  targets : List Nat
deriving DecidableEq

namespace DualGraph

/-- The graph with given rows. -/
def ofRows (rows : List (List Nat)) : DualGraph where
  offsets := (rows.map List.length).scanl (· + ·) 0
  targets := rows.flatten

/-- The elements at any of the given nodes. -/
def elementsAtAny (inc : Incidence) : List Nat → Except Error IndexSet
  | [] => .ok ∅
  | n :: ns => do
    let here ← inc.elementsAt n
    let rest ← elementsAtAny inc ns
    return here ∪ rest

/-- The dual graph of a mesh, by its incidence table. -/
def ofMesh (m : Mesh) (inc : Incidence) : Except Error DualGraph := do
  let rows ← m.elements.zipIdx.mapM fun x => do
    let touching ← elementsAtAny inc x.1.nodes
    return (touching.erase x.2).toList
  return ofRows rows

/-- Adds the elements at a node to those that have been found for an element, except for the element
itself. -/
def meetAt (inc : Incidence) (e : Nat) (found : IndexSet) (n : Nat) : Except Error IndexSet := do
  let elements ← inc.elementsAt n
  return elements.toList.foldl (fun found v => if v = e then found else found.insert v) found

/-- Appends a row, and notes where it ends. -/
def push (g : DualGraph) (row : List Nat) : DualGraph where
  offsets := g.offsets ++ [(g.targets ++ row).length]
  targets := g.targets ++ row

/-- The dual graph of a mesh as a program fills it: the neighbours of an element are collected node
by node, and then the rows are appended one after the other. -/
def fill (m : Mesh) (inc : Incidence) : Except Error DualGraph := do
  let rows ← m.elements.zipIdx.mapM fun x => x.1.nodes.foldlM (meetAt inc x.2) ∅
  return (rows.map IndexSet.toList).foldl push ⟨[0], []⟩

/-- The number of vertices. -/
def vertexCount (g : DualGraph) : Nat := g.offsets.length - 1

/-- The number of edges, each of which stands in two rows. -/
def edgeCount (g : DualGraph) : Nat := g.targets.length / 2

/-- The row of a vertex. -/
def neighbours (g : DualGraph) (v : Nat) : Except Error (List Nat) := do
  let start ← entryAt g.offsets v
  let stop ← entryAt g.offsets (v + 1)
  if start ≤ stop ∧ stop ≤ g.targets.length then
    return (g.targets.take stop).drop start
  else
    throw .indexOutOfRange

/-- The edges, each from its lower to its higher end, row by row. -/
def edges (g : DualGraph) : Except Error (List (Nat × Nat)) := do
  let rows ← (List.range g.vertexCount).mapM fun u => do
    let row ← g.neighbours u
    return (row.filter (u < ·)).map (u, ·)
  return rows.flatten

/-- The number of edges in a list whose ends lie in different parts. -/
def countCut (a : Assignment) : List (Nat × Nat) → Except Error Nat
  | [] => .ok 0
  | (u, v) :: es => do
    let p ← a.partOf u
    let q ← a.partOf v
    let rest ← countCut a es
    return if p = q then rest else rest + 1

/-- The number of edges whose ends lie in different parts. -/
def edgeCut (g : DualGraph) (a : Assignment) : Except Error Nat := do
  countCut a (← g.edges)

end DualGraph

end MeshPartition
