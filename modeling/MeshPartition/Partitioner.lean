import MeshPartition.DualGraph

/-!
# Partitioners

A partitioner cuts the vertices of a dual graph into a given number of parts and says how many edges
it cut. Three are built in: a list made by hand, equal blocks of consecutive elements, and the
multilevel method of METIS, of which only the case of a single part is available here. The blocks
are given by a formula; `Partitioner.fillBlocks` fills them in one after the other, in numbers of 64
bits, as long as its products fit.
-/

namespace MeshPartition

/-- What a partitioner answers. -/
structure Outcome where
  edgeCut : Nat
  assignment : Assignment
deriving DecidableEq

/-- A named way to cut a graph into a number of parts. -/
structure Partitioner where
  name : String
  partition : DualGraph → Nat → Except Error Outcome

namespace Partitioner

/-- The outcome with given entries, its cut edges counted on the graph. -/
def outcomeOf (g : DualGraph) (parts : List Nat) (partCount : Nat) : Except Error Outcome := do
  let assignment ← Assignment.ofParts parts partCount
  let edgeCut ← g.edgeCut assignment
  return ⟨edgeCut, assignment⟩

/-- The given entries, if there is one for each vertex. -/
def manual (parts : List Nat) : Partitioner where
  name := "manual"
  partition g partCount := do
    if partCount = 0 then
      throw (.invalidPartitionCount 0)
    if parts.length ≠ g.vertexCount then
      throw (.invalidAssignment (.listLength parts.length g.vertexCount))
    outcomeOf g parts partCount

/-- The part of element `e` when `n` elements are cut into `k` blocks: part `i` ends before element
`n * (i + 1) / k`, and this is the first `i` whose end lies past `e`. -/
def blockOf (n k e : Nat) : Nat := (k * (e + 1) - 1) / n

/-- The product of two numbers, if it fits in 64 bits. -/
def product? (a b : Nat) : Option Nat :=
  if a * b < UInt64.size then some (a * b) else none

/-- Appends a part until there are as many entries as wanted. -/
def padTo (part wanted : Nat) (parts : List Nat) : List Nat :=
  if parts.length < wanted then padTo part wanted (parts ++ [part]) else parts
termination_by wanted - parts.length

/-- Fills in a block after those before it. There is no answer if a product does not fit. -/
def fillBlock (n k : Nat) (parts : List Nat) (i : Nat) : Option (List Nat) := do
  let product ← product? n (i + 1)
  return padTo i (product / k) parts

/-- The parts of `n` elements that are cut into `k` blocks, as a program fills them in, block by
block. -/
def fillBlocks (n k : Nat) : Option (List Nat) := (List.range k).foldlM (fillBlock n k) []

/-- Consecutive elements in blocks of sizes that differ by at most one. The formula is what
`fillBlocks` fills in while the product of the numbers of elements and parts fits in 64 bits
(`fillBlocks_eq_some`). It has an answer for larger numbers too, but there the loop overflows and
does not compute it. -/
def block : Partitioner where
  name := "block"
  partition g partCount := do
    if partCount = 0 then
      throw (.invalidPartitionCount 0)
    let n := g.vertexCount
    outcomeOf g ((List.range n).map (blockOf n partCount)) partCount

/-- The multilevel method. One part needs no cut; more parts need an external program. -/
def metis : Partitioner where
  name := "metis"
  partition g partCount := do
    if partCount = 0 then
      throw (.invalidPartitionCount 0)
    if partCount = 1 then
      return ⟨0, ← Assignment.ofParts (List.replicate g.vertexCount 0) 1⟩
    throw (.partitionerUnavailable
      "METIS support not compiled in (enable the `metis-support` feature)")

/-- A partitioner that gives one answer whatever it is asked. -/
def fixed (name : String) (answer : Except Error Outcome) : Partitioner where
  name := name
  partition _ _ := answer

end Partitioner

end MeshPartition
