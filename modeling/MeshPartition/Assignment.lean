import MeshPartition.Error

/-!
# Assignments of elements to parts

An assignment has one entry for each element: the number of the part that owns it. `ofParts` checks
the entries against the number of parts; an assignment read from elsewhere may break that bound.
-/

namespace MeshPartition

/-- An assignment of elements to parts. -/
structure Assignment where
  /-- The part of each element. -/
  parts : List Nat
  /-- The number of parts. -/
  partCount : Nat
deriving DecidableEq

namespace Assignment

/-- The assignment with given entries, which have to name parts below the part count. -/
def ofParts (parts : List Nat) (partCount : Nat) : Except Error Assignment :=
  if partCount = 0 then
    .error (.invalidPartitionCount 0)
  else
    match parts.zipIdx.find? (partCount ≤ ·.1) with
    | some (part, element) => .error (.invalidAssignment (.noSuchPart element part partCount))
    | none => .ok ⟨parts, partCount⟩

/-- The number of elements. -/
def size (a : Assignment) : Nat := a.parts.length

/-- The part of an element. -/
def partOf (a : Assignment) (e : Nat) : Except Error Nat := entryAt a.parts e

/-- The elements of a part, ascending. -/
def elementsOf (a : Assignment) (p : Nat) : List Nat :=
  (a.parts.zipIdx.filter (·.1 = p)).map (·.2)

end Assignment

end MeshPartition
