import MeshPartition.NodeList

/-!
# The summary table

One row for each part with the sizes of its node list, printed under a header in columns that are
aligned on the right. A number wider than its column pushes the rest of its row to the right, so no
digits are lost.
-/

namespace MeshPartition

/-- The sizes of one part. -/
structure Summary where
  partition : Nat
  localNodes : Nat
  sharedNodes : Nat
  elements : Nat
deriving DecidableEq

namespace Summary

/-- The sizes of a node list. -/
def ofNodeList (l : NodeList) : Summary where
  partition := l.partition
  localNodes := l.localNodes.size
  sharedNodes := l.sharedNodes.size
  elements := l.elements.length

/-- A text filled up with blanks on the left. -/
def cell (width : Nat) (text : List Char) : List Char := text.leftpad width ' '

/-- Four texts in the columns of the table. -/
def line (partition localNodes sharedNodes elements : List Char) : List Char :=
  cell 9 partition ++ ' ' :: cell 12 localNodes ++ ' ' :: cell 12 sharedNodes ++
    ' ' :: cell 10 elements

/-- The names of the columns. -/
def header : List Char :=
  line "Partition".toList "local_nodes".toList "shared_nodes".toList "elements".toList

/-- The rule under the header. -/
def rule : List Char := List.replicate 46 '-'

/-- A number in decimal digits. -/
def digits (n : Nat) : List Char := Nat.toDigits 10 n

/-- The line of one part. -/
def row (s : Summary) : List Char :=
  line (digits s.partition) (digits s.localNodes) (digits s.sharedNodes) (digits s.elements)

/-- The lines of the table. -/
def lines (rows : List Summary) : List (List Char) := header :: rule :: rows.map row

/-- The table, its lines separated by line feeds. -/
def table (rows : List Summary) : String := String.ofList (List.intercalate ['\n'] (lines rows))

end Summary

end MeshPartition
