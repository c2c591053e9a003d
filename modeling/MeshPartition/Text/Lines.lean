/-!
# Lines

A line feed ends a line. A carriage return just before it belongs to the line end; any other one is
an ordinary character. Text after the last line feed is a line of its own if there is any.
-/

namespace MeshPartition.Text

/-- The lines of a text, without their ends. -/
def lines : List Char → List (List Char)
  | [] => []
  | '\n' :: cs => [] :: lines cs
  | '\r' :: '\n' :: cs => [] :: lines cs
  | c :: cs =>
    match lines cs with
    | [] => [[c]]
    | l :: ls => (c :: l) :: ls

/-- Lines with their numbers, from the given one on. -/
def numberedLines (cs : List Char) : List (List Char × Nat) := (lines cs).zipIdx 1

end MeshPartition.Text
