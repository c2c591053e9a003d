import MeshPartition.Proofs.Deck.Record
import MeshPartition.Proofs.Text.Numbering
import Mathlib.Data.List.TakeWhile

/-!
# Which lines are records

The records of a text are its significant lines, those on which something other than blanks comes
first and is not `#`. Each record has the number that its line has in the text, counted over all
lines (`Record.ofText_numbered`). So texts can be put one after the other: if the first one ends its
last line, the records are those of both, and those of the second move down by the lines of the
first.
-/

namespace MeshPartition.Deck.Record

variable {l : List Char} {text : String} {r : Record}

/-- Something is on a line besides blanks, and it does not begin with `#`. -/
def Significant (l : List Char) : Prop := ∃ c, l.find? (!Text.isBlank ·) = some c ∧ c ≠ '#'

/-- The record of the same line further down in a text. -/
def movedBy (count : ℕ) (r : Record) : Record := { r with line := r.line + count }

theorem isRecordLine_iff : isRecordLine l = true ↔ Significant l := by
  have hfirst : l.find? (!Text.isBlank ·) = (l.dropWhile Text.isBlank).head? := by
    rw [List.find?_eq_head?_dropWhile_not]
    simp only [Bool.not_not]
  rw [Significant, hfirst, isRecordLine]
  cases l.dropWhile Text.isBlank with
  | nil => simp
  | cons c cs => simp

/-- The records of a text are those of its significant lines. -/
theorem mem_ofText_iff : r ∈ ofText text ↔
    ∃ number l, Text.LineAt text.toList number l ∧ Significant l ∧ r = ofLine number l := by
  rw [ofText, List.mem_map]
  constructor
  · rintro ⟨⟨l, number⟩, hmem, rfl⟩
    obtain ⟨hline, hrecord⟩ := List.mem_filter.1 hmem
    exact ⟨number, l, Text.lineAt_iff.2 hline, isRecordLine_iff.1 hrecord, rfl⟩
  · rintro ⟨number, l, hline, hrecord, rfl⟩
    have hmem : (l, number) ∈
        (Text.numberedLines text.toList).filter fun l => isRecordLine l.1 :=
      List.mem_filter.2 ⟨Text.lineAt_iff.1 hline, isRecordLine_iff.2 hrecord⟩
    exact ⟨(l, number), hmem, rfl⟩

/-- What is put after whole lines is read for itself, further down. -/
theorem ofText_append {a b : String} (ha : Text.AllEnded a.toList) :
    ofText (a ++ b) = ofText a ++ (ofText b).map (movedBy (a.toList.count '\n')) := by
  rw [ofText, ofText, ofText, String.toList_append, Text.numberedLines_append ha,
    List.filter_append, List.map_append, List.filter_map, List.map_map, List.map_map]
  rfl

/-- The records of a text are its significant lines, each with its number in the text. No line
comes twice and none comes before an earlier one. If a text is empty or ends in a line feed, and
another text is put after it, the records of both are read, those of the second with numbers that
are higher by the number of line feeds in the first. -/
theorem ofText_numbered :
    (∀ a b : String, Text.AllEnded a.toList →
      ofText (a ++ b) = ofText a ++ (ofText b).map (movedBy (a.toList.count '\n'))) ∧
    ∀ text : String, (ofText text).Pairwise (·.line < ·.line) ∧
      ∀ r, r ∈ ofText text ↔
        ∃ number l, Text.LineAt text.toList number l ∧ Significant l ∧ r = ofLine number l :=
  ⟨fun _ _ => ofText_append, fun text => ⟨sorted_ofText text, fun _ => mem_ofText_iff⟩⟩

/-- Lines with both kinds of ends, one of which has a carriage return of its own. -/
def wholeLines : String := "# bar\n\t\r\r\n\u2003node 1 \r\n"

/-- Lines of which the last one is not ended. -/
def openLines : String := "\n\r\n  # end\rnode 3\nnode \"2\r"

/-- The records of the open lines move down by the three whole lines. -/
theorem ofText_numbered_pieces :
    Text.AllEnded wholeLines.toList ∧
    ofText (wholeLines ++ openLines) =
      ofText wholeLines ++ (ofText openLines).map (movedBy (wholeLines.toList.count '\n')) ∧
    ofText (wholeLines ++ openLines) =
      [⟨3, "\u2003node 1", [.word "node", .word "1"]⟩,
        ⟨7, "node \"2", [.word "node", .quoted "2\r"]⟩] := by
  have hended : Text.AllEnded wholeLines.toList := by decide
  exact ⟨hended, ofText_numbered.1 _ _ hended, by decide +kernel⟩

end MeshPartition.Deck.Record
