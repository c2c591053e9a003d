import MeshPartition.Proofs.Text.Lines
import MeshPartition.Proofs.Text.Numeral
import MeshPartition.Summary
import MeshPartition.Text.Words

/-!
# Reading the summary table

Nothing is lost in the table: it has two lines and then a line for each row, and the words of such a
line are the decimal numbers of its row (`Summary.table_lines`). So tables of different rows differ.

A number that is wider than its column pushes the others to the right, but it never touches them: in
a line the columns are kept apart by a blank of their own beside those that fill them up
(`Summary.words_row`). And no line holds a line feed, so the lines of the table are the ones that it
was made of (`Summary.lines_table`).
-/

namespace MeshPartition.Summary

open Text (isBlank words)

variable {s : Summary} {rows : List Summary} {n width : ℕ} {c : Char} {l : List Char}

/-! ## Rows -/

/-- A number that fills its cell or not is the only word in it. -/
theorem words_cell_digits (width n : ℕ) : words (cell width (digits n)) = [digits n] := by
  have hword : words (digits n) = [digits n] :=
    Text.words_of_not_blank Nat.toDigits_ne_nil fun _ hc =>
      Text.isBlank_of_isDigit (Text.isDigit_of_mem_toDigits hc)
  rw [cell, List.leftpad, Text.words_replicate_append (by decide), hword]

/-- The words of a row are its numbers. -/
theorem words_row (s : Summary) : words s.row =
    [digits s.partition, digits s.localNodes, digits s.sharedNodes, digits s.elements] := by
  have hblank : isBlank ' ' = true := by decide
  rw [row, line, Text.words_append_blank hblank, Text.words_append_blank hblank,
    Text.words_append_blank hblank, words_cell_digits, words_cell_digits, words_cell_digits,
    words_cell_digits]
  rfl

/-- The numbers of a row are read back. -/
theorem map_digits?_words_row (s : Summary) : (words s.row).map Text.digits? =
    [some s.partition, some s.localNodes, some s.sharedNodes, some s.elements] := by
  rw [words_row]
  simp [digits]

/-- Rows on the same line are equal. -/
theorem row_injective : Function.Injective row := by
  intro s s' h
  have hread := map_digits?_words_row s
  rw [h, map_digits?_words_row] at hread
  cases s
  cases s'
  cases hread
  rfl

/-- A row holds digits and spaces. -/
theorem eq_or_isDigit_of_mem_row (h : c ∈ s.row) : c = ' ' ∨ c.isDigit = true := by
  have hcell {width n : ℕ} (h : c ∈ cell width (digits n)) : c = ' ' ∨ c.isDigit = true := by
    rcases List.mem_append.1 h with hfill | hdigit
    · exact .inl (List.eq_of_mem_replicate hfill)
    · exact .inr (Text.isDigit_of_mem_toDigits hdigit)
  have hspace {front back : List Char} (h : c ∈ front ++ ' ' :: back)
      (hfront : c ∈ front → c = ' ' ∨ c.isDigit = true)
      (hback : c ∈ back → c = ' ' ∨ c.isDigit = true) : c = ' ' ∨ c.isDigit = true := by
    rcases List.mem_append.1 h with h | h
    · exact hfront h
    · exact (List.mem_cons.1 h).elim .inl hback
  exact hspace h (fun h => hspace h (fun h => hspace h hcell hcell) hcell) hcell

/-! ## The table -/

/-- A line of the table is not empty and holds no character that ends a line. -/
theorem of_mem_lines (h : l ∈ lines rows) : l ≠ [] ∧ '\n' ∉ l ∧ '\r' ∉ l := by
  rw [lines, List.mem_cons, List.mem_cons, List.mem_map] at h
  rcases h with rfl | rfl | ⟨s, -, rfl⟩
  · decide
  · decide
  · have hne : s.row ≠ [] := by
      intro hempty
      have hwords := words_row s
      rw [hempty] at hwords
      cases hwords
    have hfree {c : Char} (hspace : c ≠ ' ') (hdigit : c.isDigit = false) : c ∉ s.row := by
      intro hc
      rcases eq_or_isDigit_of_mem_row hc with rfl | hc
      · exact hspace rfl
      · rw [hdigit] at hc
        cases hc
    exact ⟨hne, hfree (by decide) (by decide), hfree (by decide) (by decide)⟩

/-- The lines of the table are the ones it is made of. -/
theorem lines_table (rows : List Summary) : Text.lines (table rows).toList = lines rows := by
  rw [table, String.toList_ofList]
  exact Text.lines_intercalate (fun l hl => (of_mem_lines hl).1) (fun l hl => (of_mem_lines hl).2.1)
    fun l hl hlast => (of_mem_lines hl).2.2 (List.mem_of_getLast? hlast)

/-- The table does not end with a line feed, since the last of its lines does not. -/
theorem getLast?_table_ne (rows : List Summary) : (table rows).toList.getLast? ≠ some '\n' := by
  have hne : lines rows ≠ [] := List.cons_ne_nil _ _
  have hlast : (lines rows).getLast? = some ((lines rows).getLast hne) :=
    List.getLast?_eq_some_getLast hne
  have hline := of_mem_lines (List.getLast_mem hne)
  rw [table, String.toList_ofList, Text.getLast?_intercalate hlast hline.1]
  exact fun hfeed => hline.2.1 (List.mem_of_getLast? hfeed)

/-- The table has two lines and then a line for each row, and it does not end with a line feed. The
words of the line of a row are the decimal numbers of the row. Tables of different rows differ. -/
theorem table_lines (rows : List Summary) :
    (Text.lines (table rows).toList).length = 2 + rows.length ∧
    (table rows).toList.getLast? ≠ some '\n' ∧
    (∀ i s, rows[i]? = some s → ∃ l, (Text.lines (table rows).toList)[2 + i]? = some l ∧
      (words l).map Text.digits? =
        [some s.partition, some s.localNodes, some s.sharedNodes, some s.elements]) ∧
    ∀ rows', table rows = table rows' → rows = rows' := by
  refine ⟨?_, getLast?_table_ne rows, fun i s hs => ⟨s.row, ?_, map_digits?_words_row s⟩,
    fun rows' h => ?_⟩
  · rw [lines_table, lines, List.length_cons, List.length_cons, List.length_map, Nat.add_comm 2]
  · rw [lines_table, lines, Nat.add_comm 2, List.getElem?_cons_succ, List.getElem?_cons_succ,
      List.getElem?_map, hs, Option.map_some]
  · have hlines := lines_table rows
    rw [h, lines_table, lines, lines, List.cons.injEq, List.cons.injEq] at hlines
    exact (List.map_injective_iff.2 row_injective hlines.2.2).symm

/-- Rows with numbers that are as wide as they can be, and with numbers that are wider than their
columns. -/
def wideRows : List Summary :=
  [⟨0, UInt64.size - 1, 7, 0⟩, ⟨12345678901, 2, UInt64.size - 1, UInt64.size - 1⟩]

/-- The wider numbers are read back, and no other rows have the same table. -/
theorem table_lines_wide :
    (wideRows[1]? = some ⟨12345678901, 2, UInt64.size - 1, UInt64.size - 1⟩ ∧
      ∃ l, (Text.lines (table wideRows).toList)[3]? = some l ∧ (words l).map Text.digits? =
        [some 12345678901, some 2, some (UInt64.size - 1), some (UInt64.size - 1)]) ∧
    table wideRows ≠ table wideRows.reverse := by
  obtain ⟨-, -, hrow, hinjective⟩ := table_lines wideRows
  exact ⟨⟨rfl, hrow 1 _ rfl⟩, fun h => absurd (hinjective _ h) (by decide)⟩

end MeshPartition.Summary
