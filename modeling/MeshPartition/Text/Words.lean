import MeshPartition.Text.Blank

/-!
# Words of a line

Blanks separate the words of a line. Runs of blanks, however long and wherever they stand, make no
words of their own.
-/

namespace MeshPartition.Text

/-- The longest runs of a line without blanks in them. -/
def words (cs : List Char) : List (List Char) := (cs.splitOnP isBlank).filter (!·.isEmpty)

variable {c : Char}

theorem words_nil : words [] = [] := rfl

/-- A line is cut at a blank. -/
theorem words_append_blank (h : isBlank c = true) (front back : List Char) :
    words (front ++ c :: back) = words front ++ words back := by
  rw [words, List.splitOnP_append_cons _ _ h, List.filter_append]
  rfl

/-- Blanks in front of a line make no words. -/
theorem words_replicate_append (h : isBlank c = true) (n : Nat) (cs : List Char) :
    words (List.replicate n c ++ cs) = words cs := by
  induction n with
  | zero => rfl
  | succ n ih =>
    have hfirst := words_append_blank h [] (List.replicate n c ++ cs)
    rw [words_nil, List.nil_append, List.nil_append] at hfirst
    rw [List.replicate_succ, List.cons_append, hfirst, ih]

/-- Without blanks, a line is one word. -/
theorem words_of_not_blank {w : List Char} (hne : w ≠ []) (h : ∀ c ∈ w, isBlank c = false) :
    words w = [w] := by
  rw [words, List.splitOnP_eq_singleton h]
  simp [hne]

end MeshPartition.Text
