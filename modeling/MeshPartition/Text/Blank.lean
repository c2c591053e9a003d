/-!
# Blank characters

Which characters separate words: those with the Unicode property White_Space. Core's
`Char.isWhitespace` knows four of them, all of which are here (`isBlank_of_isWhitespace`).
-/

namespace MeshPartition.Text

/-- Whether a character has the Unicode property White_Space. -/
def isBlank (c : Char) : Bool :=
  let n := c.toNat
  (9 ≤ n && n ≤ 13) || n == 0x20 || n == 0x85 || n == 0xA0 || n == 0x1680 ||
    (0x2000 ≤ n && n ≤ 0x200A) || n == 0x2028 || n == 0x2029 || n == 0x202F || n == 0x205F ||
    n == 0x3000

theorem isBlank_of_isWhitespace {c : Char} (h : c.isWhitespace = true) : isBlank c = true := by
  simp only [Char.isWhitespace, Bool.or_eq_true, decide_eq_true_eq] at h
  rcases h with ((rfl | rfl) | rfl) | rfl <;> decide

/-- A line without the blanks at its end. -/
def trimRight (cs : List Char) : List Char := (cs.reverse.dropWhile isBlank).reverse

end MeshPartition.Text
