import MeshPartition.Proofs.Text.Lines

/-!
# Where lines stand

`LineAt` says where a line stands in a text: what is before it are lines that have their ends, and
what is after it begins with the end of the line. Its number is one more than the number of line
feeds before it, whatever is on the lines. These are the lines that are read, with the numbers that
they are given (`lineAt_iff`). If the lines of a text have their ends, what is put after the text is
read for itself, with higher numbers (`numberedLines_append`).

That a line which is read stands in the text follows the recursion of `lines`. A line end shifts all
lines by one (`LineAt.append`). Any other character is put in front of the first line
(`LineAt.cons_first`) and leaves the later ones where they are (`LineAt.cons_later`).
-/

namespace MeshPartition.Text

variable {cs l front back before after : List Char} {c : Char} {number i : ℕ}

/-- The lines of a text have their ends: there are none, or the text ends in a line feed. -/
def AllEnded (cs : List Char) : Prop := cs = [] ∨ cs.getLast? = some '\n'

instance (cs : List Char) : Decidable (AllEnded cs) :=
  inferInstanceAs (Decidable (cs = [] ∨ cs.getLast? = some '\n'))

/-- What is after a line in its text. -/
inductive EndsLine (l : List Char) : List Char → Prop
  /-- A line feed ends a line; a carriage return just before it is not part of the line. -/
  | feed (rest : List Char) (no_return : l.getLast? ≠ some '\r') : EndsLine l ('\n' :: rest)
  | returnFeed (rest : List Char) : EndsLine l ('\r' :: '\n' :: rest)
  /-- The end of the text ends a line that has something on it. -/
  | textEnd (ne_nil : l ≠ []) : EndsLine l []

/-- A line stands in a text and has a number there, from `1`. -/
def LineAt (cs : List Char) (number : ℕ) (l : List Char) : Prop :=
  ∃ before after, cs = before ++ (l ++ after) ∧ AllEnded before ∧
    number = before.count '\n' + 1 ∧ '\n' ∉ l ∧ EndsLine l after

/-! ## Texts in two pieces -/

/-- A text without lines is empty. -/
theorem eq_nil_of_lines_eq_nil (h : lines cs = []) : cs = [] := by
  by_contra hne
  exact lines_ne_nil hne h

/-- Whether lines have their ends is decided at the end of the text. -/
theorem allEnded_append (h : back ≠ []) : AllEnded (front ++ back) ↔ AllEnded back := by
  obtain ⟨d, hd⟩ := Option.isSome_iff_exists.1 (List.getLast?_isSome.2 h)
  simp [AllEnded, List.getLast?_append, hd, h]

/-- What is at the end of lines that have their ends is made of such lines. -/
theorem AllEnded.of_append (front : List Char) (h : AllEnded (front ++ back)) : AllEnded back := by
  by_cases hback : back = []
  · exact .inl hback
  · exact (allEnded_append hback).1 h

/-- Lines that have their ends are as many as there are line feeds. -/
theorem length_lines (h : AllEnded cs) : (lines cs).length = cs.count '\n' := by
  induction cs using lines.induct with
  | case1 => rfl
  | case2 cs ih =>
    rw [lines_feed, List.length_cons, ih (.of_append ['\n'] h), List.count_cons_self]
  | case3 cs ih =>
    rw [lines_return_feed, List.length_cons, ih (.of_append ['\r', '\n'] h),
      List.count_cons_of_ne (by decide), List.count_cons_self]
  | case4 c cs hfeed hreturn hnone ih =>
    -- Nothing comes after the character, which is no line feed.
    obtain rfl := eq_nil_of_lines_eq_nil hnone
    rcases h with h | h
    · cases h
    · exact absurd (Option.some.inj h) hfeed
  | case5 c cs hfeed hreturn first others hrest ih =>
    -- The character goes onto the first of the other lines, so there are as many as without it.
    rw [lines.eq_4 c cs hfeed hreturn, hrest, List.count_cons_of_ne hfeed,
      ← ih (.of_append [c] h), hrest]
    rfl

/-- What is put after lines that have their ends is read for itself. -/
theorem lines_append (h : AllEnded front) (back : List Char) :
    lines (front ++ back) = lines front ++ lines back := by
  rcases h with rfl | h
  · rw [List.nil_append, lines, List.nil_append]
  · obtain ⟨ls, rfl⟩ := List.getLast?_eq_some_iff.1 h
    rw [List.append_assoc, List.singleton_append, lines_append_feed]

/-- It is read with numbers that are higher by the number of line feeds before it. -/
theorem numberedLines_append (h : AllEnded front) (back : List Char) :
    numberedLines (front ++ back) =
      numberedLines front ++ (numberedLines back).map (Prod.map id (· + front.count '\n')) := by
  rw [numberedLines, lines_append h, List.zipIdx_append, length_lines h, numberedLines,
    numberedLines, List.map_snd_add_zipIdx_eq_zipIdx, Nat.add_comm]

/-! ## Lines that stand in a text are read -/

/-- A line that is ended by a carriage return and a line feed is read back. -/
theorem lines_return_line_feed (rest : List Char) (hfeed : '\n' ∉ l) :
    lines (l ++ '\r' :: '\n' :: rest) = l :: lines rest := by
  induction l with
  | nil => exact lines_return_feed rest
  | cons c l ih =>
    rw [List.mem_cons, not_or] at hfeed
    have hhead : (l ++ '\r' :: '\n' :: rest).head? ≠ some '\n' := by
      intro hd
      cases l with
      | nil => exact absurd (Option.some.inj hd) (by decide)
      | cons d l => exact hfeed.2 (by rw [Option.some.inj hd]; exact List.mem_cons_self)
    rw [List.cons_append, lines_cons (Ne.symm hfeed.1) fun _ => hhead, ih hfeed.2]
    rfl

/-- A line is the first one to be read where it stands. -/
theorem head?_lines (hfeed : '\n' ∉ l) (hend : EndsLine l after) :
    (lines (l ++ after)).head? = some l := by
  cases hend with
  | feed rest hreturn => rw [lines_line_feed rest hfeed hreturn, List.head?_cons]
  | returnFeed rest => rw [lines_return_line_feed rest hfeed, List.head?_cons]
  | textEnd hne => rw [List.append_nil, lines_of_not_mem hne hfeed, List.head?_cons]

theorem LineAt.mem_numberedLines (h : LineAt cs number l) : (l, number) ∈ numberedLines cs := by
  obtain ⟨before, after, rfl, hbefore, rfl, hfeed, hend⟩ := h
  rw [numberedLines, List.mk_mem_zipIdx_iff_le_and_getElem?_sub, lines_append hbefore,
    Nat.add_sub_cancel, ← length_lines hbefore, List.getElem?_append_right (Nat.le_refl _),
    Nat.sub_self, ← List.head?_eq_getElem?]
  exact ⟨Nat.le_add_left 1 _, head?_lines hfeed hend⟩

/-! ## Lines that are read stand in the text -/

/-- The first line stands at the beginning. -/
theorem EndsLine.lineAt (hend : EndsLine l after) (hfeed : '\n' ∉ l) : LineAt (l ++ after) 1 l :=
  ⟨[], after, rfl, .inl rfl, rfl, hfeed, hend⟩

/-- A line stands behind others that are put before it. -/
theorem LineAt.append (hfront : AllEnded front) (h : LineAt back number l) :
    LineAt (front ++ back) (number + front.count '\n') l := by
  obtain ⟨before, after, rfl, hbefore, rfl, hfeed, hend⟩ := h
  refine ⟨front ++ before, after, (List.append_assoc _ _ _).symm, ?_, ?_, hfeed, hend⟩
  · rcases eq_or_ne before [] with rfl | hne
    · rwa [List.append_nil]
    · exact (allEnded_append hne).2 hbefore
  · rw [List.count_append]
    omega

/-- A character that is not part of a line end belongs to the first line. -/
theorem LineAt.cons_first (hfeed : c ≠ '\n')
    (hreturn : ∀ rest, c = '\r' → cs = '\n' :: rest → False) (h : LineAt cs 1 l) :
    LineAt (c :: cs) 1 (c :: l) := by
  obtain ⟨before, after, rfl, hbefore, hnumber, hl, hend⟩ := h
  -- Without a line feed before the line, nothing can be before it.
  obtain rfl : before = [] := by
    rcases hbefore with hnil | hlast
    · exact hnil
    · have hpos := List.count_pos_iff.2 (List.mem_of_getLast? hlast)
      omega
  have hmem : '\n' ∉ c :: l := List.not_mem_cons_of_ne_of_not_mem (Ne.symm hfeed) hl
  refine EndsLine.lineAt (l := c :: l) ?_ hmem
  cases hend with
  | feed rest hlast =>
    -- A carriage return would be part of the line end that follows it.
    refine .feed rest ?_
    cases l with
    | nil =>
      intro hc
      exact hreturn rest (Option.some.inj hc) rfl
    | cons d l => rwa [List.getLast?_cons_cons]
  | returnFeed rest => exact .returnFeed rest
  | textEnd hne => exact .textEnd (List.cons_ne_nil c l)

/-- It leaves the later lines where they are. -/
theorem LineAt.cons_later (hfeed : c ≠ '\n') (h : LineAt cs (i + 2) l) :
    LineAt (c :: cs) (i + 2) l := by
  obtain ⟨before, after, rfl, hbefore, hnumber, hl, hend⟩ := h
  have hne : before ≠ [] := by
    rintro rfl
    rw [List.count_nil] at hnumber
    omega
  have hended : AllEnded ([c] ++ before) := (allEnded_append hne).2 hbefore
  refine ⟨c :: before, after, rfl, hended, ?_, hl, hend⟩
  rw [List.count_cons_of_ne hfeed, hnumber]

/-- A line that is read stands in the text. -/
theorem lineAt_of_getElem?_lines (h : (lines cs)[i]? = some l) : LineAt cs (i + 1) l := by
  induction cs using lines.induct generalizing i l with
  | case1 => cases h
  | case2 cs ih =>
    rw [lines_feed] at h
    cases i with
    | zero =>
      cases h
      exact (EndsLine.feed cs (by decide)).lineAt List.not_mem_nil
    | succ i =>
      have hended : AllEnded ['\n'] := .inr rfl
      exact (ih h).append hended
  | case3 cs ih =>
    rw [lines_return_feed] at h
    cases i with
    | zero =>
      cases h
      exact (EndsLine.returnFeed cs).lineAt List.not_mem_nil
    | succ i =>
      have hended : AllEnded ['\r', '\n'] := .inr rfl
      exact (ih h).append hended
  | case4 c cs hfeed hreturn hnone ih =>
    obtain rfl := eq_nil_of_lines_eq_nil hnone
    have hmem : '\n' ∉ [c] := mt List.mem_singleton.1 (Ne.symm hfeed)
    rw [lines.eq_4 c [] hfeed hreturn, hnone] at h
    cases i with
    | zero =>
      cases h
      exact (EndsLine.textEnd (List.cons_ne_nil c [])).lineAt hmem
    | succ i => cases h
  | case5 c cs hfeed hreturn first others hrest ih =>
    rw [lines.eq_4 c cs hfeed hreturn, hrest] at h
    rw [hrest] at ih
    cases i with
    | zero =>
      cases h
      exact (ih (i := 0) rfl).cons_first hfeed hreturn
    | succ i => exact (ih (i := i + 1) h).cons_later hfeed

/-- The lines of a text are read, each with its number. -/
theorem lineAt_iff : LineAt cs number l ↔ (l, number) ∈ numberedLines cs := by
  refine ⟨LineAt.mem_numberedLines, fun h => ?_⟩
  rw [numberedLines, List.mk_mem_zipIdx_iff_le_and_getElem?_sub] at h
  have hline := lineAt_of_getElem?_lines h.2
  rwa [Nat.sub_add_cancel h.1] at hline

instance (cs : List Char) (number : ℕ) (l : List Char) : Decidable (LineAt cs number l) :=
  decidable_of_iff _ lineAt_iff.symm

/-- Of two carriage returns the first one is part of the line, and so is one at the end. -/
example : LineAt ['a', '\r', '\r', '\n', '\n', 'b', '\r'] 1 ['a', '\r'] ∧
    LineAt ['a', '\r', '\r', '\n', '\n', 'b', '\r'] 3 ['b', '\r'] := by
  decide

end MeshPartition.Text
