import MeshPartition.Text.Lines
import Mathlib.Data.List.Basic

/-!
# Texts and their lines

A text that is cut after a line feed is read in two pieces (`lines_append_feed`). Lines that are
each ended by a line feed are read back (`lines_flatMap`), and so are lines that are joined by line
feeds (`lines_intercalate`). `WholeLines` says that one text begins with another and that the cut
does not fall into a line; a cut after a line feed never does (`wholeLines_append_feed`).
-/

namespace MeshPartition.Text

variable {cs l : List Char}

@[simp] theorem lines_feed (cs : List Char) : lines ('\n' :: cs) = [] :: lines cs := by rw [lines]

@[simp] theorem lines_return_feed (cs : List Char) :
    lines ('\r' :: '\n' :: cs) = [] :: lines cs := by
  rw [lines]

/-- A character that is not part of a line end belongs to the first line. -/
theorem lines_cons {c : Char} (hfeed : c ≠ '\n') (hreturn : c = '\r' → cs.head? ≠ some '\n') :
    lines (c :: cs) = (c :: (lines cs).headD []) :: (lines cs).tail := by
  rw [lines.eq_4 c cs hfeed fun rest hc hcs => hreturn hc (by rw [hcs]; rfl)]
  cases lines cs <;> rfl

theorem lines_ne_nil (h : cs ≠ []) : lines cs ≠ [] := by
  induction cs using lines.induct with
  | case1 => contradiction
  | case2 cs ih => simp
  | case3 cs ih => simp
  | case4 c cs hfeed hreturn hrest ih => simp [lines, hrest]
  | case5 c cs hfeed hreturn l ls hrest ih => simp [lines, hrest]

/-- What follows a line feed is read for itself. -/
theorem lines_append_feed (front back : List Char) :
    lines (front ++ '\n' :: back) = lines (front ++ ['\n']) ++ lines back := by
  -- A character that ends no line is put in front of the same line on both sides.
  have step {c : Char} {cs : List Char} (hfeed : c ≠ '\n')
      (hreturn : ∀ rest, c = '\r' → cs = '\n' :: rest → False)
      (ih : lines (cs ++ '\n' :: back) = lines (cs ++ ['\n']) ++ lines back) :
      lines (c :: cs ++ '\n' :: back) = lines (c :: cs ++ ['\n']) ++ lines back := by
    by_cases hend : c = '\r' ∧ cs = []
    · obtain ⟨rfl, rfl⟩ := hend
      simp [lines]
    · have hhead (rest : List Char) : c = '\r' → (cs ++ '\n' :: rest).head? ≠ some '\n' := by
        intro hc
        cases cs with
        | nil => exact absurd ⟨hc, rfl⟩ hend
        | cons d cs =>
          intro hd
          exact hreturn cs hc (by rw [Option.some.inj hd])
      have hne : lines (cs ++ ['\n']) ≠ [] := lines_ne_nil (by simp)
      obtain ⟨first, others, hlines⟩ := List.exists_cons_of_ne_nil hne
      rw [List.cons_append, List.cons_append, lines_cons hfeed (hhead back),
        lines_cons hfeed (hhead []), ih, hlines]
      rfl
  induction front using lines.induct with
  | case1 => simp [lines]
  | case2 cs ih => simpa using ih
  | case3 cs ih => simpa using ih
  | case4 c cs hfeed hreturn hrest ih => exact step hfeed hreturn ih
  | case5 c cs hfeed hreturn l ls hrest ih => exact step hfeed hreturn ih

/-- A line that is ended by a line feed is read back. -/
theorem lines_line_feed (rest : List Char) (hfeed : '\n' ∉ l) (hreturn : l.getLast? ≠ some '\r') :
    lines (l ++ '\n' :: rest) = l :: lines rest := by
  induction l with
  | nil => simp
  | cons c l ih =>
    rw [List.mem_cons, not_or] at hfeed
    have hlast : l.getLast? ≠ some '\r' := by
      intro h
      rw [List.getLast?_cons, h] at hreturn
      exact hreturn rfl
    have hhead : c = '\r' → (l ++ '\n' :: rest).head? ≠ some '\n' := by
      rintro rfl
      cases l with
      | nil => exact absurd rfl hreturn
      | cons d l =>
        intro hd
        exact hfeed.2 (by rw [Option.some.inj hd]; exact List.mem_cons_self)
    rw [List.cons_append, lines_cons (Ne.symm hfeed.1) hhead, ih hfeed.2 hlast]
    rfl

/-- Lines that are each ended by a line feed are read back. -/
theorem lines_flatMap {ls : List (List Char)} (hfeed : ∀ l ∈ ls, '\n' ∉ l)
    (hreturn : ∀ l ∈ ls, l.getLast? ≠ some '\r') : lines (ls.flatMap (· ++ ['\n'])) = ls := by
  induction ls with
  | nil => rw [List.flatMap_nil, lines]
  | cons l ls ih =>
    rw [List.forall_mem_cons] at hfeed hreturn
    rw [List.flatMap_cons, List.append_assoc, List.singleton_append,
      lines_line_feed _ hfeed.1 hreturn.1, ih hfeed.2 hreturn.2]

/-- Text without a line feed is one line. -/
theorem lines_of_not_mem (hne : l ≠ []) (hfeed : '\n' ∉ l) : lines l = [l] := by
  induction l with
  | nil => exact absurd rfl hne
  | cons c l ih =>
    rw [List.mem_cons, not_or] at hfeed
    have hhead : c = '\r' → l.head? ≠ some '\n' := fun _ hd => hfeed.2 (List.mem_of_head? hd)
    rw [lines_cons (Ne.symm hfeed.1) hhead]
    cases l with
    | nil => rfl
    | cons d l =>
      rw [ih (List.cons_ne_nil d l) hfeed.2]
      rfl

/-- A line holds no line feed. -/
theorem not_mem_of_mem_lines (h : l ∈ lines cs) : '\n' ∉ l := by
  induction cs using lines.induct generalizing l with
  | case1 => exact absurd h (by simp [lines])
  | case2 cs ih =>
    rw [lines_feed] at h
    rcases List.mem_cons.1 h with rfl | h
    · exact List.not_mem_nil
    · exact ih h
  | case3 cs ih =>
    rw [lines_return_feed] at h
    rcases List.mem_cons.1 h with rfl | h
    · exact List.not_mem_nil
    · exact ih h
  | case4 c cs hfeed hreturn hrest ih =>
    rw [lines.eq_4 c cs hfeed hreturn, hrest, List.mem_singleton] at h
    subst h
    rw [List.mem_singleton]
    exact Ne.symm hfeed
  | case5 c cs hfeed hreturn first others hrest ih =>
    rw [lines.eq_4 c cs hfeed hreturn, hrest] at h
    rcases List.mem_cons.1 h with rfl | h
    · rw [List.mem_cons, not_or]
      exact ⟨Ne.symm hfeed, ih (by rw [hrest]; exact List.mem_cons_self)⟩
    · exact ih (by rw [hrest]; exact List.mem_cons_of_mem first h)

/-- Lines that are joined by line feeds are read back. -/
theorem lines_intercalate {ls : List (List Char)} (hne : ∀ l ∈ ls, l ≠ [])
    (hfeed : ∀ l ∈ ls, '\n' ∉ l) (hreturn : ∀ l ∈ ls, l.getLast? ≠ some '\r') :
    lines (['\n'].intercalate ls) = ls := by
  induction ls with
  | nil => rfl
  | cons l ls ih =>
    rw [List.forall_mem_cons] at hne hfeed hreturn
    cases ls with
    | nil =>
      rw [List.intercalate_singleton]
      exact lines_of_not_mem hne.1 hfeed.1
    | cons l' ls =>
      rw [List.intercalate_cons_cons, List.append_assoc, List.singleton_append,
        lines_line_feed _ hfeed.1 hreturn.1, ih hne.2 hfeed.2 hreturn.2]

/-- Lines that are joined end as the last of them does. -/
theorem getLast?_intercalate {sep : List Char} {ls : List (List Char)} (h : ls.getLast? = some l)
    (hne : l ≠ []) : (sep.intercalate ls).getLast? = l.getLast? := by
  induction ls with
  | nil => cases h
  | cons l' ls ih =>
    cases ls with
    | nil =>
      rw [List.getLast?_singleton] at h
      rw [List.intercalate_singleton, Option.some.inj h]
    | cons l'' ls =>
      rw [List.getLast?_cons_cons] at h
      obtain ⟨c, hc⟩ := Option.isSome_iff_exists.1 (List.getLast?_isSome.2 hne)
      rw [List.intercalate_cons_cons, List.getLast?_append, ih h, hc]
      rfl

/-- One text is made of whole lines of the other, from the first one on: the other text begins with
it, and so do its lines. Whether the last one has its end makes no difference. -/
structure WholeLines (front text : List Char) : Prop where
  isPrefix : front <+: text
  lines_isPrefix : lines front <+: lines text

/-- A cut after a line feed leaves whole lines. -/
theorem wholeLines_append_feed (front back : List Char) :
    WholeLines (front ++ ['\n']) (front ++ '\n' :: back) where
  isPrefix := ⟨back, by simp⟩
  lines_isPrefix := ⟨lines back, (lines_append_feed front back).symm⟩

end MeshPartition.Text
