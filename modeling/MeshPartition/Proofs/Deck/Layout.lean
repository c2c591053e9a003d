import MeshPartition.Proofs.Deck.Token
import Mathlib.Data.List.Chain

/-!
# Tokens written on a line

A `Layout` is a way to write tokens on a line: words as they are, texts between double quotes, and
any blanks around and between them, of which there is at least one between two words. What is read
of the line are the tokens of the layout, also if the quote at its very end is left out, and every
token that is read of any line can be written in this way (`Token.ofLine_text`).

The line of a layout is put together from the end, and each token that is put in front of a rest
keeps the rest as it is read (`Token.spells_textOf`). This needs blanks only where a word would run
on into the next one: a quote ends a word by itself.
-/

namespace MeshPartition.Deck

open Text (isBlank)

namespace Token

/-- A token that can be written: a word is not empty and has neither blanks nor quotes in it, and a
quoted text has no quotes in it. -/
def WellFormed : Token → Prop
  | word w => IsWord w.toList
  | quoted q => '"' ∉ q.toList

instance : DecidablePred WellFormed
  | word w => inferInstanceAs (Decidable (IsWord w.toList))
  | quoted q => inferInstanceAs (Decidable (¬ '"' ∈ q.toList))

/-- A token as it stands in a line. -/
def chars : Token → List Char
  | word w => w.toList
  | quoted q => '"' :: (q.toList ++ ['"'])

/-- Tokens one after the other, each with the characters after it. -/
def textOf : List (Token × List Char) → List Char
  | [] => []
  | t :: ts => t.1.chars ++ (t.2 ++ textOf ts)

/-- Something stands between the tokens if both are words. -/
def Apart (t t' : Token × List Char) : Prop :=
  t.1.word?.isSome = true → t'.1.word?.isSome = true → t.2 ≠ []

instance : DecidableRel Apart := fun t t' =>
  inferInstanceAs (Decidable (t.1.word?.isSome = true → t'.1.word?.isSome = true → t.2 ≠ []))

/-- Tokens with the blanks around them. -/
structure Layout where
  /-- The blanks before the first token. -/
  indent : List Char
  /-- The tokens, each with the blanks after it. -/
  spaced : List (Token × List Char)
  wellFormed : ∀ t ∈ spaced, t.1.WellFormed
  isBlank_indent : ∀ c ∈ indent, isBlank c = true
  isBlank_gap : ∀ t ∈ spaced, ∀ c ∈ t.2, isBlank c = true
  /-- There are blanks between two words. -/
  apart : spaced.IsChain Apart

/-- The tokens of a layout. -/
def Layout.tokens (l : Layout) : List Token := l.spaced.map Prod.fst

/-- The line that is written. -/
def Layout.text (l : Layout) : List Char := l.indent ++ textOf l.spaced

variable {ts : List Token} {cs : List Char} {spaced : List (Token × List Char)}

/-- A line spells tokens that can be written. -/
theorem Spells.wellFormed (h : Spells ts cs) : ∀ t ∈ ts, t.WellFormed := by
  induction h with
  | nil => exact List.forall_mem_nil _
  | blank c hc rest ih => exact ih
  | word w hw hend rest ih =>
    have hword : WellFormed (.word (String.ofList w)) := by
      rw [WellFormed, String.toList_ofList]
      exact hw
    exact List.forall_mem_cons.2 ⟨hword, ih⟩
  | quoted q hq rest ih =>
    have hquoted : WellFormed (.quoted (String.ofList q)) := by
      rw [WellFormed, String.toList_ofList]
      exact hq
    exact List.forall_mem_cons.2 ⟨hquoted, ih⟩
  | unclosed q hq =>
    rw [List.forall_mem_singleton, WellFormed, String.toList_ofList]
    exact hq

/-- Blanks in front of a line change nothing. -/
theorem Spells.append_blanks {gap : List Char} (hgap : ∀ c ∈ gap, isBlank c = true)
    (h : Spells ts cs) : Spells ts (gap ++ cs) := by
  induction gap with
  | nil => exact h
  | cons c gap ih =>
    rw [List.forall_mem_cons] at hgap
    exact .blank c hgap.1 (ih hgap.2)

/-- A word ends before blanks, and before whatever ends it if there are none. -/
theorem endsWord_append {gap : List Char} (hgap : ∀ c ∈ gap, isBlank c = true)
    (h : gap = [] → EndsWord cs) : EndsWord (gap ++ cs) := by
  cases gap with
  | nil => exact h rfl
  | cons c gap =>
    intro d hd
    cases hd
    exact .inl (hgap c List.mem_cons_self)

/-- Tokens that are put in front of a line are read before it, if the line does not begin with a
character that a word could have. -/
theorem spells_textOf (hwell : ∀ t ∈ spaced, t.1.WellFormed)
    (hgap : ∀ t ∈ spaced, ∀ c ∈ t.2, isBlank c = true) (hapart : spaced.IsChain Apart)
    (hend : EndsWord cs) (hrest : Spells ts cs) :
    Spells (spaced.map Prod.fst ++ ts) (textOf spaced ++ cs) := by
  induction spaced with
  | nil => exact hrest
  | cons t spaced ih =>
    rw [List.forall_mem_cons] at hwell hgap
    obtain ⟨t, gap⟩ := t
    have htail : Spells (spaced.map Prod.fst ++ ts) (textOf spaced ++ cs) :=
      ih hwell.2 hgap.2 hapart.tail
    have hblanks : Spells (spaced.map Prod.fst ++ ts) (gap ++ (textOf spaced ++ cs)) :=
      htail.append_blanks hgap.1
    cases t with
    | word w =>
      -- Without blanks after the word, the next token is a quoted text or there is none.
      have hnext : gap = [] → EndsWord (textOf spaced ++ cs) := by
        intro hnone
        cases spaced with
        | nil => exact hend
        | cons t' spaced =>
          obtain ⟨t', gap'⟩ := t'
          cases t' with
          | word w' => exact absurd hnone ((List.isChain_cons_cons.1 hapart).1 rfl rfl)
          | quoted q' =>
            intro c hc
            cases hc
            exact .inr rfl
      have hword := Spells.word w.toList hwell.1 (endsWord_append hgap.1 hnext) hblanks
      simpa [textOf, chars] using hword
    | quoted q => simpa [textOf, chars] using Spells.quoted q.toList hwell.1 hblanks

/-- The line of a layout spells its tokens. -/
theorem Layout.spells_text (l : Layout) : Spells l.tokens l.text := by
  have htext : Spells (l.tokens ++ []) (textOf l.spaced ++ []) :=
    spells_textOf l.wellFormed l.isBlank_gap l.apart nofun .nil
  rw [List.append_nil, List.append_nil] at htext
  exact htext.append_blanks l.isBlank_indent

theorem textOf_append (spaced spaced' : List (Token × List Char)) :
    textOf (spaced ++ spaced') = textOf spaced ++ textOf spaced' := by
  induction spaced with
  | nil => rfl
  | cons t spaced ih =>
    rw [List.cons_append, textOf, textOf, ih, List.append_assoc, List.append_assoc]

/-- The line of a layout that ends with a quote spells the same tokens without that quote. -/
theorem Layout.spells_dropLast {l : Layout} {q : String}
    (h : l.spaced.getLast? = some (.quoted q, [])) : Spells l.tokens l.text.dropLast := by
  obtain ⟨front, hfront⟩ := List.getLast?_eq_some_iff.1 h
  have hwell := l.wellFormed
  have hgap := l.isBlank_gap
  have hapart := l.apart
  rw [hfront, List.forall_mem_append, List.forall_mem_singleton] at hwell
  rw [hfront, List.forall_mem_append] at hgap
  rw [hfront] at hapart
  -- The last token is left open, and the tokens before it are put in front of it.
  have hquoted : Spells [.quoted q] ('"' :: q.toList) := by
    have hunclosed := Spells.unclosed q.toList hwell.2
    rwa [String.ofList_toList] at hunclosed
  have hend : EndsWord ('"' :: q.toList) := by
    intro c hc
    cases hc
    exact .inr rfl
  have htext := spells_textOf hwell.1 hgap.1 hapart.left_of_append hend hquoted
  have hclosed : l.text = l.indent ++ (textOf front ++ '"' :: q.toList) ++ ['"'] := by
    rw [text, hfront, textOf_append]
    simp [textOf, chars]
  have htokens : l.tokens = front.map Prod.fst ++ [.quoted q] := by
    rw [tokens, hfront, List.map_append]
    rfl
  rw [hclosed, List.dropLast_concat, htokens]
  exact htext.append_blanks l.isBlank_indent

/-- All tokens that can be written can be written after one another, with a space after each. -/
theorem exists_layout (h : ∀ t ∈ ts, t.WellFormed) : ∃ l : Layout, l.tokens = ts := by
  have hspace : ∀ c ∈ [' '], isBlank c = true := List.forall_mem_singleton.2 (by decide)
  have hapart : (ts.map fun t => (t, [' '])).Pairwise Apart :=
    List.pairwise_map.2 (List.pairwise_of_forall fun _ _ _ _ => List.cons_ne_nil _ _)
  refine ⟨⟨[], ts.map fun t => (t, [' ']), List.forall_mem_map.2 h, List.forall_mem_nil _,
    List.forall_mem_map.2 fun _ _ => hspace, hapart.isChain⟩, ?_⟩
  rw [Layout.tokens, List.map_map]
  exact List.map_id ts

/-- Reading a line gives words, which are not empty and have neither blanks nor quotes in them, and
quoted texts, which have no quotes in them. Tokens of this form are read back from any line on which
they are written, with blanks around and between them and at least one between two words; if the
line ends with a quote, it makes no difference whether the quote is there. -/
theorem ofLine_text :
    (∀ line, ∀ t ∈ ofLine line, t.WellFormed) ∧
    (∀ ts : List Token, (∀ t ∈ ts, t.WellFormed) → ∃ l : Layout, l.tokens = ts) ∧
    (∀ l : Layout, ofLine l.text = l.tokens) ∧
    ∀ (l : Layout) (q : String), l.spaced.getLast? = some (.quoted q, []) →
      ofLine l.text.dropLast = l.tokens :=
  ⟨fun _ => (ofLine_eq_iff.1 rfl).wellFormed, fun _ => exists_layout,
    fun l => l.spells_text.ofLine_eq, fun _ _ h => (Layout.spells_dropLast h).ofLine_eq⟩

/-- Words and quoted texts, one of them empty, with few blanks between them. -/
def crowded : Layout where
  indent := ['\u3000']
  spaced := [(.word "a", []), (.quoted "b c", []), (.quoted "", ['\t']),
    (.word "d", [' ', '\u00a0']), (.word "#", []), (.quoted "e", [])]
  wellFormed := by decide
  isBlank_indent := by simp [isBlank]
  isBlank_gap := by simp [isBlank]
  apart := by decide

/-- The line is read back with its last quote and without it. -/
theorem ofLine_text_crowded :
    crowded.text = "\u3000a\"b c\"\"\"\td \u00a0#\"e\"".toList ∧
    (.word "#" ∈ ofLine crowded.text ∧ WellFormed (.word "#")) ∧
    ((∀ t ∈ crowded.tokens, t.WellFormed) ∧ ∃ l : Layout, l.tokens = crowded.tokens) ∧
    ofLine crowded.text = crowded.tokens ∧
    crowded.spaced.getLast? = some (.quoted "e", []) ∧
      ofLine crowded.text.dropLast = crowded.tokens := by
  obtain ⟨hread, hwrite, hback, hunclosed⟩ := ofLine_text
  have hmem : .word "#" ∈ ofLine crowded.text := by decide
  have hwell : ∀ t ∈ crowded.tokens, t.WellFormed := by decide
  exact ⟨by decide, ⟨hmem, hread _ _ hmem⟩, ⟨hwell, hwrite _ hwell⟩, hback crowded, rfl,
    hunclosed crowded "e" rfl⟩

end Token

end MeshPartition.Deck
