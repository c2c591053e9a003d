import MeshPartition.Proofs.Deck.Alike
import Mathlib.Data.List.DropRight

/-!
# Decks that are written again

The records of a deck can be written as they were read, a line each. What is read then is the same
deck, up to the numbers of the lines (`Deck.ofText_text_again`).

A record is written without the blanks at the end of its line, which its tokens have been read with.
This loses nothing: the line still holds a record and spells tokens that are alike
(`lineAlike_trimRight`), for what the blanks can have been part of is a quoted text that is not
closed. And no line is broken or joined to another one, since what is written of a record holds no
line feed and ends in no carriage return (`Record.linesOf_text`).
-/

namespace MeshPartition

namespace Text

variable {l bs : List Char}

/-! ## Lines without the blanks at their ends -/

/-- What is cut off the end of a line are blanks. -/
theorem exists_eq_trimRight_append (l : List Char) :
    ∃ bs, (∀ c ∈ bs, isBlank c = true) ∧ l = trimRight l ++ bs := by
  refine ⟨(l.reverse.takeWhile isBlank).reverse, fun c hc => ?_, ?_⟩
  · exact List.mem_takeWhile_imp (List.mem_reverse.1 hc)
  · rw [trimRight, ← List.reverse_append, List.takeWhile_append_dropWhile, List.reverse_reverse]

/-- A line without the blanks at its end is the beginning of the line. -/
theorem trimRight_isPrefix (l : List Char) : trimRight l <+: l := List.rdropWhile_prefix isBlank l

/-- Nothing is left to cut off. -/
theorem trimRight_trimRight (l : List Char) : trimRight (trimRight l) = trimRight l :=
  List.rdropWhile_idempotent isBlank l

/-- A line without the blanks at its end does not end in a blank. -/
theorem getLast?_trimRight_ne {c : Char} (hc : isBlank c = true) :
    (trimRight l).getLast? ≠ some c := by
  intro hlast
  rw [trimRight, List.getLast?_reverse] at hlast
  have hnot := List.head?_dropWhile_not isBlank l.reverse
  rw [hlast] at hnot
  simp [hc] at hnot

end Text

namespace Deck

open Text (isBlank trimRight)

variable {l bs : List Char}

/-! ## Records on lines without the blanks at their ends -/

/-- Blanks at the end of a line are part of its last token only if that is a quoted text, and
otherwise mean nothing. -/
theorem Token.forall₂_alike_scan_append (hbs : ∀ c ∈ bs, isBlank c = true) (r : Token.Reading)
    (cs : List Char) :
    List.Forall₂ Token.Alike (Token.scan r cs) (Token.scan r (cs ++ bs)) := by
  have hsame (ts : List Token) : List.Forall₂ Token.Alike ts ts :=
    List.forall₂_same.2 fun t _ => by cases t <;> constructor; rfl
  have hgap : Token.scan .gap bs = [] := by
    induction bs with
    | nil => rfl
    | cons c bs ih =>
      rw [List.forall_mem_cons] at hbs
      rw [Token.scan, if_pos hbs.1, ih hbs.2]
  induction r, cs using Token.scan.induct with
  | case1 =>
    rw [List.nil_append, hgap]
    exact .nil
  | case2 read =>
    have hends : Token.EndsWord bs := fun c hc => .inl (hbs c (List.mem_of_mem_head? hc))
    rw [List.nil_append, Token.scan_word_of_endsWord hends, hgap]
    exact hsame _
  | case3 read =>
    have hquote : '"' ∉ bs := fun hmem => absurd (hbs _ hmem) (by decide)
    have hread := Token.scan_quoted hquote read []
    rw [List.append_nil] at hread
    rw [List.nil_append, hread]
    exact .cons (.quoted _ _) .nil
  | case4 c cs hc ih => simpa only [List.cons_append, Token.scan, if_pos hc] using ih
  | case5 cs hc ih => simpa only [List.cons_append, Token.scan, if_neg hc, if_pos] using ih
  | case6 c cs hc hquote ih =>
    simpa only [List.cons_append, Token.scan, if_neg hc, if_neg hquote] using ih
  | case7 read c cs hc ih =>
    simpa only [List.cons_append, Token.scan, if_pos hc] using .cons (.word rfl) ih
  | case8 read cs hc ih =>
    simpa only [List.cons_append, Token.scan, if_neg hc, if_pos] using .cons (.word rfl) ih
  | case9 read c cs hc hquote ih =>
    simpa only [List.cons_append, Token.scan, if_neg hc, if_neg hquote] using ih
  | case10 read cs ih =>
    simpa only [List.cons_append, Token.scan, if_pos] using .cons (.quoted _ _) ih
  | case11 read c cs hquote ih =>
    simpa only [List.cons_append, Token.scan, if_neg hquote] using ih

/-- A line spells tokens that are alike without the blanks at its end. -/
theorem lineAlike_trimRight (l : List Char) : LineAlike (trimRight l) l := by
  obtain ⟨bs, hbs, hl⟩ := Text.exists_eq_trimRight_append l
  have halike := Token.forall₂_alike_scan_append hbs .gap (trimRight l)
  rw [← hl] at halike
  exact lineAlike_iff.2 halike

namespace Record

variable {r r' : Record} {rs rs' : List Record} {text text' : String}

/-- A line holds a record exactly if it does without the blanks at its end. -/
theorem isRecordLine_trimRight (l : List Char) : isRecordLine (trimRight l) = isRecordLine l := by
  obtain ⟨bs, hbs, hl⟩ := Text.exists_eq_trimRight_append l
  have hnone : bs.dropWhile isBlank = [] := List.dropWhile_eq_nil_iff.2 hbs
  generalize trimRight l = front at hl ⊢
  subst hl
  rw [isRecordLine, isRecordLine, List.dropWhile_append, hnone]
  cases front.dropWhile isBlank <;> rfl

/-- A line that holds a record is more than blanks. -/
theorem trimRight_ne_nil (h : isRecordLine l = true) : trimRight l ≠ [] := by
  intro hnil
  rw [← isRecordLine_trimRight, hnil] at h
  cases h

/-- Two records show the same text and are of the same kind. -/
structure SameRaw (r r' : Record) : Prop where
  text_eq : r.text = r'.text
  kind_eq : r.kind = r'.kind

/-- Records are related if their lines are. -/
theorem forall₂_ofText {R : Record → Record → Prop} {S : List Char → List Char → Prop}
    (hR : ∀ l l' number number', S l l' → R (ofLine number l) (ofLine number' l'))
    (h : List.Forall₂ S (linesOf text) (linesOf text')) :
    List.Forall₂ R (ofText text) (ofText text') := by
  rw [← map_fst_recordLines, ← map_fst_recordLines, List.forall₂_map_left_iff,
    List.forall₂_map_right_iff] at h
  rw [ofText, ofText, List.forall₂_map_left_iff, List.forall₂_map_right_iff]
  exact h.imp fun _ _ hlines => hR _ _ _ _ hlines

/-- The text of records that are written again. -/
theorem toList_intercalate_ofText (text : String) :
    ("\n".intercalate ((ofText text).map Record.text)).toList =
      ['\n'].intercalate ((linesOf text).map trimRight) := by
  rw [String.toList_intercalate, ← map_fst_recordLines, ofText, List.map_map, List.map_map,
    List.map_map]
  congr 1
  exact List.map_congr_left fun l _ => String.toList_ofList

/-- The lines of records that are written again are those that they were read from, without the
blanks at their ends. -/
theorem linesOf_text (text : String) :
    linesOf ("\n".intercalate ((ofText text).map Record.text)) = (linesOf text).map trimRight := by
  have hrecord : ∀ l ∈ linesOf text, l ∈ Text.lines text.toList ∧ isRecordLine l = true :=
    fun l hl => List.mem_filter.1 hl
  have hlines : Text.lines (['\n'].intercalate ((linesOf text).map trimRight)) =
      (linesOf text).map trimRight := by
    refine Text.lines_intercalate (List.forall_mem_map.2 fun l hl => ?_)
      (List.forall_mem_map.2 fun l hl hfeed => ?_) (List.forall_mem_map.2 fun l hl => ?_)
    · exact trimRight_ne_nil (hrecord l hl).2
    · exact Text.not_mem_of_mem_lines (hrecord l hl).1 ((Text.trimRight_isPrefix l).subset hfeed)
    · exact Text.getLast?_trimRight_ne (by decide)
  rw [linesOf, toList_intercalate_ofText, hlines, List.filter_eq_self]
  exact List.forall_mem_map.2 fun l hl => by rw [isRecordLine_trimRight, (hrecord l hl).2]

/-- Records that are written again show the same texts and are of the same kinds. -/
theorem forall₂_sameRaw_ofText (text : String) :
    List.Forall₂ SameRaw (ofText ("\n".intercalate ((ofText text).map Record.text)))
      (ofText text) := by
  refine forall₂_ofText (S := fun l l' => l = trimRight l')
    (fun l l' number number' hl => ?_) ?_
  · have halike : (ofLine number l).Alike (ofLine number' l') := by
      rw [hl]
      exact lineAlike_iff.1 (lineAlike_trimRight l')
    refine ⟨?_, halike.kind_eq⟩
    rw [ofLine, ofLine, hl, Text.trimRight_trimRight]
  · rw [linesOf_text, List.forall₂_map_left_iff, List.forall₂_same]
    exact fun _ _ => rfl

/-- Records that are written again are alike. -/
theorem forall₂_alike_ofText (text : String) :
    List.Forall₂ Alike (ofText ("\n".intercalate ((ofText text).map Record.text)))
      (ofText text) := by
  rw [forall₂_alike_iff, linesOf_text, List.forall₂_map_left_iff, List.forall₂_same]
  exact fun l _ => lineAlike_trimRight l

end Record

/-! ## Decks -/

/-- The records of a deck as they are written again: each shows its text on a line. -/
def Sections.text (s : Sections) : String := "\n".intercalate (s.records.map Record.text)

/-- Lists that are related entry by entry are so part by part, if the first parts are of one
length. -/
theorem forall₂_of_forall₂_append {α β : Type} {R : α → β → Prop} {as as' : List α}
    {bs bs' : List β} (hlength : as.length = bs.length)
    (h : List.Forall₂ R (as ++ as') (bs ++ bs')) :
    List.Forall₂ R as bs ∧ List.Forall₂ R as' bs' := by
  have hfront := List.forall₂_take as.length h
  have hback := List.forall₂_drop as.length h
  rw [List.take_left, hlength, List.take_left] at hfront
  rw [List.drop_left, hlength, List.drop_left] at hback
  exact ⟨hfront, hback⟩

/-- A deck that was read can be written again, record by record. What is written is read as a deck
with the same mesh, whose sections have the same records, up to the numbers of their lines: they
show the same texts and are of the same kinds. -/
theorem ofText_text_again {text : String} {d : Deck} (h : ofText text = .ok d) :
    ∃ d', ofText d.toSections.text = .ok d' ∧ d'.mesh = d.mesh ∧
      List.Forall₂ Record.SameRaw d'.header d.header ∧
      d'.components.SameRaw d.components ∧
      List.Forall₂ Record.SameRaw d'.nodes d.nodes ∧
      List.Forall₂ Record.SameRaw d'.elements d.elements ∧
      List.Forall₂ Record.SameRaw d'.trailer d.trailer := by
  obtain ⟨-, hrecords, -⟩ := ofText_eq_ok_iff.1 h
  have hraw := Record.forall₂_sameRaw_ofText text
  have houtcome := sameOutcome_of_alike (Record.forall₂_alike_ofText text)
  rw [h, hrecords] at houtcome
  rw [hrecords] at hraw
  change List.Forall₂ Record.SameRaw (Record.ofText d.toSections.text) d.records at hraw
  change SameOutcome SameContent (ofText d.toSections.text) (.ok d) at houtcome
  generalize hagain : ofText d.toSections.text = again at houtcome
  cases houtcome with
  | @ok d' _ hcontent =>
    -- The sections have the lengths of the first ones, so that their records face each other.
    obtain ⟨-, hrecords', -⟩ := ofText_eq_ok_iff.1 hagain
    rw [hrecords', Sections.records, Sections.records] at hraw
    obtain ⟨hheader, hrest⟩ := forall₂_of_forall₂_append hcontent.header_length hraw
    obtain ⟨hcomponents, hrest⟩ := List.forall₂_cons.1 hrest
    rw [List.append_assoc, List.append_assoc] at hrest
    obtain ⟨hnodes, hrest⟩ := forall₂_of_forall₂_append hcontent.nodes_length hrest
    obtain ⟨helements, htrailer⟩ := forall₂_of_forall₂_append hcontent.elements_length hrest
    exact ⟨d', rfl, hcontent.mesh_eq, hheader, hcomponents, hnodes, helements, htrailer⟩

/-- A deck with a comment, quotes that are not closed, and stray blanks and line ends. -/
def raggedDeck : String :=
  "out \"a file \r\n# comment\n\tNDofMan 2 nElem 1\r\r\nnode 1\rcoords \"  \nNode 2 \r\n\n" ++
    "truss1d 1 nodes 2 1 2 \"\t\nmat \r"

/-- What is written of its records. -/
def raggedDeckAgain : String :=
  "out \"a file\n\tNDofMan 2 nElem 1\nnode 1\rcoords \"\nNode 2\ntruss1d 1 nodes 2 1 2 \"\nmat"

/-- The ragged deck is read, and so is what is written of it. -/
theorem ofText_text_again_ragged :
    ∃ d, ofText raggedDeck = .ok d ∧ d.toSections.text = raggedDeckAgain ∧
      ∃ d', ofText d.toSections.text = .ok d' ∧ d'.mesh = d.mesh ∧
        List.Forall₂ Record.SameRaw d'.header d.header ∧
        d'.components.SameRaw d.components ∧
        List.Forall₂ Record.SameRaw d'.nodes d.nodes ∧
        List.Forall₂ Record.SameRaw d'.elements d.elements ∧
        List.Forall₂ Record.SameRaw d'.trailer d.trailer := by
  have hwritten : (ofText raggedDeck).map (·.toSections.text) = .ok raggedDeckAgain := by
    decide +kernel
  obtain ⟨d, hd, htext⟩ := map_eq_ok_iff.1 hwritten
  exact ⟨d, hd, htext, ofText_text_again hd⟩

end Deck

end MeshPartition
