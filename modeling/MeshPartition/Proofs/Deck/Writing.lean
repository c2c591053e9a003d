import MeshPartition.Deck.Outline
import MeshPartition.Proofs.Deck.Sections
import MeshPartition.Proofs.Deck.Token
import MeshPartition.Proofs.Text.Numeral
import Mathlib.Data.List.Perm.Subperm

/-!
# Reading inverts writing

A deck that is written from an outline is read as the mesh of the outline, with nothing before or
after its sections (`Deck.ofText_text`).

The proof starts with the text: each line is read as one record, which has the words of the line as
its tokens (`Record.tokens_ofText_textOfLines`). Then it goes through the accessors of such a record
(`Line.IsReadAs`). A keyword is found where it stands, since a numeral never is one
(`foldCase_repr_ne`), and the numbers after it are read back, since they fit in 64 bits; lists of
distinct ids are short enough for that (`GlobalId.length_lt_of_nodup`). So the records describe the
nodes and elements of the outline (`NodeEntry.describesNode`, `Outline.describesElement`).
-/

namespace MeshPartition

/-- Lists of distinct ids are short enough for their lengths to be written. -/
theorem GlobalId.length_lt_of_nodup {ids : List GlobalId} (h : ids.Nodup) :
    ids.length < UInt64.size := by
  have hnumbers : (ids.map GlobalId.toNat).Nodup :=
    h.map fun _ _ => GlobalId.toNat_injective
  have hrange : ids.map GlobalId.toNat ⊆ List.range' 1 (UInt64.size - 1) := by
    intro n hn
    obtain ⟨id, -, rfl⟩ := List.mem_map.1 hn
    have hpos := id.pos
    have hlt := id.lt
    rw [List.mem_range'_1]
    omega
  have hlength := (hnumbers.subperm hrange).length_le
  rw [List.length_map, List.length_range'] at hlength
  have hsize : 0 < UInt64.size := by decide
  omega

namespace Deck

open Token (IsWord EndsWord Spells)

/-! ## Lines of words -/

/-- A line that starts with a word holds a record, unless it is a comment. -/
theorem Record.isRecordLine_append {w : List Char} (hw : IsWord w) (hhash : w.head? ≠ some '#')
    (cs : List Char) : Record.isRecordLine (w ++ cs) = true := by
  obtain ⟨c, w, rfl⟩ := List.exists_cons_of_ne_nil hw.ne_nil
  have hblank : ¬ Text.isBlank c = true := by simp [hw.not_blank c List.mem_cons_self]
  have hc : c ≠ '#' := by simpa using hhash
  rw [isRecordLine, List.cons_append, List.dropWhile_cons_of_neg hblank]
  simp [hc]

/-- A line of words with blanks between them. -/
def lineOf (words : List String) : List Char := (" ".intercalate words).toList

variable {w kind keyword : String} {words rest : List String}

theorem lineOf_cons (w : String) (words : List String) :
    lineOf (w :: words) = w.toList ++ words.flatMap fun w' => ' ' :: w'.toList := by
  induction words generalizing w with
  | nil => simp [lineOf]
  | cons w' words ih =>
    have hstep : lineOf (w :: w' :: words) = w.toList ++ ' ' :: lineOf (w' :: words) := by
      simp [lineOf, String.toList_intercalate]
    rw [hstep, ih, List.flatMap_cons, List.cons_append]

/-- What follows a word of a line ends it. -/
theorem endsWord_flatMap (words : List String) :
    EndsWord (words.flatMap fun w => ' ' :: w.toList) := by
  cases words with
  | nil => exact nofun
  | cons w words => exact fun c hc => .inl (by cases hc; decide)

/-- A line of words spells them. -/
theorem spells_lineOf (h : ∀ w' ∈ w :: words, IsWord w'.toList) :
    Spells ((w :: words).map .word) (lineOf (w :: words)) := by
  rw [lineOf_cons]
  induction words generalizing w with
  | nil =>
    rw [List.forall_mem_singleton] at h
    simpa using Spells.word w.toList h (by simp [EndsWord]) .nil
  | cons w' words ih =>
    rw [List.forall_mem_cons] at h
    have hrest := Spells.blank ' ' (by decide) (ih h.2)
    simpa using Spells.word w.toList h.1 (endsWord_flatMap (w' :: words)) hrest

/-- The kind and the keyword of a line are words, and the line is no comment. -/
structure Line.Writable (l : Line) : Prop where
  isWord_kind : IsWord l.kind.toList
  head?_kind : l.kind.toList.head? ≠ some '#'
  isWord_keyword : ∀ w ∈ l.keyword?, IsWord w.toList

theorem isWord_repr (n : ℕ) : IsWord n.repr.toList where
  ne_nil := by
    rw [Nat.toList_repr]
    exact Nat.toDigits_ne_nil
  not_blank _ hc := Text.isBlank_of_isDigit (Text.isDigit_of_mem_repr hc)
  not_quote hmem := absurd (Text.isDigit_of_mem_repr hmem) (by decide)

variable {l : Line} {lines : List Line}

/-- What is written on a line are words. -/
theorem Line.Writable.isWord (h : l.Writable) : ∀ w ∈ l.words, IsWord w.toList := by
  unfold Line.words
  rw [List.forall_mem_cons, List.forall_mem_cons, List.forall_mem_append, List.forall_mem_map]
  exact ⟨h.isWord_kind, isWord_repr _, fun w hw => h.isWord_keyword w (Option.mem_toList.1 hw),
    fun n _ => isWord_repr n⟩

/-- A line that is written is read as its words. -/
theorem ofLine_lineOf (h : l.Writable) : Token.ofLine (lineOf l.words) = l.words.map .word :=
  (spells_lineOf h.isWord).ofLine_eq

/-- A line that is written is a record. -/
theorem isRecordLine_lineOf (h : l.Writable) : Record.isRecordLine (lineOf l.words) = true := by
  rw [Line.words, lineOf_cons]
  exact Record.isRecordLine_append h.isWord_kind h.head?_kind _

/-- A line that is written holds no blanks but those between its words. -/
theorem not_mem_lineOf (h : l.Writable) {c : Char} (hblank : Text.isBlank c = true)
    (hc : c ≠ ' ') : c ∉ lineOf l.words := by
  have hword : ∀ w ∈ l.words, c ∉ w.toList := fun w hw hmem => by
    rw [(h.isWord w hw).not_blank c hmem] at hblank
    cases hblank
  unfold Line.words at hword ⊢
  rw [List.forall_mem_cons] at hword
  rw [lineOf_cons, List.mem_append, List.mem_flatMap, not_or]
  refine ⟨hword.1, ?_⟩
  rintro ⟨w, hw, hmem⟩
  rcases List.mem_cons.1 hmem with rfl | hmem
  · exact hc rfl
  · exact hword.2 w hw hmem

/-- The lines of a text are read as records that have the words of the lines as their tokens. -/
theorem Record.tokens_ofText_textOfLines (h : ∀ l ∈ lines, l.Writable) :
    (ofText (textOfLines lines)).map tokens = lines.map fun l => l.words.map .word := by
  have htext : (textOfLines lines).toList =
      (lines.map fun l => lineOf l.words).flatMap (· ++ ['\n']) := by
    rw [textOfLines, String.toList_join, List.flatMap_map, List.flatMap_map]
    simp [lineOf]
  -- Line ends are blanks, and the blanks of a line are spaces.
  have hfree {c : Char} (hblank : Text.isBlank c = true) (hc : c ≠ ' ') :
      ∀ cs ∈ lines.map fun l => lineOf l.words, c ∉ cs :=
    List.forall_mem_map.2 fun l hl => not_mem_lineOf (h l hl) hblank hc
  have hlines : Text.lines (textOfLines lines).toList = lines.map fun l => lineOf l.words := by
    rw [htext]
    exact Text.lines_flatMap (hfree (by decide) (by decide)) fun cs hcs hlast =>
      hfree (c := '\r') (by decide) (by decide) cs hcs (List.mem_of_getLast? hlast)
  have hrecords : ∀ cs ∈ lines.map fun l => lineOf l.words, isRecordLine cs = true :=
    List.forall_mem_map.2 fun l hl => isRecordLine_lineOf (h l hl)
  rw [map_tokens_ofText, linesOf, hlines, List.filter_eq_self.2 hrecords, List.map_map]
  exact List.map_congr_left fun l hl => ofLine_lineOf (h l hl)

/-! ## Reading a line -/

/-- The text is no numeral, in any case. -/
def NotNumeral (keyword : String) : Prop := (foldCase keyword).toList.all Char.isDigit = false

instance (keyword : String) : Decidable (NotNumeral keyword) :=
  inferInstanceAs (Decidable (_ = false))

theorem foldCase_repr_ne (h : NotNumeral keyword) (n : ℕ) : foldCase n.repr ≠ foldCase keyword := by
  intro heq
  obtain ⟨c, hc, hdigit⟩ := List.all_eq_false.1 h
  rw [← heq, foldCase, String.toList_ofList] at hc
  obtain ⟨d, hd, rfl⟩ := List.mem_map.1 hc
  rw [Text.isDigit_toLower] at hdigit
  exact hdigit (Text.isDigit_of_mem_repr hd)

/-- A record has the words of a line. -/
def Line.IsReadAs (l : Line) (r : Record) : Prop := r.tokens = l.words.map .word

namespace Line.IsReadAs

variable {α : Type} {read : String → Option α} {a : α} {r : Record} {number n : ℕ} {ns : List ℕ}
  {keyword? : Option String}

theorem kind_eq (h : IsReadAs ⟨kind, number, keyword?, ns⟩ r) : r.kind = foldCase kind := by
  rw [Record.kind, h]
  rfl

theorem wordAt?_eq (h : l.IsReadAs r) (i : ℕ) : r.wordAt? read i = l.words[i]?.bind read := by
  rw [Record.wordAt?, h, List.getElem?_map]
  cases l.words[i]? <;> rfl

theorem position?_eq (h : l.IsReadAs r) :
    r.position? keyword = l.words.findIdx? (foldCase · = foldCase keyword) := by
  rw [Record.position?, h, List.findIdx?_map]
  rfl

/-- The number of a line is read back. -/
theorem number_eq (h : l.IsReadAs r) (hn : l.number < UInt64.size) : r.number = .ok l.number := by
  rw [Record.number, Record.wordAt, h.wordAt?_eq, Line.words, List.getElem?_cons_succ,
    List.getElem?_cons_zero, Option.bind_some, Text.unsigned?_repr hn]

/-- The number of a line is the value of its kind, where this is taken for a keyword. -/
theorem value_kind_eq (h : IsReadAs ⟨kind, number, keyword?, ns⟩ r)
    (hkind : foldCase kind = foldCase keyword) (hn : number < UInt64.size) :
    r.value Text.unsigned? keyword = .ok number := by
  have hposition : r.position? keyword = some 0 := by
    rw [h.position?_eq, Line.words]
    exact List.findIdx?_cons.trans (if_pos (decide_eq_true hkind))
  have hword : r.wordAt Text.unsigned? 1 keyword = .ok number := by
    simp [Record.wordAt, h.wordAt?_eq, Line.words, Text.unsigned?_repr hn]
  rw [Record.value, Record.optionalValue, hposition]
  exact bind_eq_ok_iff.2 ⟨some number, map_eq_ok_iff.2 ⟨number, hword, rfl⟩, rfl⟩

/-- Nothing but the kind of a line and its keyword is found as a keyword. -/
theorem position?_eq_none (h : IsReadAs ⟨kind, number, keyword?, ns⟩ r) (keyword : String)
    (hkeyword : NotNumeral keyword)
    (hne : ∀ w ∈ kind :: keyword?.toList, foldCase w ≠ foldCase keyword) :
    r.position? keyword = none := by
  have hnumeral := foldCase_repr_ne hkeyword
  rw [List.forall_mem_cons] at hne
  have hwords : ∀ w ∈ Line.words ⟨kind, number, keyword?, ns⟩, foldCase w ≠ foldCase keyword := by
    unfold Line.words
    rw [List.forall_mem_cons, List.forall_mem_cons, List.forall_mem_append, List.forall_mem_map]
    exact ⟨hne.1, hnumeral number, hne.2, fun n _ => hnumeral n⟩
  rw [h.position?_eq, List.findIdx?_eq_none_iff]
  exact fun w hw => decide_eq_false (hwords w hw)

/-- The keyword of a line is found. -/
theorem position?_eq_two (h : IsReadAs ⟨kind, number, some keyword, ns⟩ r)
    (hkeyword : NotNumeral keyword) (hkind : foldCase kind ≠ foldCase keyword) :
    r.position? keyword = some 2 := by
  rw [h.position?_eq, Line.words]
  simp [List.findIdx?_cons, hkind, foldCase_repr_ne hkeyword]

/-- The number after the keyword of a line is read back. -/
theorem optionalValue_eq (h : IsReadAs ⟨kind, number, some keyword, [n]⟩ r)
    (hkeyword : NotNumeral keyword) (hkind : foldCase kind ≠ foldCase keyword)
    (hread : read n.repr = some a) : r.optionalValue read keyword = .ok (some a) := by
  rw [Record.optionalValue, h.position?_eq_two hkeyword hkind]
  simp [Record.wordAt, h.wordAt?_eq, Line.words, hread, Except.map]

/-- Numerals are read back. -/
theorem readWords_repr (h : ∀ n ∈ ns, n < UInt64.size) :
    Record.readWords Text.unsigned? ns.length ((ns.map Nat.repr).map .word) = some ns := by
  induction ns with
  | nil => rfl
  | cons n ns ih =>
    rw [List.forall_mem_cons] at h
    rw [List.length_cons, List.map_cons, List.map_cons, Record.readWords, Token.word?,
      Option.bind_some, Text.unsigned?_repr h.1, ih h.2]
    rfl

/-- The ids after the keyword of a line are read back. -/
theorem optionalList_eq {ids : List GlobalId}
    (h : IsReadAs ⟨kind, number, some keyword, listNumbers ids⟩ r)
    (hkeyword : NotNumeral keyword) (hkind : foldCase kind ≠ foldCase keyword)
    (hlength : ids.length < UInt64.size) :
    r.optionalList Text.unsigned? keyword = .ok (some (ids.map GlobalId.toNat)) := by
  have hcount : r.wordAt Text.unsigned? 3 keyword = .ok ids.length := by
    simp [Record.wordAt, h.wordAt?_eq, Line.words, listNumbers, Text.unsigned?_repr hlength]
  have hrest : r.tokens.drop 4 = ((ids.map GlobalId.toNat).map Nat.repr).map .word := by
    rw [h]
    rfl
  have hlt : ∀ n ∈ ids.map GlobalId.toNat, n < UInt64.size :=
    List.forall_mem_map.2 fun id _ => id.lt
  have hread := readWords_repr hlt
  rw [List.length_map] at hread
  rw [Record.optionalList, h.position?_eq_two hkeyword hkind]
  refine bind_eq_ok_iff.2 ⟨_, hcount, ?_⟩
  rw [hrest, hread]
  rfl

end Line.IsReadAs

/-! ## Constraints -/

namespace Record

variable {r : Record} {ids : List GlobalId}

theorem maskedMasters_of_position? (h : r.position? "mastermask" = none) :
    r.maskedMasters = .ok none := by
  rw [maskedMasters, optionalList, h]
  rfl

/-- Without a mask and a list of masters, the kind of a record decides. -/
theorem constraint_eq_kindConstraint (hmask : r.position? "mastermask" = none)
    (hlist : r.position? "masterdofman" = none) (hkind : r.kind ≠ "slavenode") :
    r.constraint = r.kindConstraint := by
  have hlisted : r.listedMasters = .ok none := by
    rw [listedMasters, optionalList, hlist]
    exact if_neg hkind
  rw [constraint, maskedMasters_of_position? hmask, hlisted]
  split <;> rfl

/-- Without a mask, the listed masters are the constraint. -/
theorem constraint_eq_explicitMasters (hmask : r.position? "mastermask" = none)
    (hlist : r.optionalList Text.unsigned? "masterdofman" = .ok (some (ids.map GlobalId.toNat)))
    (hids : ids.Nodup) : r.constraint = .ok (some (.explicitMasters ids)) := by
  have hlisted : r.listedMasters = .ok (some (ids.map GlobalId.toNat)) := by
    rw [listedMasters, hlist]
    change Except.ok (some (distinct (ids.map GlobalId.toNat))) = _
    rw [distinct_eq_self (hids.map fun _ _ => GlobalId.toNat_injective)]
  have hread : r.globalIds "masterdofman" (ids.map GlobalId.toNat) = .ok ids :=
    globalIds_eq_ok_iff.2 rfl
  rw [constraint, maskedMasters_of_position? hmask, hlisted]
  split <;> exact bind_eq_ok_iff.2 ⟨_, rfl, bind_eq_ok_iff.2 ⟨_, rfl,
    bind_eq_ok_iff.2 ⟨_, hread, rfl⟩⟩⟩

theorem kindConstraint_of_rigidArm {master : GlobalId} (hkind : r.kind = "rigidarmnode")
    (hmaster : r.optionalValue Text.unsigned? "master" = .ok (some master.toNat)) :
    r.kindConstraint = .ok (some (.rigidArm [master])) := by
  have hread : r.globalIds "master" [master.toNat] = .ok [master] := globalIds_eq_ok_iff.2 rfl
  rw [kindConstraint, if_pos hkind, value, hmaster]
  exact bind_eq_ok_iff.2 ⟨_, rfl, bind_eq_ok_iff.2 ⟨_, hread, rfl⟩⟩

theorem kindConstraint_of_hanging {host : Option ℤ} (hkind : r.kind = "hangingnode")
    (hhost : r.optionalValue Text.signed? "masterelement" = .ok host) :
    r.kindConstraint =
      .ok (some (.hangingOnElement (host.bind fun n => GlobalId.ofNat? n.toNat))) := by
  rw [kindConstraint, if_neg (by rw [hkind]; decide), if_pos hkind, hhost]
  rfl

theorem kindConstraint_of_ne (hrigidArm : r.kind ≠ "rigidarmnode")
    (hhanging : r.kind ≠ "hangingnode") : r.kindConstraint = .ok none := by
  rw [kindConstraint, if_neg hrigidArm, if_neg hhanging]
  rfl

end Record

/-- A line that lists no masters leaves the constraint to its kind. -/
theorem Line.IsReadAs.constraint_eq_kindConstraint {r : Record} {number : ℕ}
    {keyword? : Option String} {ns : List ℕ} (h : IsReadAs ⟨kind, number, keyword?, ns⟩ r)
    (hkind : foldCase kind ≠ "slavenode")
    (hmask : ∀ w ∈ kind :: keyword?.toList, foldCase w ≠ foldCase "mastermask")
    (hlist : ∀ w ∈ kind :: keyword?.toList, foldCase w ≠ foldCase "masterdofman") :
    r.constraint = r.kindConstraint :=
  Record.constraint_eq_kindConstraint (h.position?_eq_none "mastermask" (by decide) hmask)
    (h.position?_eq_none "masterdofman" (by decide) hlist) (h.kind_eq ▸ hkind)

/-! ## Decks -/

variable {r : Record} {o : Outline}

theorem NodeEntry.line_number (n : NodeEntry) : n.line.number = n.id.toNat := by
  unfold NodeEntry.line
  split <;> rfl

theorem NodeEntry.writable_line (n : NodeEntry) : n.line.Writable := by
  unfold NodeEntry.line
  -- Kinds and keywords are given, whatever the numbers are.
  split <;> constructor <;> dsimp only <;> decide

theorem ElementEntry.writable_line (e : ElementEntry) : e.line.Writable := by
  constructor <;> dsimp only [ElementEntry.line] <;> decide

/-- What is written in a deck are lines. -/
theorem Outline.writable_of_mem (o : Outline) : ∀ l ∈ o.lines, l.Writable := by
  rw [Outline.lines, List.forall_mem_cons, List.forall_mem_append, List.forall_mem_map,
    List.forall_mem_map]
  refine ⟨?_, fun n _ => n.writable_line, fun e _ => e.writable_line⟩
  constructor <;> dsimp only [Outline.announcement] <;> decide

/-- A constraint is read back. -/
theorem NodeEntry.constraint_eq (n : NodeEntry) (h : n.line.IsReadAs r) :
    r.constraint = .ok n.tie.constraint := by
  obtain ⟨id, tie⟩ := n
  cases tie with
  | free =>
    have hkind : r.kind = "node" := h.kind_eq.trans (by decide)
    rw [h.constraint_eq_kindConstraint (by decide) (by decide) (by decide)]
    exact Record.kindConstraint_of_ne (by rw [hkind]; decide) (by rw [hkind]; decide)
  | slave masters hmasters =>
    -- The list is read before the kind of the record counts.
    have hmask := h.position?_eq_none "mastermask" (by decide) (by decide)
    have hlist := h.optionalList_eq (by decide) (by decide) (GlobalId.length_lt_of_nodup hmasters)
    exact Record.constraint_eq_explicitMasters hmask hlist hmasters
  | rigidArm master =>
    have hmaster := h.optionalValue_eq (by decide) (by decide) (Text.unsigned?_repr master.lt)
    rw [h.constraint_eq_kindConstraint (by decide) (by decide) (by decide)]
    exact Record.kindConstraint_of_rigidArm (h.kind_eq.trans (by decide)) hmaster
  | hanging host hlt =>
    cases host with
    | none =>
      have hhost : r.optionalValue Text.signed? "masterelement" = .ok none := by
        rw [Record.optionalValue, h.position?_eq_none "masterelement" (by decide) (by decide)]
      rw [h.constraint_eq_kindConstraint (by decide) (by decide) (by decide)]
      exact Record.kindConstraint_of_hanging (h.kind_eq.trans (by decide)) hhost
    | some host =>
      have hhost := h.optionalValue_eq (by decide) (by decide) (Text.signed?_repr (hlt host rfl))
      rw [h.constraint_eq_kindConstraint (by decide) (by decide) (by decide),
        Record.kindConstraint_of_hanging (h.kind_eq.trans (by decide)) hhost]
      simp [Tie.constraint]

/-- A node is read back. -/
theorem NodeEntry.describesNode (n : NodeEntry) (h : n.line.IsReadAs r) :
    r.DescribesNode n.node where
  number_eq := n.line_number ▸ h.number_eq (n.line_number ▸ n.id.lt)
  constraint_eq := n.constraint_eq h

/-- An element is read back over the positions of its nodes. -/
theorem Outline.describesElement {e : ElementEntry} (he : e ∈ o.elements)
    (h : e.line.IsReadAs r) : r.DescribesElement o.mesh.nodes (o.element e) where
  number_eq := h.number_eq e.id.lt
  list_eq := by
    have hlist := h.optionalList_eq (by decide) (by decide) e.length_lt
    -- The list holds the ids of the nodes, and the element their positions.
    refine ⟨e.nodeIds, ?_, ?_⟩
    · rw [Record.list, hlist]
      rfl
    · rw [Outline.element, List.forall₂_map_right_iff, List.forall₂_same, Outline.mesh, map_id_node]
      exact fun id hid => getElem?_position (o.mem_nodes e he id hid)

/-- The sizes are read back. -/
theorem Outline.announces (h : o.announcement.IsReadAs r) :
    r.value Text.unsigned? "ndofman" = .ok o.nodes.length ∧
      r.value Text.unsigned? "nelem" = .ok o.elements.length := by
  have hnodes : o.nodes.length < UInt64.size := by
    rw [← List.length_map NodeEntry.id]
    exact GlobalId.length_lt_of_nodup o.nodeIds_nodup
  have helements : o.elements.length < UInt64.size := by
    rw [← List.length_map ElementEntry.id]
    exact GlobalId.length_lt_of_nodup o.elementIds_nodup
  have helement := h.optionalValue_eq (by decide) (by decide) (Text.unsigned?_repr helements)
  refine ⟨h.value_kind_eq (by decide) hnodes, ?_⟩
  rw [Record.value, helement]
  rfl

/-- Lists that agree entry by entry under two functions. -/
theorem forall₂_of_map_eq_map {α β γ : Type} {R : α → β → Prop} {f : α → γ} {g : β → γ}
    {as : List α} {bs : List β} (h : as.map f = bs.map g)
    (hR : ∀ a, ∀ b ∈ bs, f a = g b → R a b) : List.Forall₂ R as bs := by
  induction bs generalizing as with
  | nil => rw [List.map_eq_nil_iff.1 h]; exact .nil
  | cons b bs ih =>
    obtain ⟨a, as, rfl, ha, has⟩ := List.map_eq_cons_iff.1 h
    exact .cons (hR a b List.mem_cons_self ha)
      (ih has fun a b hb => hR a b (List.mem_cons_of_mem _ hb))

/-- A deck that is written from an outline is read as the mesh of the outline, with nothing before
and nothing after its sections. -/
theorem ofText_text (o : Outline) :
    ∃ d, ofText o.text = .ok d ∧ d.mesh = o.mesh ∧ d.header = [] ∧ d.trailer = [] := by
  have htokens := Record.tokens_ofText_textOfLines o.writable_of_mem
  rw [Outline.lines, List.map_cons, List.map_append, List.map_eq_cons_iff] at htokens
  obtain ⟨components, rest, hrecords, hcomponents, hrest⟩ := htokens
  obtain ⟨nodes, elements, rfl, hnodes, helements⟩ := List.map_eq_append_iff.1 hrest
  obtain ⟨hnodeCount, helementCount⟩ := Outline.announces hcomponents
  have hmesh : Sections.mesh ⟨[], components, nodes, elements, []⟩ = .ok o.mesh := by
    rw [List.map_map] at hnodes helements
    refine Sections.mesh_eq_ok_iff.2 ⟨List.forall₂_map_right_iff.2 ?_,
      List.forall₂_map_right_iff.2 ?_⟩
    · exact forall₂_of_map_eq_map hnodes fun r n _ h => n.describesNode h
    · exact forall₂_of_map_eq_map helements fun r e he h => Outline.describesElement he h
  have hnodesLength : nodes.length = o.nodes.length := by
    simpa using congrArg List.length hnodes
  have helementsLength : elements.length = o.elements.length := by
    simpa using congrArg List.length helements
  exact ⟨⟨⟨[], components, nodes, elements, []⟩, o.mesh⟩, ofText_eq_ok_iff.2
    ⟨⟨nofun, hnodesLength ▸ hnodeCount, helementsLength ▸ helementCount⟩,
      hrecords.trans (by simp [Sections.records]), hmesh⟩, rfl, rfl, rfl⟩

/-- The text of a deck with one slave node. -/
example : Outline.text
    { nodes := [⟨.nth 6, .slave [.nth 8] (by decide)⟩, ⟨.nth 8, .free⟩]
      elements := [⟨.nth 2, [.nth 6, .nth 8, .nth 6], by decide⟩]
      nodeIds_nodup := by decide
      elementIds_nodup := by decide
      mem_nodes := by decide } =
    "ndofman 2 nelem 1\nslavenode 7 masterdofman 1 9\nnode 9\ntruss1d 3 nodes 3 7 9 7\n" := by
  decide

end Deck

end MeshPartition
