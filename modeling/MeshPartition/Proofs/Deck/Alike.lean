import MeshPartition.Proofs.Deck.Sections
import MeshPartition.Proofs.Deck.Token
import MeshPartition.Proofs.Text.Numeral

/-!
# What reading looks at

Of a record, reading looks at the words, in any case, and at the places of quoted texts. Decks whose
records agree in that are read alike (`Deck.ofText_sameOutcome`): the meshes are equal and so are
the lengths of the sections, or both fail for the same cause. What an error shows of a record may
differ, and nothing else.

The relation of two outcomes is kept by everything that reading is made of (`SameOutcome.bind`).
So there is one statement for each function that reads a record, from `Record.Alike.wordAt` to
`Record.Alike.constraint`, and the same for records one by one, for sections and for decks.
-/

namespace MeshPartition

/-- Two errors are the same, up to the line and the text of the record in which a keyword is
missing. -/
inductive Error.SameCause : Error → Error → Prop
  | refl (e : Error) : SameCause e e
  | missingKeyword (keyword : String) (number number' : ℕ) (text text' : String) :
      SameCause (.missingKeyword keyword (.line number text))
        (.missingKeyword keyword (.line number' text'))

/-- Two runs both succeed, with results that are related, or both fail for the same cause. -/
inductive SameOutcome {α β : Type} (R : α → β → Prop) : Except Error α → Except Error β → Prop
  | ok {a : α} {b : β} (rel : R a b) : SameOutcome R (.ok a) (.ok b)
  | error {e e' : Error} (cause : e.SameCause e') : SameOutcome R (.error e) (.error e')

namespace SameOutcome

variable {α β γ δ : Type} {R : α → β → Prop} {S : γ → δ → Prop}

theorem refl (x : Except Error α) : SameOutcome Eq x x := by
  cases x with
  | ok a => exact .ok rfl
  | error e => exact .error (.refl e)

/-- Runs that start and go on alike are alike. -/
theorem bind {x : Except Error α} {y : Except Error β} {f : α → Except Error γ}
    {g : β → Except Error δ} (h : SameOutcome R x y)
    (hfg : ∀ a b, R a b → SameOutcome S (f a) (g b)) : SameOutcome S (x >>= f) (y >>= g) := by
  cases h with
  | ok rel => exact hfg _ _ rel
  | error cause => exact .error cause

/-- The same for runs that start with equal results. -/
theorem bind_eq {x y : Except Error α} {f : α → Except Error γ} {g : α → Except Error δ}
    (h : SameOutcome Eq x y) (hfg : ∀ a, SameOutcome S (f a) (g a)) :
    SameOutcome S (x >>= f) (y >>= g) :=
  h.bind fun a _ hab => hab ▸ hfg a

theorem map {x y : Except Error α} (h : SameOutcome Eq x y) (f : α → γ) :
    SameOutcome Eq (x.map f) (y.map f) := by
  cases h with
  | ok rel => exact .ok (congrArg f rel)
  | error cause => exact .error cause

end SameOutcome

namespace Deck

/-! ## Tokens -/

/-- Words that are equal up to case face each other, or quoted texts, whatever is in them. -/
inductive Token.Alike : Token → Token → Prop
  | word {w w' : String} (foldCase_eq : foldCase w = foldCase w') : Alike (.word w) (.word w')
  | quoted (s s' : String) : Alike (.quoted s) (.quoted s')

instance : DecidableRel Token.Alike
  | .word w, .word w' =>
    decidable_of_iff (foldCase w = foldCase w') ⟨.word, fun | .word h => h⟩
  | .quoted s, .quoted s' => .isTrue (.quoted s s')
  | .word _, .quoted _ => .isFalse nofun
  | .quoted _, .word _ => .isFalse nofun

/-- What a word is read as does not depend on its case. -/
def CaseBlind {α : Type} (read : String → Option α) : Prop := ∀ w, read (foldCase w) = read w

theorem caseBlind_unsigned? : CaseBlind Text.unsigned? := Text.unsigned?_toLower

theorem caseBlind_signed? : CaseBlind Text.signed? := Text.signed?_toLower

section Tokens

variable {α : Type} {read : String → Option α} {t t' : Token} {ts ts' : List Token}

/-- Words that are equal up to case are read alike. -/
theorem Token.Alike.read_eq (h : t.Alike t') (hread : CaseBlind read) :
    t.word?.bind read = t'.word?.bind read := by
  cases h with
  | @word w w' hw =>
    change read w = read w'
    rw [← hread w, hw, hread w']
  | quoted => rfl

theorem readWords_eq (h : List.Forall₂ Token.Alike ts ts') (hread : CaseBlind read) (count : ℕ) :
    Record.readWords read count ts = Record.readWords read count ts' := by
  induction h generalizing count with
  | nil => rfl
  | cons ht _ ih =>
    cases count with
    | zero => rfl
    | succ count => rw [Record.readWords, Record.readWords, ht.read_eq hread, ih]

end Tokens

/-! ## Records -/

/-- The tokens of two records are alike, one by one. -/
def Record.Alike (r r' : Record) : Prop := List.Forall₂ Token.Alike r.tokens r'.tokens

namespace Record.Alike

variable {α : Type} {read : String → Option α} {r r' : Record} {keyword : String}

theorem missing (keyword : String) : (r.missing keyword).SameCause (r'.missing keyword) :=
  .missingKeyword keyword _ _ _ _

theorem kind_eq (h : r.Alike r') : r.kind = r'.kind := by
  unfold Record.kind
  unfold Record.Alike at h
  generalize r.tokens = ts, r'.tokens = ts' at h ⊢
  cases h with
  | nil => rfl
  | cons ht _ =>
    cases ht with
    | word hw => exact hw
    | quoted => rfl

theorem position?_eq (h : r.Alike r') (keyword : String) :
    r.position? keyword = r'.position? keyword := by
  unfold Record.position?
  unfold Record.Alike at h
  generalize r.tokens = ts, r'.tokens = ts' at h ⊢
  induction h with
  | nil => rfl
  | cons ht _ ih =>
    rw [List.findIdx?_cons, List.findIdx?_cons, ih]
    cases ht with
    | word hw => simp [Token.word?, hw]
    | quoted => rfl

theorem has_eq (h : r.Alike r') (keyword : String) : r.has keyword = r'.has keyword := by
  rw [Record.has, h.position?_eq, Record.has]

theorem wordAt?_eq (h : r.Alike r') (hread : CaseBlind read) (i : ℕ) :
    r.wordAt? read i = r'.wordAt? read i := by
  unfold Record.wordAt?
  unfold Record.Alike at h
  generalize r.tokens = ts, r'.tokens = ts' at h ⊢
  induction h generalizing i with
  | nil => rfl
  | cons ht _ ih =>
    cases i with
    | zero => exact ht.read_eq hread
    | succ i => exact ih i

theorem wordAt (h : r.Alike r') (hread : CaseBlind read) (i : ℕ) (keyword : String) :
    SameOutcome Eq (r.wordAt read i keyword) (r'.wordAt read i keyword) := by
  rw [Record.wordAt, Record.wordAt, h.wordAt?_eq hread]
  cases r'.wordAt? read i with
  | some a => exact .ok rfl
  | none => exact .error (missing keyword)

theorem required (o : Option α) :
    SameOutcome Eq (r.required keyword o) (r'.required keyword o) := by
  cases o with
  | some a => exact .ok rfl
  | none => exact .error (missing keyword)

theorem optionalValue (h : r.Alike r') (hread : CaseBlind read) (keyword : String) :
    SameOutcome Eq (r.optionalValue read keyword) (r'.optionalValue read keyword) := by
  rw [Record.optionalValue, Record.optionalValue, h.position?_eq]
  cases r'.position? keyword with
  | none => exact .ok rfl
  | some i => exact (h.wordAt hread (i + 1) keyword).map some

theorem value (h : r.Alike r') (hread : CaseBlind read) (keyword : String) :
    SameOutcome Eq (r.value read keyword) (r'.value read keyword) :=
  (h.optionalValue hread keyword).bind_eq required

theorem optionalList (h : r.Alike r') (hread : CaseBlind read) (keyword : String) :
    SameOutcome Eq (r.optionalList read keyword) (r'.optionalList read keyword) := by
  rw [Record.optionalList, Record.optionalList, h.position?_eq]
  cases r'.position? keyword with
  | none => exact .ok rfl
  | some i =>
    refine (h.wordAt caseBlind_unsigned? (i + 1) keyword).bind_eq fun count => ?_
    rw [readWords_eq (List.forall₂_drop (i + 2) h) hread]
    cases readWords read count (r'.tokens.drop (i + 2)) with
    | some values => exact .ok rfl
    | none => exact .error (missing keyword)

theorem list (h : r.Alike r') (hread : CaseBlind read) (keyword : String) :
    SameOutcome Eq (r.list read keyword) (r'.list read keyword) :=
  (h.optionalList hread keyword).bind_eq required

theorem id (h : r.Alike r') : SameOutcome Eq r.id r'.id := by
  refine (h.wordAt caseBlind_unsigned? 1 "record number").bind_eq fun n => ?_
  cases GlobalId.ofNat? n with
  | some id => exact .ok rfl
  | none => exact .error (missing "record number")

theorem globalIds (keyword : String) (ns : List ℕ) :
    SameOutcome Eq (r.globalIds keyword ns) (r'.globalIds keyword ns) := by
  induction ns with
  | nil => exact .ok rfl
  | cons n ns ih =>
    rw [Record.globalIds, Record.globalIds]
    cases GlobalId.ofNat? n with
    | none => exact .error (missing keyword)
    | some id => exact ih.map (id :: ·)

/-! ### Constraints -/

theorem maskedMasters (h : r.Alike r') : SameOutcome Eq r.maskedMasters r'.maskedMasters := by
  refine (h.optionalList caseBlind_unsigned? "mastermask").bind_eq fun mask => ?_
  exact .refl _

theorem listedMasters (h : r.Alike r') : SameOutcome Eq r.listedMasters r'.listedMasters := by
  refine (h.optionalList caseBlind_unsigned? "masterdofman").bind_eq fun masters => ?_
  cases masters with
  | some masters => exact .ok rfl
  | none =>
    change SameOutcome Eq (if r.kind = _ then _ else _) (if r'.kind = _ then _ else _)
    rw [h.kind_eq]
    split
    · exact .error (missing "masterdofman")
    · exact .ok rfl

theorem kindConstraint (h : r.Alike r') : SameOutcome Eq r.kindConstraint r'.kindConstraint := by
  rw [Record.kindConstraint, Record.kindConstraint, h.kind_eq]
  split
  · exact (h.value caseBlind_unsigned? "master").bind_eq fun master =>
      (globalIds "master" [master]).bind_eq fun ids => .refl _
  · split
    · exact (h.optionalValue caseBlind_signed? "masterelement").bind_eq fun host => .refl _
    · exact .refl _

theorem constraint (h : r.Alike r') : SameOutcome Eq r.constraint r'.constraint := by
  rw [Record.constraint, Record.constraint, h.kind_eq]
  split
  -- A rigid arm has no mask, but what counts after the mask is the same for all kinds.
  all_goals
    refine SameOutcome.bind_eq (by first | exact h.maskedMasters | exact .refl _) fun masked => ?_
    cases masked with
    | some masters => exact (globalIds "mastermask" masters).bind_eq fun ids => .refl _
    | none =>
      refine h.listedMasters.bind_eq fun listed => ?_
      cases listed with
      | some masters => exact (globalIds "masterdofman" masters).bind_eq fun ids => .refl _
      | none => exact h.kindConstraint

end Record.Alike

/-! ## Decks -/

variable {r r' : Record} {rs rs' : List Record}

/-- What is read of the two records is the same, and so is what the mesh makes of it. -/
theorem addNode_sameOutcome (m : Mesh) (h : r.Alike r') :
    SameOutcome Eq (addNode m r) (addNode m r') :=
  h.id.bind_eq fun id => h.constraint.bind_eq fun c => .refl (m.addNode id c >>= _)

theorem addElement_sameOutcome (m : Mesh) (h : r.Alike r') :
    SameOutcome Eq (addElement m r) (addElement m r') :=
  h.id.bind_eq fun id => (h.list caseBlind_unsigned? "nodes").bind_eq fun nodes =>
    (Record.Alike.globalIds "nodes" nodes).bind_eq fun nodeIds =>
      .refl (m.addElement id nodeIds >>= _)

/-- Steps that are alike record by record are alike over all records. -/
theorem foldlM_sameOutcome {step : Mesh → Record → Except Error Mesh}
    (hstep : ∀ m r r', r.Alike r' → SameOutcome Eq (step m r) (step m r'))
    (h : List.Forall₂ Record.Alike rs rs') (m : Mesh) :
    SameOutcome Eq (rs.foldlM step m) (rs'.foldlM step m) := by
  induction h generalizing m with
  | nil => exact .refl _
  | cons hr _ ih =>
    rw [List.foldlM_cons, List.foldlM_cons]
    exact (hstep m _ _ hr).bind_eq ih

/-- The sections of two decks are alike, record by record. -/
structure Sections.Alike (s s' : Sections) : Prop where
  header : List.Forall₂ Record.Alike s.header s'.header
  components : s.components.Alike s'.components
  nodes : List.Forall₂ Record.Alike s.nodes s'.nodes
  elements : List.Forall₂ Record.Alike s.elements s'.elements
  trailer : List.Forall₂ Record.Alike s.trailer s'.trailer

theorem Sections.Alike.mesh {s s' : Sections} (h : s.Alike s') :
    SameOutcome Eq s.mesh s'.mesh :=
  (foldlM_sameOutcome (fun m _ _ => addNode_sameOutcome m) h.nodes Mesh.empty).bind_eq fun m =>
    foldlM_sameOutcome (fun m _ _ => addElement_sameOutcome m) h.elements m

theorem takeSection_sameOutcome (part : DeckSection) (count : ℕ)
    (h : List.Forall₂ Record.Alike rs rs') :
    SameOutcome
      (fun p p' => List.Forall₂ Record.Alike p.1 p'.1 ∧ List.Forall₂ Record.Alike p.2 p'.2)
      (takeSection part count rs) (takeSection part count rs') := by
  unfold takeSection
  rw [h.length_eq]
  split
  · exact .error (.refl _)
  · exact .ok ⟨List.forall₂_take count h, List.forall₂_drop count h⟩

/-- Lists that are related entry by entry begin alike, up to the first entry with a property that
related entries share. -/
theorem forall₂_span {α β : Type} {R : α → β → Prop} {p : α → Bool} {q : β → Bool} {as : List α}
    {bs : List β} (hpq : ∀ a b, R a b → p a = q b) (h : List.Forall₂ R as bs) :
    List.Forall₂ R (as.takeWhile p) (bs.takeWhile q) ∧
      List.Forall₂ R (as.dropWhile p) (bs.dropWhile q) := by
  induction h with
  | nil => exact ⟨.nil, .nil⟩
  | cons hab hrest ih =>
    rw [List.takeWhile_cons, List.takeWhile_cons, List.dropWhile_cons, List.dropWhile_cons,
      hpq _ _ hab]
    split
    · exact ⟨.cons hab ih.1, ih.2⟩
    · exact ⟨.nil, .cons hab hrest⟩

/-- Records that are alike are split alike. -/
theorem Sections.ofRecords_sameOutcome (h : List.Forall₂ Record.Alike rs rs') :
    SameOutcome Sections.Alike (ofRecords rs) (ofRecords rs') := by
  have hnot : ∀ r r' : Record, r.Alike r' → (!r.has "ndofman") = !r'.has "ndofman" :=
    fun r r' hr => congrArg (!·) (hr.has_eq "ndofman")
  -- The component records are at the same place, so the sections before and after it are alike.
  obtain ⟨hheader, hrest⟩ := forall₂_span hnot h
  unfold Sections.ofRecords
  dsimp only
  generalize rs.dropWhile (!·.has "ndofman") = rest, rs'.dropWhile (!·.has "ndofman") = rest' at *
  cases hrest with
  | nil => exact .error (.refl _)
  | cons hcomponents hrest =>
    refine (hcomponents.value caseBlind_unsigned? "ndofman").bind_eq fun nodeCount => ?_
    refine (hcomponents.value caseBlind_unsigned? "nelem").bind_eq fun elementCount => ?_
    refine (takeSection_sameOutcome .nodes nodeCount hrest).bind fun p p' hp => ?_
    refine (takeSection_sameOutcome .elements elementCount hp.2).bind fun q q' hq => ?_
    exact .ok ⟨hheader, hcomponents, hp.1, hq.1, hq.2⟩

/-- Two decks have the same mesh, and sections of the same lengths. -/
structure SameContent (d d' : Deck) : Prop where
  mesh_eq : d.mesh = d'.mesh
  header_length : d.header.length = d'.header.length
  nodes_length : d.nodes.length = d'.nodes.length
  elements_length : d.elements.length = d'.elements.length
  trailer_length : d.trailer.length = d'.trailer.length

/-- Two lines spell tokens that are alike. -/
def LineAlike (l l' : List Char) : Prop :=
  ∃ ts ts', Token.Spells ts l ∧ Token.Spells ts' l' ∧ List.Forall₂ Token.Alike ts ts'

theorem lineAlike_iff {l l' : List Char} :
    LineAlike l l' ↔ List.Forall₂ Token.Alike (Token.ofLine l) (Token.ofLine l') := by
  constructor
  · rintro ⟨ts, ts', hts, hts', h⟩
    rwa [hts.ofLine_eq, hts'.ofLine_eq]
  · exact fun h => ⟨_, _, Token.ofLine_eq_iff.1 rfl, Token.ofLine_eq_iff.1 rfl, h⟩

instance : DecidableRel LineAlike := fun _ _ => decidable_of_iff _ lineAlike_iff.symm

variable {text text' : String}

/-- Records are alike if their lines spell tokens that are alike. -/
theorem forall₂_alike_iff :
    List.Forall₂ Record.Alike (Record.ofText text) (Record.ofText text') ↔
      List.Forall₂ LineAlike (Record.linesOf text) (Record.linesOf text') := by
  have hlines := Record.map_tokens_ofText text
  have hlines' := Record.map_tokens_ofText text'
  calc List.Forall₂ Record.Alike (Record.ofText text) (Record.ofText text')
      ↔ List.Forall₂ (List.Forall₂ Token.Alike) ((Record.ofText text).map Record.tokens)
          ((Record.ofText text').map Record.tokens) := by
        rw [List.forall₂_map_left_iff, List.forall₂_map_right_iff]
        rfl
    _ ↔ List.Forall₂ (fun l l' => List.Forall₂ Token.Alike (Token.ofLine l) (Token.ofLine l'))
          (Record.linesOf text) (Record.linesOf text') := by
        rw [hlines, hlines', List.forall₂_map_left_iff, List.forall₂_map_right_iff]
    _ ↔ List.Forall₂ LineAlike (Record.linesOf text) (Record.linesOf text') := by
        simp only [← lineAlike_iff]

/-- Decks whose records are alike are read alike. -/
theorem sameOutcome_of_alike
    (h : List.Forall₂ Record.Alike (Record.ofText text) (Record.ofText text')) :
    SameOutcome SameContent (ofText text) (ofText text') := by
  refine (Sections.ofRecords_sameOutcome h).bind fun s s' hs => ?_
  refine hs.mesh.bind_eq fun m => ?_
  exact .ok ⟨rfl, hs.header.length_eq, hs.nodes.length_eq, hs.elements.length_eq,
    hs.trailer.length_eq⟩

/-- Decks whose records are alike, token by token, are read alike: either both are read, with the
same mesh and sections of the same lengths, or both fail for the same cause. So it makes no
difference which comments and blank lines a text has, which blanks stand around its tokens, in which
case its words are written and what its quoted texts say: it is enough that its other lines spell
tokens that are alike. -/
theorem ofText_sameOutcome (text text' : String) :
    (List.Forall₂ Record.Alike (Record.ofText text) (Record.ofText text') →
      SameOutcome SameContent (ofText text) (ofText text')) ∧
    (List.Forall₂ LineAlike (Record.linesOf text) (Record.linesOf text') →
      SameOutcome SameContent (ofText text) (ofText text')) :=
  ⟨sameOutcome_of_alike, fun h => sameOutcome_of_alike (forall₂_alike_iff.2 h)⟩

/-- A deck of one node and a bar on it. -/
def oneBar : String := "ndofman 1 nelem 1\nnode 1 \"a\"\ntruss1d 1 nodes 1 1\n"

/-- The same deck, written in another way. -/
def oneBarAgain : String :=
  "# a bar\nNDofMan 1\tnElem 1\r\n\n NODE 1\"b c\nTruss1D 1  nodes 1 1"

/-- The decks are read alike by either criterion, and they are read. -/
theorem ofText_sameOutcome_oneBar :
    (ofText oneBar).map (·.mesh.nodeCount) = .ok 1 ∧
    (List.Forall₂ Record.Alike (Record.ofText oneBar) (Record.ofText oneBarAgain) ∧
      SameOutcome SameContent (ofText oneBar) (ofText oneBarAgain)) ∧
    (List.Forall₂ LineAlike (Record.linesOf oneBar) (Record.linesOf oneBarAgain) ∧
      SameOutcome SameContent (ofText oneBar) (ofText oneBarAgain)) := by
  obtain ⟨hrecords, hlines⟩ := ofText_sameOutcome oneBar oneBarAgain
  have hspelled : List.Forall₂ LineAlike (Record.linesOf oneBar) (Record.linesOf oneBarAgain) := by
    decide +kernel
  have halike := forall₂_alike_iff.2 hspelled
  exact ⟨by decide +kernel, ⟨halike, hrecords halike⟩, hspelled, hlines hspelled⟩

end Deck

end MeshPartition
