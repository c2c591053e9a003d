import MeshPartition.Proofs.Deck.Record

/-!
# What follows a keyword

A keyword counts where it stands first (`Record.StandsAt`). A value is the word after it, and a list
is a number and then as many words; `Record.HasValue` and `Record.HasList` say of a record that it
has one, by the positions of its words. Asked for either, a record that does not mention the keyword
answers that there is none, one that has it answers what it has, and all others answer with the
error that shows the record (`Record.found_optionalValue`, `Record.found_optionalList`).

As a keyword stands first in one place only, a record has at most one value and one list for it, so
no other answer fits what it has (`Record.optionalValue_eq_iff`, `Record.optionalList_eq_iff`).
-/

namespace MeshPartition.Deck.Record

variable {α : Type} {r : Record} {read : String → Option α} {keyword : String} {i j : ℕ} {a b : α}
  {as bs : List α}

/-- The word at a position is the keyword, in any case, and no word before it is. -/
structure StandsAt (r : Record) (keyword : String) (i : ℕ) : Prop where
  isKeyword : ∃ w, r.tokens[i]? = some (.word w) ∧ foldCase w = foldCase keyword
  first : ∀ j < i, ∀ w, r.tokens[j]? = some (.word w) → foldCase w ≠ foldCase keyword

/-- The word at a position reads as a value. -/
def ReadsAt (r : Record) (read : String → Option α) (i : ℕ) (a : α) : Prop :=
  ∃ w, r.tokens[i]? = some (.word w) ∧ read w = some a

/-- The word after a keyword reads as a value. -/
def HasValue (r : Record) (read : String → Option α) (keyword : String) (a : α) : Prop :=
  ∃ i, r.StandsAt keyword i ∧ r.ReadsAt read (i + 1) a

/-- The word after a keyword reads as the length of a list, and the words after that read as the
entries of the list. -/
def HasList (r : Record) (read : String → Option α) (keyword : String) (as : List α) : Prop :=
  ∃ i, r.StandsAt keyword i ∧ r.ReadsAt Text.unsigned? (i + 1) as.length ∧
    ∀ k a, as[k]? = some a → r.ReadsAt read (i + 2 + k) a

/-! ## Positions -/

/-- A keyword stands first in one place only. -/
theorem StandsAt.unique (hi : r.StandsAt keyword i) (hj : r.StandsAt keyword j) : i = j := by
  have not_lt {i j : ℕ} (hi : r.StandsAt keyword i) (hj : r.StandsAt keyword j) : ¬ i < j := by
    intro hlt
    obtain ⟨w, hw, hkeyword⟩ := hi.isKeyword
    exact hj.first i hlt w hw hkeyword
  exact Nat.le_antisymm (Nat.le_of_not_lt (not_lt hj hi)) (Nat.le_of_not_lt (not_lt hi hj))

theorem StandsAt.mentions (h : r.StandsAt keyword i) : r.Mentions keyword := by
  obtain ⟨w, hw, hkeyword⟩ := h.isKeyword
  exact ⟨w, List.mem_of_getElem? hw, hkeyword⟩

theorem ReadsAt.unique (ha : r.ReadsAt read i a) (hb : r.ReadsAt read i b) : a = b := by
  obtain ⟨w, hw, hread⟩ := ha
  obtain ⟨w', hw', hread'⟩ := hb
  cases hw.symm.trans hw'
  exact Option.some.inj (hread.symm.trans hread')

/-- A token is the keyword if it is a word that is equal to it in some case. -/
theorem any_word?_iff {t : Token} : (t.word?.any fun w => foldCase w = foldCase keyword) = true ↔
    ∃ w, t = .word w ∧ foldCase w = foldCase keyword := by
  cases t <;> simp [Token.word?]

/-- The search for a keyword finds where it stands first. -/
theorem position?_eq_some_iff : r.position? keyword = some i ↔ r.StandsAt keyword i := by
  rw [position?, List.findIdx?_eq_some_iff_getElem]
  constructor
  · rintro ⟨hi, hkeyword, hfirst⟩
    obtain ⟨w, hw, heq⟩ := any_word?_iff.1 hkeyword
    refine ⟨⟨w, by rw [List.getElem?_eq_getElem hi, hw], heq⟩, fun j hj w' hw' heq' => ?_⟩
    obtain ⟨hlt, hget⟩ := List.getElem?_eq_some_iff.1 hw'
    exact hfirst j hj (any_word?_iff.2 ⟨w', hget, heq'⟩)
  · rintro ⟨⟨w, hw, heq⟩, hfirst⟩
    obtain ⟨hi, hget⟩ := List.getElem?_eq_some_iff.1 hw
    refine ⟨hi, any_word?_iff.2 ⟨w, hget, heq⟩, fun j hj hkeyword => ?_⟩
    obtain ⟨w', hw', heq'⟩ := any_word?_iff.1 hkeyword
    have hget' : r.tokens[j]? = some (.word w') := by
      rw [List.getElem?_eq_getElem (Nat.lt_trans hj hi), hw']
    exact hfirst j hj w' hget' heq'

theorem position?_eq_none_iff : r.position? keyword = none ↔ ¬ r.Mentions keyword := by
  rw [← has_iff, has, Bool.not_eq_true, Option.isSome_eq_false_iff, Option.isNone_iff_eq_none]

theorem wordAt?_eq_some_iff : r.wordAt? read i = some a ↔ r.ReadsAt read i a := by
  rw [wordAt?, ReadsAt]
  cases r.tokens[i]? with
  | none => simp
  | some t => cases t <;> simp [Token.word?]

/-- What is read as a number fits in 64 bits. -/
theorem lt_of_unsigned? {w : String} {n : ℕ} (h : Text.unsigned? w = some n) : n < UInt64.size :=
  of_decide_eq_true (Option.filter_eq_some_iff.1 h).2

/-- Words are read one by one, and there are as many as asked for. -/
theorem readWords_eq_some_iff {count : ℕ} {ts : List Token} :
    readWords read count ts = some as ↔ as.length = count ∧
      ∀ (k : ℕ) (a : α), as[k]? = some a → ∃ w, ts[k]? = some (.word w) ∧ read w = some a := by
  induction count, ts using readWords.induct generalizing as with
  | case1 ts =>
    rw [readWords, Option.some.injEq, List.length_eq_zero_iff, eq_comm]
    constructor
    · rintro rfl
      exact ⟨rfl, nofun⟩
    · exact fun h => h.1
  | case2 count =>
    rw [readWords]
    constructor
    · exact nofun
    · rintro ⟨hlength, hwords⟩
      cases as with
      | nil => cases hlength
      | cons a as =>
        obtain ⟨w, hw, -⟩ := hwords 0 a rfl
        cases hw
  | case3 count t ts ih =>
    -- The first word is the first entry, and the other entries are read from the words after it.
    rw [readWords]
    cases as with
    | nil => simp [Option.bind_eq_some_iff]
    | cons a as =>
      have hfirst : t.word?.bind read = some a ↔ ∃ w, t = .word w ∧ read w = some a := by
        cases t <;> simp [Token.word?]
      constructor
      · intro h
        obtain ⟨a', ha, h⟩ := Option.bind_eq_some_iff.1 h
        obtain ⟨rest, hrest, h⟩ := Option.bind_eq_some_iff.1 h
        cases h
        obtain ⟨hlength, hwords⟩ := ih.1 hrest
        obtain ⟨w, rfl, hw⟩ := hfirst.1 ha
        refine ⟨congrArg (· + 1) hlength, fun k b hb => ?_⟩
        cases k with
        | zero =>
          cases hb
          exact ⟨w, rfl, hw⟩
        | succ k => exact hwords k b hb
      · rintro ⟨hlength, hwords⟩
        obtain ⟨w, hw, hread⟩ := hwords 0 a rfl
        have ha := hfirst.2 ⟨w, Option.some.inj hw, hread⟩
        have hrest := ih.2 ⟨Nat.succ.inj hlength, fun k b hb => hwords (k + 1) b hb⟩
        exact Option.bind_eq_some_iff.2 ⟨a, ha, Option.bind_eq_some_iff.2 ⟨as, hrest, rfl⟩⟩

/-! ## Values and lists -/

theorem HasValue.mentions (h : r.HasValue read keyword a) : r.Mentions keyword := by
  obtain ⟨i, hi, -⟩ := h
  exact hi.mentions

theorem HasList.mentions (h : r.HasList read keyword as) : r.Mentions keyword := by
  obtain ⟨i, hi, -⟩ := h
  exact hi.mentions

/-- A record has at most one value for a keyword. -/
theorem HasValue.unique (ha : r.HasValue read keyword a) (hb : r.HasValue read keyword b) :
    a = b := by
  obtain ⟨i, hi, ha⟩ := ha
  obtain ⟨j, hj, hb⟩ := hb
  cases hi.unique hj
  exact ha.unique hb

/-- A record has at most one list for a keyword. -/
theorem HasList.unique (ha : r.HasList read keyword as) (hb : r.HasList read keyword bs) :
    as = bs := by
  obtain ⟨i, hi, hlength, has⟩ := ha
  obtain ⟨j, hj, hlength', hbs⟩ := hb
  cases hi.unique hj
  refine List.ext_getElem (hlength.unique hlength') fun k hk hk' => ?_
  exact (has k _ (List.getElem?_eq_getElem hk)).unique (hbs k _ (List.getElem?_eq_getElem hk'))

/-- What a record answers that is asked for something after a keyword, of which it has at most one:
`Holds` says what it has. -/
inductive Found (r : Record) (keyword : String) (Holds : α → Prop) : Except Error (Option α) → Prop
  | absent (absent : ¬ r.Mentions keyword) : Found r keyword Holds (.ok none)
  | present (a : α) (holds : Holds a) : Found r keyword Holds (.ok (some a))
  | malformed (mentions : r.Mentions keyword) (holds : ∀ a, ¬ Holds a) :
      Found r keyword Holds (.error (r.missing keyword))

/-- A record answers with the value that it has. -/
theorem found_optionalValue (r : Record) (read : String → Option α) (keyword : String) :
    r.Found keyword (r.HasValue read keyword) (r.optionalValue read keyword) := by
  rw [optionalValue]
  cases hposition : r.position? keyword with
  | none => exact .absent (position?_eq_none_iff.1 hposition)
  | some i =>
    have hstands := position?_eq_some_iff.1 hposition
    dsimp only
    rw [wordAt]
    cases hword : r.wordAt? read (i + 1) with
    | some a => exact .present a ⟨i, hstands, wordAt?_eq_some_iff.1 hword⟩
    | none =>
      -- A value elsewhere would be one here, since the keyword stands first only here.
      refine .malformed hstands.mentions ?_
      rintro a ⟨j, hj, ha⟩
      cases hstands.unique hj
      cases hword.symm.trans (wordAt?_eq_some_iff.2 ha)

/-- A record answers with the list that it has. -/
theorem found_optionalList (r : Record) (read : String → Option α) (keyword : String) :
    r.Found keyword (r.HasList read keyword) (r.optionalList read keyword) := by
  rw [optionalList]
  cases hposition : r.position? keyword with
  | none => exact .absent (position?_eq_none_iff.1 hposition)
  | some i =>
    have hstands := position?_eq_some_iff.1 hposition
    dsimp only
    rw [wordAt]
    cases hcount : r.wordAt? Text.unsigned? (i + 1) with
    | none =>
      refine .malformed hstands.mentions ?_
      rintro as ⟨j, hj, hlength, -⟩
      cases hstands.unique hj
      cases hcount.symm.trans (wordAt?_eq_some_iff.2 hlength)
    | some count =>
      have hcount' := wordAt?_eq_some_iff.1 hcount
      dsimp only [bind, Except.bind]
      cases hwords : readWords read count (r.tokens.drop (i + 2)) with
      | some as =>
        obtain ⟨rfl, hentries⟩ := readWords_eq_some_iff.1 hwords
        simp only [List.getElem?_drop] at hentries
        exact .present as ⟨i, hstands, hcount', hentries⟩
      | none =>
        refine .malformed hstands.mentions ?_
        rintro as ⟨j, hj, hlength, hentries⟩
        cases hstands.unique hj
        have hread : readWords read count (r.tokens.drop (i + 2)) = some as := by
          rw [readWords_eq_some_iff]
          simp only [List.getElem?_drop]
          exact ⟨hlength.unique hcount', hentries⟩
        cases hwords.symm.trans hread

namespace Found

variable {Holds : α → Prop} {answer answer' : Except Error (Option α)}

/-- The answer is fixed by what the record has. -/
theorem unique (hmentions : ∀ a, Holds a → r.Mentions keyword)
    (hholds : ∀ a b, Holds a → Holds b → a = b) (h : r.Found keyword Holds answer)
    (h' : r.Found keyword Holds answer') : answer = answer' := by
  cases h with
  | absent habsent =>
    cases h' with
    | absent => rfl
    | present b hb => exact absurd (hmentions b hb) habsent
    | malformed hmention _ => exact absurd hmention habsent
  | present a ha =>
    cases h' with
    | absent habsent => exact absurd (hmentions a ha) habsent
    | present b hb => rw [hholds a b ha hb]
    | malformed _ hnone => exact absurd ha (hnone a)
  | malformed hmention hnone =>
    cases h' with
    | absent habsent => exact absurd hmention habsent
    | present b hb => exact absurd hb (hnone b)
    | malformed => rfl

end Found

/-- The answer that is asked for a value is fixed by what the record has. -/
theorem optionalValue_eq_iff {answer : Except Error (Option α)} :
    r.optionalValue read keyword = answer ↔ r.Found keyword (r.HasValue read keyword) answer := by
  constructor
  · rintro rfl
    exact r.found_optionalValue read keyword
  · exact (r.found_optionalValue read keyword).unique (fun _ => HasValue.mentions)
      fun _ _ => HasValue.unique

/-- The answer that is asked for a list is fixed by what the record has. -/
theorem optionalList_eq_iff {answer : Except Error (Option (List α))} :
    r.optionalList read keyword = answer ↔ r.Found keyword (r.HasList read keyword) answer := by
  constructor
  · rintro rfl
    exact r.found_optionalList read keyword
  · exact (r.found_optionalList read keyword).unique (fun _ => HasList.mentions)
      fun _ _ => HasList.unique

end MeshPartition.Deck.Record
