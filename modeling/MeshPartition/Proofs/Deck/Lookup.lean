import MeshPartition.Deck.Lookup
import MeshPartition.Proofs.Deck.Keyword

/-!
# Looking lists up goes no further than the record

What a record answers that is asked for a list, and what looking the list up by 64-bit positions
comes to, is `Record.optionalList_outcome`: the same answer, with no sum that overflows, and with no
position asked for twice or further than one past the end.

The positions are asked for one after the other, from the first one on. This is the invariant of
both loops: before a position is asked for, those asked for are all that come before it. The search
for the keyword keeps it token by token (`Lookup.run_find`), and so do the entries of the list
(`Lookup.exists_run_entries`). An entry that reads is one of the record, so that the next position
is at most its length, and the first one past the end does not read. How many entries were announced
has no part in that.
-/

namespace MeshPartition.Deck

variable {α : Type} {r : Record} {read : String → Option α} {keyword : String} {i k left : ℕ}

namespace Lookup

/-! ## Single steps -/

/-- A sum that fits is computed. -/
theorem run_sum_bind {a b : ℕ} (h : a + b < UInt64.size) (f : ℕ → Lookup α) (asked : List ℕ) :
    (sum a b >>= f).run asked = (f (a + b)).run asked := by
  rw [sum, if_pos h]
  rfl

/-- Positions are asked for in order. -/
theorem run_ask_bind (i : ℕ) (f : Unit → Lookup α) :
    (ask i >>= f).run (List.range i) = (f ()).run (List.range (i + 1)) := by
  rw [List.range_succ]
  rfl

/-- Looking up a word that reads asks for its position and goes on. -/
theorem run_wordAt_bind {β : Type} {b : β} {readWord : String → Option β}
    (h : r.wordAt? readWord i = some b) (f : β → Lookup α) :
    (wordAt r readWord i keyword >>= f).run (List.range i) = (f b).run (List.range (i + 1)) := by
  rw [wordAt, bind_assoc, run_ask_bind, h]
  rfl

/-- If nothing there reads, the keyword is missing. -/
theorem run_wordAt_bind_of_eq_none {β : Type} {readWord : String → Option β}
    (h : r.wordAt? readWord i = none) (f : β → Lookup α) :
    (wordAt r readWord i keyword >>= f).run (List.range i) =
      .error (.error (r.missing keyword)) (List.range (i + 1)) := by
  rw [wordAt, bind_assoc, run_ask_bind, h]
  rfl

/-- Looking for a keyword asks for the tokens one by one, up to the first that is the keyword. -/
theorem run_find {ts : List Token} {place : Option ℕ} (hfits : i + ts.length < UInt64.size)
    (hplace : ts.findIdx? (fun t => t.word?.any fun w => foldCase w = foldCase keyword) = place) :
    (find keyword i ts).run (List.range i) =
      .ok (place.map (i + ·)) (List.range (i + place.elim ts.length Nat.succ)) := by
  subst hplace
  induction ts generalizing i with
  | nil => rfl
  | cons t ts ih =>
    rw [List.length_cons] at hfits
    rw [find, run_ask_bind, List.findIdx?_cons]
    split
    · rfl
    · -- The token has been asked for, so the invariant holds at the next one.
      rw [run_sum_bind (by omega), ih (by omega)]
      cases ts.findIdx? fun t => t.word?.any fun w => foldCase w = foldCase keyword with
      | none =>
        have hcount : i + 1 + ts.length = i + (ts.length + 1) := by omega
        exact congrArg (fun n => EStateM.Result.ok none (List.range n)) hcount
      | some j =>
        have hcount : i + 1 + j = i + (j + 1) := by omega
        exact congrArg (fun n => EStateM.Result.ok (some n) (List.range (n + 1))) hcount

/-! ## Lists -/

/-- The words of a list are read one by one. -/
theorem readWords_drop_succ (r : Record) (read : String → Option α) (left i : ℕ) :
    Record.readWords read (left + 1) (r.tokens.drop i) =
      (r.wordAt? read i).bind fun a =>
        (Record.readWords read left (r.tokens.drop (i + 1))).map (a :: ·) := by
  rw [Record.wordAt?]
  by_cases hi : i < r.tokens.length
  · rw [List.drop_eq_getElem_cons hi, List.getElem?_eq_getElem hi, Record.readWords,
      Option.bind_some]
    cases r.tokens[i].word?.bind read with
    | none => rfl
    | some a => cases Record.readWords read left (r.tokens.drop (i + 1)) <;> rfl
  · rw [List.drop_eq_nil_of_le (Nat.le_of_not_lt hi), List.getElem?_eq_none (Nat.le_of_not_lt hi),
      Record.readWords]
    rfl

/-- A position at which a word reads is one of the record. -/
theorem lt_of_wordAt? {a : α} (h : r.wordAt? read i = some a) : i < r.tokens.length := by
  obtain ⟨w, hw, -⟩ := Record.wordAt?_eq_some_iff.1 h
  exact (List.getElem?_eq_some_iff.1 hw).1

/-- Looking up the entries that are left gives what reading them off the record gives. -/
theorem exists_run_entries (read : String → Option α) (keyword : String)
    (hsize : r.tokens.length < UInt64.size) (hstart : i + 2 + k ≤ r.tokens.length)
    (hcount : k + left < UInt64.size) :
    ∃ n ≤ r.tokens.length + 1, (entries r read keyword i left k).run (List.range (i + 2 + k)) =
      resultOf (List.range n) ((Record.readWords read left (r.tokens.drop (i + 2 + k))).elim
        (.error (r.missing keyword)) .ok) := by
  induction left generalizing k with
  | zero => exact ⟨i + 2 + k, by omega, rfl⟩
  | succ left ih =>
    rw [entries, run_sum_bind (by omega), run_sum_bind (by omega), readWords_drop_succ]
    cases hread : r.wordAt? read (i + 2 + k) with
    | none =>
      rw [run_wordAt_bind_of_eq_none hread]
      exact ⟨i + 2 + k + 1, by omega, rfl⟩
    | some a =>
      -- The entry is one of the record, so the sum for the next one is at most its length.
      have hlt := lt_of_wordAt? hread
      obtain ⟨n, hn, hrest⟩ := ih (k := k + 1) (by omega) (by omega)
      rw [← Nat.add_assoc] at hrest
      rw [run_wordAt_bind hread, run_sum_bind (by omega), EStateM.run_bind, hrest]
      refine ⟨n, hn, ?_⟩
      cases Record.readWords read left (r.tokens.drop (i + 2 + k + 1)) <;> rfl

/-- Looking a list up gives what reading it gives. -/
theorem exists_run_optionalList (read : String → Option α) (keyword : String)
    (hsize : r.tokens.length < UInt64.size) :
    ∃ n ≤ r.tokens.length + 1, (optionalList r read keyword).run [] =
      resultOf (List.range n) (r.optionalList read keyword) := by
  have hfits : 0 + r.tokens.length < UInt64.size := by rwa [Nat.zero_add]
  change ∃ n ≤ r.tokens.length + 1, (optionalList r read keyword).run (List.range 0) = _
  rw [optionalList, EStateM.run_bind, Record.optionalList]
  cases hposition : r.position? keyword with
  | none =>
    -- All tokens have been asked for, and none past the end.
    rw [run_find hfits hposition]
    exact ⟨0 + r.tokens.length, by omega, rfl⟩
  | some i =>
    have hlt : i < r.tokens.length := by
      obtain ⟨w, hw, -⟩ := (Record.position?_eq_some_iff.1 hposition).isKeyword
      exact (List.getElem?_eq_some_iff.1 hw).1
    rw [run_find hfits hposition, Option.map_some, Option.elim_some, Nat.zero_add, Nat.zero_add]
    dsimp only
    rw [run_sum_bind (by omega), Record.wordAt]
    cases hread : r.wordAt? Text.unsigned? (i + 1) with
    | none =>
      rw [run_wordAt_bind_of_eq_none hread]
      exact ⟨i + 1 + 1, by omega, rfl⟩
    | some count =>
      -- The announced length reads, so it is one of the tokens, and it fits in 64 bits.
      have hstart := lt_of_wordAt? hread
      have hfits' : 0 + count < UInt64.size := by
        obtain ⟨w, -, hw⟩ := Record.wordAt?_eq_some_iff.1 hread
        rw [Nat.zero_add]
        exact Record.lt_of_unsigned? hw
      obtain ⟨n, hn, hentries⟩ := exists_run_entries read keyword (k := 0) hsize hstart hfits'
      rw [Nat.add_zero] at hentries
      rw [run_wordAt_bind hread, EStateM.run_bind, hentries]
      refine ⟨n, hn, ?_⟩
      dsimp only [bind, Except.bind]
      cases Record.readWords read count (r.tokens.drop (i + 2)) <;> rfl

end Lookup

namespace Record

/-! ## Answers -/

/-- A keyword that is mentioned stands somewhere first. -/
theorem exists_standsAt (h : r.Mentions keyword) : ∃ i, r.StandsAt keyword i := by
  obtain ⟨i, hi⟩ := Option.ne_none_iff_exists'.1 (mt position?_eq_none_iff.1 (not_not_intro h))
  exact ⟨i, position?_eq_some_iff.1 hi⟩

/-- A list follows its keyword where that stands first. -/
theorem hasList_iff {as : List α} (h : r.StandsAt keyword i) : r.HasList read keyword as ↔
    r.ReadsAt Text.unsigned? (i + 1) as.length ∧
      ∀ k a, as[k]? = some a → r.ReadsAt read (i + 2 + k) a := by
  constructor
  · rintro ⟨j, hj, hlist⟩
    cases h.unique hj
    exact hlist
  · exact fun hlist => ⟨i, h, hlist⟩

theorem optionalList_eq_ok_none_iff :
    r.optionalList read keyword = .ok none ↔ ¬ r.Mentions keyword := by
  rw [optionalList_eq_iff]
  exact ⟨fun | .absent h => h, .absent⟩

theorem optionalList_eq_ok_some_iff {as : List α} :
    r.optionalList read keyword = .ok (some as) ↔ r.HasList read keyword as := by
  rw [optionalList_eq_iff]
  exact ⟨fun | .present _ h => h, .present as⟩

/-- What goes wrong is always that the keyword is missing. -/
theorem eq_missing_of_optionalList {e : Error} (h : r.optionalList read keyword = .error e) :
    e = r.missing keyword := by
  cases optionalList_eq_iff.1 h
  rfl

/-- It makes no difference whether a list may be absent if its keyword is there. -/
theorem optionalList_eq_map_list (read : String → Option α) (h : r.Mentions keyword) :
    r.optionalList read keyword = (r.list read keyword).map some := by
  have hfound := r.found_optionalList read keyword
  rw [list]
  generalize r.optionalList read keyword = answer at hfound ⊢
  cases hfound with
  | absent habsent => exact absurd h habsent
  | present as hlist => rfl
  | malformed hmentions hnone => rfl

theorem list_of_not_mentions (read : String → Option α) (h : ¬ r.Mentions keyword) :
    r.list read keyword = .error (r.missing keyword) := by
  rw [list, optionalList_eq_ok_none_iff.2 h]
  rfl

/-- The tokens at the first positions are the first tokens. -/
theorem filterMap_getElem?_range (ts : List Token) (n : ℕ) :
    (List.range n).filterMap (ts[·]?) = ts.take n := by
  induction n with
  | zero => rfl
  | succ n ih =>
    rw [List.range_succ, List.filterMap_append, ih, List.take_add_one]
    cases hn : ts[n]? <;> simp [hn]

/-- Asked for a list that may be absent, a record answers that there is none exactly if it does not
mention the keyword. Otherwise the place of the list is where the keyword stands first, and the
answer is a list exactly if the word after the keyword reads as its length and the words after that
read as its entries, in order. Any other answer is the error that the keyword is missing in the
record, which is shown with its line. A list that has to be there differs only where the keyword is
not mentioned.

Looking the list up by 64-bit positions gives the same answer, whatever length the record announces,
and no sum of positions overflows; the number of tokens has to fit in 64 bits, as the length of any
list in memory does. The positions that are asked for are the first ones, each once, and at most one
of them lies past the end of the record, so that the tokens looked at are the first of its own. -/
theorem optionalList_outcome (r : Record) (read : String → Option α) (keyword : String) :
    (r.optionalList read keyword = .ok none ↔ ¬ r.Mentions keyword) ∧
    (r.Mentions keyword → ∃ i, r.StandsAt keyword i ∧
      ∀ as, r.optionalList read keyword = .ok (some as) ↔
        r.ReadsAt Text.unsigned? (i + 1) as.length ∧
          ∀ k a, as[k]? = some a → r.ReadsAt read (i + 2 + k) a) ∧
    (∀ e, r.optionalList read keyword = .error e →
      e = .missingKeyword keyword (.line r.line r.text) ∧
        (Place.line r.line r.text).text = s!"line {r.line}: {r.text}") ∧
    (r.Mentions keyword → r.optionalList read keyword = (r.list read keyword).map some) ∧
    (¬ r.Mentions keyword →
      r.list read keyword = .error (.missingKeyword keyword (.line r.line r.text))) ∧
    (r.tokens.length < UInt64.size → ∃ n ≤ r.tokens.length + 1,
      (Lookup.optionalList r read keyword).run [] =
        Lookup.resultOf (List.range n) (r.optionalList read keyword) ∧
      (List.range n).filterMap (r.tokens[·]?) = r.tokens.take n) := by
  refine ⟨optionalList_eq_ok_none_iff, fun hmentions => ?_,
    fun e he => ⟨eq_missing_of_optionalList he, rfl⟩, optionalList_eq_map_list read,
    list_of_not_mentions read, fun hsize => ?_⟩
  · obtain ⟨i, hi⟩ := exists_standsAt hmentions
    exact ⟨i, hi, fun as => optionalList_eq_ok_some_iff.trans (hasList_iff hi)⟩
  · obtain ⟨n, hn, hrun⟩ := Lookup.exists_run_optionalList read keyword hsize
    exact ⟨n, hn, hrun, filterMap_getElem?_range r.tokens n⟩

/-- A record that announces as many nodes as a 64-bit number can say, and names two. -/
def endlessList : Record := ofLine 7 "truss1d 2 Nodes 18446744073709551615 1 2 ".toList

/-- A record with a quoted text that is not the keyword, and with the keyword twice. -/
def twiceMastered : Record := ofLine 8 "slavenode \"master 1 6\" MASTER +2 07 8 master x".toList

/-- The endless list is looked up until the record ends, and the list of the first keyword up to its
last entry. -/
theorem optionalList_outcome_endless :
    (endlessList.Mentions "nodes" ∧ endlessList.tokens.length < UInt64.size ∧
      endlessList.list Text.unsigned? "nodes" = .error (.missingKeyword "nodes"
        (.line 7 "truss1d 2 Nodes 18446744073709551615 1 2")) ∧
      endlessList.optionalList Text.unsigned? "nodes" =
        (endlessList.list Text.unsigned? "nodes").map some ∧
      (Lookup.optionalList endlessList Text.unsigned? "nodes").run [] =
        .error (.error (endlessList.missing "nodes")) (List.range 7) ∧
      ∃ n ≤ endlessList.tokens.length + 1,
        (Lookup.optionalList endlessList Text.unsigned? "nodes").run [] =
          Lookup.resultOf (List.range n) (endlessList.optionalList Text.unsigned? "nodes") ∧
        (List.range n).filterMap (endlessList.tokens[·]?) = endlessList.tokens.take n) ∧
    (¬ endlessList.Mentions "mat" ∧
      endlessList.list Text.unsigned? "mat" = .error (endlessList.missing "mat")) ∧
    (twiceMastered.Mentions "master" ∧ ∃ i, twiceMastered.StandsAt "master" i ∧
      twiceMastered.ReadsAt Text.unsigned? (i + 1) 2 ∧
      ∀ k a, [7, 8][k]? = some a → twiceMastered.ReadsAt Text.unsigned? (i + 2 + k) a) := by
  obtain ⟨-, -, -, hagrees, -, hlookup⟩ := optionalList_outcome endlessList Text.unsigned? "nodes"
  obtain ⟨-, -, -, -, habsent, -⟩ := optionalList_outcome endlessList Text.unsigned? "mat"
  obtain ⟨-, hplace, -⟩ := optionalList_outcome twiceMastered Text.unsigned? "master"
  have hnodes : endlessList.Mentions "nodes" := has_iff.1 (by decide +kernel)
  have hmat : ¬ endlessList.Mentions "mat" := mt has_iff.2 (by decide +kernel)
  have hmaster : twiceMastered.Mentions "master" := has_iff.1 (by decide +kernel)
  have hsize : endlessList.tokens.length < UInt64.size := by decide +kernel
  obtain ⟨i, hi, hanswers⟩ := hplace hmaster
  exact ⟨⟨hnodes, hsize, by decide +kernel, hagrees hnodes, rfl, hlookup hsize⟩,
    ⟨hmat, habsent hmat⟩, hmaster, i, hi, (hanswers [7, 8]).1 (by decide +kernel)⟩

end Record

end MeshPartition.Deck
