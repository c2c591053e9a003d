import MeshPartition.Json.Form
import MeshPartition.Proofs.IndexMap
import MeshPartition.Proofs.Json

/-!
# Forms that are read back

The numbers in the tables of the library are words of 64 bits: `WordSized` says what that means for
each type. A form is faithful (`Json.FaithfulForm`) if it reads every value of words from the JSON
value it writes for it, and never reads a value that is not one of words. Numbers, lists, sets and
maps have faithful forms, and two lemmas carry them over to larger types:
`Json.members?_ofMembers` for records and `Json.choice?_ofString` for plain choices.

Values with a faithful form are read back from their texts, and reading a text and writing the
outcome brings all texts that stand for one value to a single form (`Json.roundTrips`).
-/

namespace MeshPartition

/-- Types with numbers in them that may have to fit into 64 bits. -/
class WordSized (α : Type) where
  /-- All numbers in a value are below `2 ^ 64`. -/
  Fits : α → Prop

export WordSized (Fits)

variable {α : Type}

instance : WordSized ℕ := ⟨fun n => n < UInt64.size⟩

instance : WordSized Bool := ⟨fun _ => True⟩

/-- The bounds of an id are part of its type. -/
instance : WordSized GlobalId := ⟨fun _ => True⟩

instance [WordSized α] : WordSized (Option α) := ⟨fun o => ∀ a ∈ o, Fits a⟩

instance [WordSized α] : WordSized (List α) := ⟨fun as => ∀ a ∈ as, Fits a⟩

instance : WordSized IndexSet := ⟨fun s => Fits s.toList⟩

instance [WordSized α] : WordSized (IndexMap α) := ⟨fun m => ∀ e ∈ m.entries, Fits e.1 ∧ Fits e.2⟩

namespace Json

/-- Reads a text and writes the value it stands for. -/
def rewrite? (α : Type) [JsonForm α] (s : String) : Option String := (read? s : Option α).map write

theorem rewrite?_eq_some [JsonForm α] {s : String} {a : α} (h : read? s = some a) :
    rewrite? α s = some (write a) := by
  rw [rewrite?, h, Option.map_some]

/-- Forms that read all values of words from what they write of them, and no other values. -/
class FaithfulForm (α : Type) [JsonForm α] [WordSized α] : Prop where
  written (a : α) : (toJson a).Written
  ofJson?_toJson {a : α} : Fits a → ofJson? (toJson a) = some a
  fits_of_ofJson? {v : Json} {a : α} : ofJson? v = some a → Fits a

/-- Values of a type are written without blanks and read back, and every text that stands for a
value can be brought to the form in which that value is written. -/
structure RoundTrips (α : Type) [JsonForm α] [WordSized α] : Prop where
  /-- What is written is a text of the form of the value, with nothing between its tokens. -/
  compact (a : α) : ofText? (write a) = some (toJson a) ∧
    ∃ ts, Token.scan .gap (write a).toList = some ts ∧ (write a).toList = ts.flatMap Token.chars
  /-- What is written of a value is read as that value. -/
  read_write {a : α} : Fits a → read? (write a) = some a
  /-- Only values of words are read. -/
  fits {s : String} {a : α} : read? s = some a → Fits a
  /-- A text that stands for a value is rewritten to a text that stands for the same value and is
  rewritten to itself. -/
  rewrite {s : String} {a : α} : read? s = some a →
    ∃ t, rewrite? α s = some t ∧ read? t = some a ∧ rewrite? α t = some t
  /-- Texts are rewritten to the same text exactly if they stand for the same value. -/
  rewrite_eq_iff {s s' : String} {a a' : α} : read? s = some a → read? s' = some a' →
    (rewrite? α s = rewrite? α s' ↔ a = a')

open FaithfulForm

section

variable [JsonForm α] [WordSized α] [FaithfulForm α]

theorem read?_write {a : α} (h : Fits a) : read? (write a) = some a := by
  rw [read?, write, ofText?_render (written a)]
  exact ofJson?_toJson h

theorem fits_of_read? {s : String} {a : α} (h : read? s = some a) : Fits a := by
  obtain ⟨v, -, hv⟩ := Option.bind_eq_some_iff.1 h
  exact fits_of_ofJson? hv

/-- Different values are written differently. -/
theorem write_injective {a a' : α} (ha : Fits a) (ha' : Fits a') (h : write a = write a') :
    a = a' := by
  have hread := read?_write ha
  rw [h, read?_write ha'] at hread
  exact (Option.some.inj hread).symm

/-- Faithful forms make texts that go both ways. -/
theorem roundTrips : RoundTrips α where
  compact a := ⟨ofText?_render (written a), (toJson a).tokens, scan_render (written a),
    String.toList_ofList⟩
  read_write := read?_write
  fits := fits_of_read?
  rewrite {s a} h := by
    have hread := read?_write (fits_of_read? h)
    exact ⟨write a, rewrite?_eq_some h, hread, rewrite?_eq_some hread⟩
  rewrite_eq_iff {s s' a a'} h h' := by
    rw [rewrite?_eq_some h, rewrite?_eq_some h', Option.some.injEq]
    exact ⟨write_injective (fits_of_read? h) (fits_of_read? h'), fun e => e ▸ rfl⟩

end

/-! ### Numbers -/

theorem lt_of_literalNat? {literal : List Char} {n : ℕ} (h : literalNat? literal = some n) :
    n < UInt64.size := by
  unfold literalNat? at h
  split at h
  · exact of_decide_eq_true (Option.filter_eq_some_iff.1 h).2
  · cases h

instance : FaithfulForm ℕ where
  written := .ofNat
  ofJson?_toJson h := literalNat?_toDigits h
  fits_of_ofJson? {v n} h := by
    cases v with
    | number literal => exact lt_of_literalNat? h
    | _ => cases h

instance : FaithfulForm Bool where
  written := .bool
  ofJson?_toJson _ := rfl
  fits_of_ofJson? _ := trivial

theorem nat?_ofNat_toNat (id : GlobalId) : (ofNat id.toNat).nat? = some id.toNat :=
  literalNat?_toDigits id.lt

instance : FaithfulForm GlobalId where
  written id := .ofNat id.toNat
  ofJson?_toJson {id} _ := by
    change (ofNat id.toNat).nat?.bind GlobalId.ofNat? = some id
    rw [nat?_ofNat_toNat, Option.bind_some, GlobalId.ofNat?_toNat]
  fits_of_ofJson? _ := trivial

/-- An id that may be absent: its number is never taken for the absent one. -/
instance : FaithfulForm (Option GlobalId) where
  written
    | none => .null
    | some id => .ofNat id.toNat
  ofJson?_toJson {o} _ := by
    cases o with
    | none => rfl
    | some id =>
      change (ofJson? (toJson id)).map some = some (some id)
      rw [ofJson?_toJson (a := id) trivial, Option.map_some]
  fits_of_ofJson? _ := fun _ _ => trivial

/-! ### Lists, sets and maps -/

theorem mapM_map_eq_some {β γ : Type} {f : β → Option γ} {g : α → β} {k : α → γ} {as : List α}
    (h : ∀ a ∈ as, f (g a) = some (k a)) : (as.map g).mapM f = some (as.map k) := by
  induction as with
  | nil => rfl
  | cons a as ih =>
    rw [List.forall_mem_cons] at h
    rw [List.map_cons, List.mapM_cons, h.1, ih h.2]
    rfl

theorem exists_of_mapM_eq_some {β : Type} {f : β → Option α} {bs : List β} {as : List α}
    (h : bs.mapM f = some as) {a : α} (ha : a ∈ as) : ∃ b ∈ bs, f b = some a := by
  induction bs generalizing as with
  | nil =>
    cases h
    cases ha
  | cons b bs ih =>
    rw [List.mapM_cons] at h
    obtain ⟨a', ha', h⟩ := Option.bind_eq_some_iff.1 h
    obtain ⟨as', has', h⟩ := Option.bind_eq_some_iff.1 h
    cases h
    rcases List.mem_cons.1 ha with rfl | ha
    · exact ⟨b, List.mem_cons_self, ha'⟩
    · obtain ⟨b', hb', hf⟩ := ih has' ha
      exact ⟨b', List.mem_cons_of_mem b hb', hf⟩

section

variable [JsonForm α] [WordSized α] [FaithfulForm α]

instance : FaithfulForm (List α) where
  written as := .array fun v hv => by
    obtain ⟨a, -, rfl⟩ := List.mem_map.1 hv
    exact written a
  ofJson?_toJson {as} h := by
    have hitems := mapM_map_eq_some (k := id) fun a ha => ofJson?_toJson (h a ha)
    rwa [List.map_id] at hitems
  fits_of_ofJson? {v as} h a ha := by
    cases v with
    | array items =>
      obtain ⟨v, -, hv⟩ := exists_of_mapM_eq_some h ha
      exact fits_of_ofJson? hv
    | _ => cases h

instance : FaithfulForm IndexSet where
  written s := written s.toList
  ofJson?_toJson {s} h := by
    change (ofJson? (toJson s.toList)).map IndexSet.ofList = some s
    rw [ofJson?_toJson (a := s.toList) h, Option.map_some, IndexSet.ofList_toList]
  fits_of_ofJson? {v s} h n hn := by
    obtain ⟨as, has, rfl⟩ := Option.map_eq_some_iff.1 h
    exact fits_of_ofJson? has n (IndexSet.mem_ofList.1 hn)

/-- Keys need no escapes. -/
instance : FaithfulForm (IndexMap α) where
  written m := by
    refine .object (fun e he => ?_) fun e he => ?_
    · obtain ⟨e, -, rfl⟩ := List.mem_map.1 he
      exact ⟨_, (Quoted.encode_of_isDigit fun _ => Text.isDigit_of_mem_toDigits).symm⟩
    · obtain ⟨e, -, rfl⟩ := List.mem_map.1 he
      exact written e.2
  ofJson?_toJson {m} h := by
    -- The entries are read one by one, and no two of them are for one key.
    change Option.map IndexMap.ofList _ = some m
    rw [mapM_map_eq_some (k := id) fun e he => ?_, List.map_id, Option.map_some,
      IndexMap.ofList_entries]
    simp [literalNat?_toDigits (h e he).1, ofJson?_toJson (h e he).2]
  fits_of_ofJson? {v m} h e he := by
    cases v with
    | object members =>
      obtain ⟨es, hes, rfl⟩ := Option.map_eq_some_iff.1 h
      obtain ⟨member, -, hmember⟩ :=
        exists_of_mapM_eq_some hes (IndexMap.mem_of_mem_entries_ofList he)
      obtain ⟨k, hk, hmember⟩ := Option.bind_eq_some_iff.1 hmember
      obtain ⟨a, ha, hmember⟩ := Option.bind_eq_some_iff.1 hmember
      cases hmember
      exact ⟨lt_of_literalNat? hk, fits_of_ofJson? ha⟩
    | _ => cases h

end

/-! ### Records -/

theorem written_ofMembers {members : List (String × Json)} (h : ∀ e ∈ members, e.2.Written) :
    (ofMembers members).Written := by
  refine .object (fun e he => ?_) fun e he => ?_
  · obtain ⟨e, -, rfl⟩ := List.mem_map.1 he
    exact ⟨_, rfl⟩
  · obtain ⟨e, hmem, rfl⟩ := List.mem_map.1 he
    exact h e hmem

/-- Only one member has a given name. -/
theorem filter_fst_eq {members : List (String × Json)} (hnames : (members.map Prod.fst).Nodup)
    {e : String × Json} (he : e ∈ members) : (members.filter fun e' => e'.1 = e.1) = [e] := by
  induction members with
  | nil => cases he
  | cons e' members ih =>
    rw [List.map_cons, List.nodup_cons] at hnames
    rcases List.mem_cons.1 he with rfl | he
    · have hrest : (members.filter fun e' => e'.1 = e.1) = [] :=
        List.filter_eq_nil_iff.2 fun e' he' heq =>
          hnames.1 (List.mem_map.2 ⟨e', he', of_decide_eq_true heq⟩)
      rw [List.filter_cons_of_pos (by simp), hrest]
    · have hne : e'.1 ≠ e.1 := fun heq => hnames.1 (List.mem_map.2 ⟨e, he, heq.symm⟩)
      rw [List.filter_cons_of_neg (by simpa using hne), ih hnames.2 he]

theorem onlyMember?_of_mem {members : List (String × Json)} (hnames : (members.map Prod.fst).Nodup)
    {e : String × Json} (he : e ∈ members) :
    onlyMember? (members.map fun e => (e.1.toList, e.2)) e.1 = some (some e.2) := by
  have hfilter : ((members.map fun e => (e.1.toList, e.2)).filter fun e' => e'.1 = e.1.toList) =
      [(e.1.toList, e.2)] := by
    simp only [List.filter_map, Function.comp_def, String.toList_inj, filter_fst_eq hnames he,
      List.map_cons, List.map_nil]
  rw [onlyMember?, hfilter]

/-- The members of an object are found by their names. -/
theorem members?_ofMembers (members : List (String × Json))
    (hnames : (members.map Prod.fst).Nodup) :
    members? (members.map Prod.fst) (ofMembers members) = some (members.map fun e => some e.2) := by
  have hdecode : (members.map fun e => (Quoted.encode e.1.toList, e.2)).mapM
      (fun (e : List Char × Json) => (do
        let key ← Quoted.decode e.1
        return (key, e.2) : Option (List Char × Json))) =
      some (members.map fun e => (e.1.toList, e.2)) :=
    mapM_map_eq_some fun e _ => by simp
  change Option.bind _ _ = _
  rw [hdecode]
  exact mapM_map_eq_some fun e he => onlyMember?_of_mem hnames he

section

variable [JsonForm α] [WordSized α] [FaithfulForm α] {a d : α} {member : Option Json}

theorem required?_toJson (h : Fits a) : required? (some (toJson a)) = some a :=
  ofJson?_toJson h

theorem fits_of_required? (h : required? member = some a) : Fits a := by
  obtain ⟨v, -, hv⟩ := Option.bind_eq_some_iff.1 h
  exact fits_of_ofJson? hv

theorem withDefault?_toJson (h : Fits a) : withDefault? d (some (toJson a)) = some a :=
  ofJson?_toJson h

end

/-! ### Choices -/

theorem written_ofString (s : String) : (ofString s).Written := .text s.toList

theorem string?_ofString (s : String) : (ofString s).string? = some s := by
  simp [ofString, string?]

/-- A choice is read from its name if no choice before it has the same name. -/
theorem choice?_ofString {name : α → String} {all : List α} {a : α}
    (h : named? name all (name a) = some a) : choice? name all (ofString (name a)) = some a := by
  change (ofString (name a)).string?.bind (named? name all) = some a
  rw [string?_ofString, Option.bind_some, h]

end Json

end MeshPartition
