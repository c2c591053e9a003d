import MeshPartition.Deck.Constraint
import MeshPartition.Proofs.Text.Lines

/-!
# What records hold

A record mentions a keyword if one of its words is the keyword in some case, and that is what
`Record.has` tests. Ids are read as the numbers that they are (`Record.id_eq_ok_iff`,
`Record.globalIds_eq_ok_iff`). The tokens of the records of a text are those of the lines that are
neither blank nor comments (`Record.map_tokens_ofText`). The records are told apart by their lines
(`Record.nodup_ofText`), and whole lines of a text hold the first of its records
(`Record.ofText_isPrefix`).
-/

namespace MeshPartition.Deck.Record

variable {r : Record} {keyword : String}

/-- One of the words is the keyword, in any case. -/
def Mentions (r : Record) (keyword : String) : Prop :=
  ∃ w, Token.word w ∈ r.tokens ∧ foldCase w = foldCase keyword

theorem has_iff : r.has keyword = true ↔ r.Mentions keyword := by
  rw [has, position?, List.findIdx?_isSome, List.any_eq_true]
  constructor
  · rintro ⟨t, ht, hw⟩
    cases t with
    | word w => exact ⟨w, ht, by simpa [Token.word?] using hw⟩
    | quoted s => cases hw
  · rintro ⟨w, hw, heq⟩
    exact ⟨.word w, hw, by simpa [Token.word?] using heq⟩

/-- The id of what is described is the number of the record. -/
theorem id_eq_ok_iff {id : GlobalId} : r.id = .ok id ↔ r.number = .ok id.toNat := by
  rw [Record.id, bind_eq_ok_iff]
  constructor
  · rintro ⟨n, hn, hid⟩
    split at hid
    · rename_i id' hid'
      cases hid
      rw [hn, GlobalId.toNat_of_ofNat? hid']
    · cases hid
  · intro hn
    exact ⟨id.toNat, hn, by rw [GlobalId.ofNat?_toNat]; rfl⟩

/-- Numbers are read as the ids that have them. -/
theorem globalIds_eq_ok_iff {ns : List ℕ} {ids : List GlobalId} :
    r.globalIds keyword ns = .ok ids ↔ ns = ids.map GlobalId.toNat := by
  induction ns generalizing ids with
  | nil =>
    rw [globalIds, Except.ok.injEq, @eq_comm _ [] ids, @eq_comm _ [] (ids.map _),
      List.map_eq_nil_iff]
  | cons n ns ih =>
    rw [globalIds]
    cases hn : GlobalId.ofNat? n with
    | none =>
      have hno (id : GlobalId) : n ≠ id.toNat := by
        rintro rfl
        cases hn.symm.trans (GlobalId.ofNat?_toNat id)
      cases ids <;> simp [hno]
    | some id =>
      have hid := GlobalId.toNat_of_ofNat? hn
      simp only [map_eq_ok_iff, ih]
      constructor
      · rintro ⟨rest, rfl, rfl⟩
        rw [List.map_cons, hid]
      · intro h
        cases ids with
        | nil => cases h
        | cons id' rest =>
          rw [List.map_cons, List.cons.injEq] at h
          exact ⟨rest, h.2, by rw [GlobalId.toNat_injective (hid.trans h.1)]⟩

/-- The lines of a text that hold records. -/
def linesOf (text : String) : List (List Char) := (Text.lines text.toList).filter isRecordLine

/-- The numbered lines that hold records are, without their numbers, the lines that do. -/
theorem map_fst_recordLines (text : String) :
    ((Text.numberedLines text.toList).filter fun l => isRecordLine l.1).map Prod.fst =
      linesOf text := by
  rw [linesOf, ← List.zipIdx_map_fst 1 (Text.lines text.toList), List.filter_map]
  rfl

/-- The tokens of the records of a text are those of its lines. -/
theorem map_tokens_ofText (text : String) :
    (ofText text).map tokens = (linesOf text).map Token.ofLine := by
  rw [← map_fst_recordLines, ofText, List.map_map, List.map_map]
  rfl

/-- Records come by ascending lines. -/
theorem sorted_ofText (text : String) : (ofText text).Pairwise (·.line < ·.line) := by
  have hnumbers : (Text.numberedLines text.toList).Pairwise (·.2 < ·.2) := by
    rw [← List.pairwise_map, Text.numberedLines, List.zipIdx_map_snd]
    exact List.pairwise_lt_range'
  rw [ofText, List.pairwise_map]
  exact hnumbers.filter _

theorem nodup_ofText (text : String) : (ofText text).Nodup := by
  refine (sorted_ofText text).imp fun {r r'} hlt heq => ?_
  rw [heq] at hlt
  exact Nat.lt_irrefl _ hlt

/-- Whole lines of a text hold the first of its records. -/
theorem ofText_isPrefix {front text : String} (h : Text.WholeLines front.toList text.toList) :
    ofText front <+: ofText text := by
  obtain ⟨rest, hrest⟩ := h.lines_isPrefix
  have hnumbered : Text.numberedLines front.toList <+: Text.numberedLines text.toList := by
    rw [Text.numberedLines, Text.numberedLines, ← hrest, List.zipIdx_append]
    exact List.prefix_append _ _
  exact (hnumbered.filter _).map _

end MeshPartition.Deck.Record
