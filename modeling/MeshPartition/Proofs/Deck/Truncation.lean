import MeshPartition.Proofs.Deck.Sections

/-!
# Decks that are cut off

What reading says of the first lines of a deck follows from how far they go
(`Deck.ofText_of_wholeLines`): that there is no component record, that there are too few nodes, or
too few elements, each with the numbers that were announced and found; otherwise it gives the same
deck with fewer trailing records. So a deck that is cut off is never read as a smaller one.

The records of the first lines are the first records of the text, which settles the outcome
(`Sections.ofRecords_take`). Since no record occurs twice, how far they go can be counted section by
section (`filter_mem_take`).
-/

namespace MeshPartition.Deck

/-- The entries that a list without repeats has among its first ones are the first ones. -/
theorem filter_mem_take_self {α : Type} [DecidableEq α] {as : List α} (h : as.Nodup) (k : ℕ) :
    as.filter (· ∈ as.take k) = as.take k := by
  have hsplit := h
  rw [← List.take_append_drop k as, List.nodup_append] at hsplit
  have hfirst : (as.take k).filter (· ∈ as.take k) = as.take k :=
    List.filter_eq_self.2 fun a ha => decide_eq_true ha
  have hrest : (as.drop k).filter (· ∈ as.take k) = [] :=
    List.filter_eq_nil_iff.2 fun a ha hmem => hsplit.2.2 a (of_decide_eq_true hmem) a ha rfl
  calc as.filter (· ∈ as.take k)
      = (as.take k ++ as.drop k).filter (· ∈ as.take k) := by rw [List.take_append_drop]
    _ = as.take k := by rw [List.filter_append, hfirst, hrest, List.append_nil]

/-- The same for a part of a list without repeats: of its entries, the first ones of the whole list
hold the first ones. -/
theorem filter_mem_take {α : Type} [DecidableEq α] {as bs cs : List α}
    (h : (as ++ (bs ++ cs)).Nodup) (k : ℕ) :
    bs.filter (· ∈ (as ++ (bs ++ cs)).take k) = bs.take (k - as.length) := by
  rw [List.nodup_append, List.nodup_append] at h
  obtain ⟨-, ⟨hbs, -, hbcs⟩, habcs⟩ := h
  have hmem : ∀ b ∈ bs, (b ∈ (as ++ (bs ++ cs)).take k ↔ b ∈ bs.take (k - as.length)) := by
    intro b hb
    rw [List.take_append, List.take_append, List.mem_append, List.mem_append]
    constructor
    · rintro (ha | hb' | hc)
      · exact absurd rfl (habcs b (List.mem_of_mem_take ha) b (List.mem_append_left cs hb))
      · exact hb'
      · exact absurd rfl (hbcs b hb b (List.mem_of_mem_take hc))
    · exact fun hb' => .inr (.inl hb')
  rw [List.filter_congr fun b hb => decide_eq_decide.2 (hmem b hb), filter_mem_take_self hbs]

variable {s : Sections}

/-- A section that is cut short is found with the records that are left. -/
theorem takeSection_take {part : DeckSection} {records : List Record} {k : ℕ}
    (h : k < records.length) :
    takeSection part records.length (records.take k) =
      .error (.truncatedInput part records.length k) := by
  have hlength : (records.take k).length = k := List.length_take_of_le h.le
  rw [takeSection_of_lt (hlength.trans_lt h), hlength]

/-- How the first records of a deck are split, by the number of them that come after the component
record. -/
theorem Sections.ofRecords_take (hs : s.Announced) (k : ℕ) :
    ofRecords (s.header ++ s.components :: (s.nodes ++ s.elements ++ s.trailer).take k) =
      if k < s.nodes.length then .error (.truncatedInput .nodes s.nodes.length k)
      else if k - s.nodes.length < s.elements.length then
        .error (.truncatedInput .elements s.elements.length (k - s.nodes.length))
      else .ok { s with trailer := s.trailer.take (k - s.nodes.length - s.elements.length) } := by
  rw [ofRecords_append hs.header_has (Record.has_of_value hs.nodes_value), hs.nodes_value,
    hs.elements_value, List.append_assoc, List.take_append, List.take_append]
  by_cases hnodes : k < s.nodes.length
  · have hall : k - s.nodes.length = 0 := by omega
    rw [if_pos hnodes, hall, Nat.zero_sub, List.take_zero, List.take_zero, List.append_nil,
      List.append_nil]
    change (takeSection .nodes s.nodes.length (s.nodes.take k) >>= _) = _
    rw [takeSection_take hnodes]
    rfl
  · rw [if_neg hnodes, List.take_of_length_le (Nat.not_lt.1 hnodes)]
    change (takeSection .nodes s.nodes.length _ >>= _) = _
    rw [takeSection_append rfl]
    by_cases helements : k - s.nodes.length < s.elements.length
    · have hall : k - s.nodes.length - s.elements.length = 0 := by omega
      rw [if_pos helements, hall, List.take_zero, List.append_nil]
      change (takeSection .elements s.elements.length _ >>= _) = _
      rw [takeSection_take helements]
      rfl
    · rw [if_neg helements, List.take_of_length_le (Nat.not_lt.1 helements)]
      change (takeSection .elements s.elements.length _ >>= _) = _
      rw [takeSection_append rfl]
      rfl

/-- Those of some records that lie in a text. -/
def keptIn (text : String) (records : List Record) : List Record :=
  records.filter (· ∈ Record.ofText text)

variable {text front : String} {d : Deck} {j k : ℕ}

/-- What the first records of a deck hold of a part of it. -/
theorem keptIn_eq_take (as bs cs : List Record) (hcut : s.records = as ++ (bs ++ cs))
    (hnodup : s.records.Nodup) (hfront : Record.ofText front = s.records.take k) :
    keptIn front bs = bs.take (k - as.length) := by
  rw [hcut] at hfront hnodup
  rw [keptIn, hfront]
  exact filter_mem_take hnodup k

/-- What the first records of a deck hold of its sections. -/
theorem keptIn_sections (hnodup : s.records.Nodup)
    (hfront : Record.ofText front = s.records.take (s.header.length + 1 + j)) :
    keptIn front s.nodes = s.nodes.take j ∧
      keptIn front s.elements = s.elements.take (j - s.nodes.length) ∧
      keptIn front s.trailer = s.trailer.take (j - s.nodes.length - s.elements.length) := by
  refine ⟨?_, ?_, ?_⟩
  · rw [keptIn_eq_take (s.header ++ [s.components]) s.nodes (s.elements ++ s.trailer)
      (by simp [Sections.records]) hnodup hfront, List.length_append, List.length_singleton]
    congr 1
    omega
  · rw [keptIn_eq_take (s.header ++ s.components :: s.nodes) s.elements s.trailer
      (by simp [Sections.records]) hnodup hfront, List.length_append, List.length_cons]
    congr 1
    omega
  · rw [keptIn_eq_take (s.header ++ s.components :: (s.nodes ++ s.elements)) s.trailer []
      (by simp [Sections.records]) hnodup hfront, List.length_append, List.length_cons,
      List.length_append]
    congr 1
    omega

/-- How the first lines of a deck are read if they hold the component record, and `j` records after
it. -/
theorem ofText_of_take (hannounced : d.Announced) (hmesh : d.toSections.mesh = .ok d.mesh)
    (hfront : Record.ofText front =
      d.header ++ d.components :: (d.nodes ++ d.elements ++ d.trailer).take j) :
    ofText front =
      if j < d.nodes.length then .error (.truncatedInput .nodes d.nodes.length j)
      else if j - d.nodes.length < d.elements.length then
        .error (.truncatedInput .elements d.elements.length (j - d.nodes.length))
      else .ok { d with trailer := d.trailer.take (j - d.nodes.length - d.elements.length) } := by
  rw [ofText, hfront, Sections.ofRecords_take hannounced]
  split
  · rfl
  · split
    · rfl
    · -- The mesh is made of the records of nodes and elements alone.
      exact bind_eq_ok_iff.2 ⟨_, rfl, bind_eq_ok_iff.2 ⟨d.mesh, hmesh, rfl⟩⟩

/-- How the first lines of a deck are read. Without the component record there is no deck. Else it
is counted how many records of nodes and of elements the lines hold; if they are fewer than
announced, nodes counting first, that is the error, with both numbers. Otherwise the deck is the
same, up to the trailing records that are cut off. -/
theorem ofText_of_wholeLines (h : ofText text = .ok d)
    (hfront : Text.WholeLines front.toList text.toList) :
    ∃ nodeCount elementCount,
      d.components.value Text.unsigned? "ndofman" = .ok nodeCount ∧
      d.components.value Text.unsigned? "nelem" = .ok elementCount ∧
      keptIn front d.trailer <+: d.trailer ∧
      ofText front =
        if d.components ∉ Record.ofText front then
          .error (.missingKeyword "ndofman" .endOfInput)
        else if (keptIn front d.nodes).length < nodeCount then
          .error (.truncatedInput .nodes nodeCount (keptIn front d.nodes).length)
        else if (keptIn front d.elements).length < elementCount then
          .error (.truncatedInput .elements elementCount (keptIn front d.elements).length)
        else
          .ok { d with trailer := keptIn front d.trailer } := by
  obtain ⟨hannounced, hrecords, hmesh⟩ := ofText_eq_ok_iff.1 h
  refine ⟨_, _, hannounced.nodes_value, hannounced.elements_value, ?_⟩
  have hnodup : d.records.Nodup := hrecords ▸ Record.nodup_ofText text
  obtain ⟨k, hk⟩ : ∃ k, Record.ofText front = d.records.take k :=
    ⟨_, hrecords ▸ List.prefix_iff_eq_take.1 (Record.ofText_isPrefix hfront)⟩
  rcases Nat.lt_or_ge d.header.length k with hlt | hle
  · -- The component record is there, and after it as many records as are left.
    obtain ⟨j, rfl⟩ := Nat.exists_eq_add_of_le (Nat.succ_le_of_lt hlt)
    have hheld : Record.ofText front =
        d.header ++ d.components :: (d.nodes ++ d.elements ++ d.trailer).take j := by
      rw [hk, Sections.records, Nat.succ_add, ← Nat.add_succ, List.take_length_add_append,
        List.take_succ_cons]
    obtain ⟨hnodes, helements, htrailer⟩ := keptIn_sections hnodup hk
    have hmem : d.components ∈ Record.ofText front := hheld ▸ by simp
    refine ⟨htrailer ▸ List.take_prefix _ _, ?_⟩
    rw [if_neg (not_not.2 hmem), ofText_of_take hannounced hmesh hheld, hnodes, helements,
      htrailer, List.length_take, List.length_take]
    -- A section that is cut short is as long as what is left for it.
    by_cases hfew : j < d.nodes.length
    · rw [if_pos hfew, min_eq_left hfew.le, if_pos hfew]
    · rw [if_neg hfew, min_eq_right (Nat.not_lt.1 hfew), if_neg (Nat.lt_irrefl _)]
      by_cases hfew' : j - d.nodes.length < d.elements.length
      · rw [if_pos hfew', min_eq_left hfew'.le, if_pos hfew']
      · rw [if_neg hfew', min_eq_right (Nat.not_lt.1 hfew'), if_neg (Nat.lt_irrefl _)]
  · -- The lines end before the component record, so what they hold is header.
    have hheld : Record.ofText front = d.header.take k := by
      rw [hk, Sections.records, List.take_append_of_le_length hle]
    have htrailer : keptIn front d.trailer = [] := by
      rw [keptIn_eq_take (d.header ++ d.components :: (d.nodes ++ d.elements)) d.trailer []
        (by simp [Sections.records]) hnodup hk, List.length_append,
        Nat.sub_eq_zero_of_le (by omega), List.take_zero]
    have hmem : d.components ∉ Record.ofText front := by
      rw [Sections.records, List.nodup_append] at hnodup
      rw [hheld]
      exact fun hmem => hnodup.2.2 _ (List.mem_of_mem_take hmem) _ List.mem_cons_self rfl
    refine ⟨htrailer ▸ List.nil_prefix, ?_⟩
    rw [if_pos hmem, ofText, hheld, Sections.ofRecords_of_not_has fun r hr =>
      hannounced.header_has r (List.mem_of_mem_take hr)]
    rfl

/-- A deck of two nodes and one element. -/
def twoNodes : String := "bar\nndofman 2 nelem 1\nnode 1\r\nnode 2\ntruss1d 1 nodes 2 1 2\nend\n"

/-- The first lines of the deck, up to the first node. -/
def oneOfTwoNodes : String := "bar\nndofman 2 nelem 1\nnode 1"

/-- A deck that is cut off after the first of its two nodes. -/
theorem ofText_of_wholeLines_twoNodes :
    Text.WholeLines oneOfTwoNodes.toList twoNodes.toList ∧
    ofText oneOfTwoNodes = .error (.truncatedInput .nodes 2 1) ∧
    ∃ d nodeCount elementCount, ofText twoNodes = .ok d ∧
      d.components.value Text.unsigned? "ndofman" = .ok nodeCount ∧
      d.components.value Text.unsigned? "nelem" = .ok elementCount ∧
      keptIn oneOfTwoNodes d.trailer <+: d.trailer ∧
      ofText oneOfTwoNodes =
        if d.components ∉ Record.ofText oneOfTwoNodes then
          .error (.missingKeyword "ndofman" .endOfInput)
        else if (keptIn oneOfTwoNodes d.nodes).length < nodeCount then
          .error (.truncatedInput .nodes nodeCount (keptIn oneOfTwoNodes d.nodes).length)
        else if (keptIn oneOfTwoNodes d.elements).length < elementCount then
          .error (.truncatedInput .elements elementCount (keptIn oneOfTwoNodes d.elements).length)
        else
          .ok { d with trailer := keptIn oneOfTwoNodes d.trailer } := by
  have hlines : Text.WholeLines oneOfTwoNodes.toList twoNodes.toList := ⟨by decide, by decide⟩
  have hread : (ofText twoNodes).map (·.mesh.nodeCount) = .ok 2 := by decide
  obtain ⟨d, hd, -⟩ := map_eq_ok_iff.1 hread
  obtain ⟨nodeCount, elementCount, hcut⟩ := ofText_of_wholeLines hd hlines
  exact ⟨hlines, by decide, d, nodeCount, elementCount, hd, hcut⟩

end MeshPartition.Deck
