import MeshPartition.Deck
import MeshPartition.Proofs.Deck.Record
import MeshPartition.Proofs.Mesh
import Mathlib.Data.List.TakeWhile

/-!
# What a deck that was read holds

The records of a deck are those of the text, none lost and none repeated, and its sections have the
announced sizes (`Sections.ofRecords_eq_ok_iff`). Its mesh mirrors the sections record by record
(`Sections.mesh_eq_ok_iff`): `Record.DescribesNode` and `Record.DescribesElement` say what a record
has to hold for that. Reading succeeds exactly with the deck of which both are true
(`Deck.ofText_eq_ok_iff`); `Deck.ofText_eq_ok_iff_mirrors` spells it out.

Both directions of the statement on the mesh go record by record. In the one that ends with success,
the mesh between two records exists because it is a beginning of the mesh at the end
(`Mesh.exists_beginning`).
-/

namespace MeshPartition

/-- The tables of a mesh begin with those of smaller meshes. -/
theorem Mesh.exists_beginning {m : Mesh} {nodes : List Node} {elements : List Element}
    (hnodes : nodes <+: m.nodes) (helements : elements <+: m.elements)
    (hlt : ∀ e ∈ elements, ∀ n ∈ e.nodes, n < nodes.length) :
    ∃ m' : Mesh, m'.nodes = nodes ∧ m'.elements = elements :=
  ⟨⟨nodes, elements, (hnodes.sublist.map Node.id).nodup m.nodeIds_nodup,
    (helements.sublist.map Element.id).nodup m.elementIds_nodup, hlt⟩, rfl, rfl⟩

namespace Deck

/-! ## Sections -/

/-- All records of the sections, in order. -/
def Sections.records (s : Sections) : List Record :=
  s.header ++ s.components :: (s.nodes ++ s.elements ++ s.trailer)

/-- The sections have the announced sizes, and the announcement is the first one. -/
structure Sections.Announced (s : Sections) : Prop where
  header_has : ∀ r ∈ s.header, r.has "ndofman" = false
  nodes_value : s.components.value Text.unsigned? "ndofman" = .ok s.nodes.length
  elements_value : s.components.value Text.unsigned? "nelem" = .ok s.elements.length

variable {part : DeckSection} {count : ℕ} {records taken rest header : List Record}
  {components : Record} {s : Sections} {nodeCount elementCount : ℕ}

theorem takeSection_of_lt (h : records.length < count) :
    takeSection part count records = .error (.truncatedInput part count records.length) :=
  if_pos h

theorem takeSection_append (h : taken.length = count) (rest : List Record) :
    takeSection part count (taken ++ rest) = .ok (taken, rest) := by
  subst h
  rw [takeSection, if_neg (by simp), List.take_left, List.drop_left]

theorem takeSection_eq_ok_iff :
    takeSection part count records = .ok (taken, rest) ↔
      records = taken ++ rest ∧ taken.length = count := by
  constructor
  · intro h
    unfold takeSection at h
    split at h
    · cases h
    · rename_i hle
      cases h
      exact ⟨(List.take_append_drop count records).symm, List.length_take_of_le (by omega)⟩
  · rintro ⟨rfl, hcount⟩
    exact takeSection_append hcount rest

/-- A value that was read is the value of a keyword. -/
theorem Record.has_of_value {α : Type} {r : Record} {read : String → Option α} {keyword : String}
    {a : α} (h : r.value read keyword = .ok a) : r.has keyword = true := by
  cases hposition : r.position? keyword with
  | none =>
    rw [Record.value, Record.optionalValue, hposition] at h
    cases h
  | some i => rw [Record.has, hposition, Option.isSome_some]

/-- Records none of which announces sizes are no deck. -/
theorem Sections.ofRecords_of_not_has (h : ∀ r ∈ records, r.has "ndofman" = false) :
    Sections.ofRecords records = .error (.missingKeyword "ndofman" .endOfInput) := by
  have hnone : records.dropWhile (!·.has "ndofman") = [] :=
    List.dropWhile_eq_nil_iff.2 fun r hr => by simp [h r hr]
  unfold Sections.ofRecords
  dsimp only
  rw [hnone]

/-- The record that announces the sizes is the first one that mentions the number of nodes; what
comes after it is cut as it says. -/
theorem Sections.ofRecords_append (hheader : ∀ r ∈ header, r.has "ndofman" = false)
    (hcomponents : components.has "ndofman" = true) (rest : List Record) :
    Sections.ofRecords (header ++ components :: rest) = (do
      let nodeCount ← components.value Text.unsigned? "ndofman"
      let elementCount ← components.value Text.unsigned? "nelem"
      let (nodes, rest) ← takeSection .nodes nodeCount rest
      let (elements, trailer) ← takeSection .elements elementCount rest
      return ⟨header, components, nodes, elements, trailer⟩) := by
  have hnot : ∀ r ∈ header, (!r.has "ndofman") = true := fun r hr => by simp [hheader r hr]
  have hstop : (!components.has "ndofman") = false := by simp [hcomponents]
  unfold Sections.ofRecords
  dsimp only
  rw [List.takeWhile_append_of_pos hnot, List.dropWhile_append_of_pos hnot,
    List.takeWhile_cons_of_neg (by simp [hstop]), List.dropWhile_cons_of_neg (by simp [hstop]),
    List.append_nil]

/-- Splitting records succeeds exactly with the sections that are announced. -/
theorem Sections.ofRecords_eq_ok_iff :
    Sections.ofRecords records = .ok s ↔ s.Announced ∧ records = s.records := by
  constructor
  · intro h
    cases hfirst : records.find? (·.has "ndofman") with
    | none =>
      rw [ofRecords_of_not_has (by simpa using hfirst)] at h
      cases h
    | some components =>
      obtain ⟨hcomponents, header, rest, rfl, hheader⟩ := List.find?_eq_some_iff_append.1 hfirst
      have hheader : ∀ r ∈ header, r.has "ndofman" = false := by simpa using hheader
      rw [ofRecords_append hheader hcomponents] at h
      obtain ⟨nodeCount, hnodeCount, h⟩ := bind_eq_ok_iff.1 h
      obtain ⟨elementCount, helementCount, h⟩ := bind_eq_ok_iff.1 h
      obtain ⟨⟨nodes, others⟩, hnodes, h⟩ := bind_eq_ok_iff.1 h
      obtain ⟨⟨elements, trailer⟩, helements, h⟩ := bind_eq_ok_iff.1 h
      cases h
      obtain ⟨rfl, rfl⟩ := takeSection_eq_ok_iff.1 hnodes
      obtain ⟨rfl, rfl⟩ := takeSection_eq_ok_iff.1 helements
      exact ⟨⟨hheader, hnodeCount, helementCount⟩, by simp [records]⟩
  · rintro ⟨hs, rfl⟩
    rw [Sections.records, ofRecords_append hs.header_has (Record.has_of_value hs.nodes_value),
      hs.nodes_value, hs.elements_value, List.append_assoc]
    simp only [bind_eq_ok_iff]
    exact ⟨_, rfl, _, rfl, _, takeSection_append rfl _, _, takeSection_append rfl _, rfl⟩

/-! ## The mesh -/

/-- A record says what a node is. -/
structure Record.DescribesNode (r : Record) (n : Node) : Prop where
  number_eq : r.number = .ok n.id.toNat
  constraint_eq : r.constraint = .ok n.constraint

/-- A record says what an element over some nodes is: the node positions of the element are those of
the listed ids, in order. -/
structure Record.DescribesElement (nodes : List Node) (r : Record) (e : Element) : Prop where
  number_eq : r.number = .ok e.id.toNat
  list_eq : ∃ nodeIds : List GlobalId,
    r.list Text.unsigned? "nodes" = .ok (nodeIds.map GlobalId.toNat) ∧
      List.Forall₂ (fun id n => (nodes.map Node.id)[n]? = some id) nodeIds e.nodes

variable {m m' : Mesh} {r : Record} {rs : List Record}

theorem addNode_eq_ok_iff : addNode m r = .ok m' ↔
    ∃ n, r.DescribesNode n ∧ m'.nodes = m.nodes ++ [n] ∧ m'.elements = m.elements := by
  constructor
  · intro h
    obtain ⟨id, hid, h⟩ := bind_eq_ok_iff.1 h
    obtain ⟨constraint, hconstraint, h⟩ := bind_eq_ok_iff.1 h
    obtain ⟨⟨i, m''⟩, hadd, h⟩ := bind_eq_ok_iff.1 h
    cases h
    obtain ⟨-, hnodes, helements⟩ := Mesh.addNode_eq_ok_iff.1 hadd
    exact ⟨⟨id, constraint⟩, ⟨Record.id_eq_ok_iff.1 hid, hconstraint⟩, hnodes, helements⟩
  · rintro ⟨n, hn, hnodes, helements⟩
    have hadd := Mesh.addNode_eq_ok_iff.2 ⟨rfl, hnodes, helements⟩
    rw [addNode, Record.id_eq_ok_iff.2 hn.number_eq, hn.constraint_eq]
    exact bind_eq_ok_iff.2 ⟨_, rfl, bind_eq_ok_iff.2 ⟨_, rfl, bind_eq_ok_iff.2 ⟨_, hadd, rfl⟩⟩⟩

theorem addElement_eq_ok_iff : addElement m r = .ok m' ↔
    ∃ e, r.DescribesElement m.nodes e ∧ m'.elements = m.elements ++ [e] ∧ m'.nodes = m.nodes := by
  constructor
  · intro h
    obtain ⟨id, hid, h⟩ := bind_eq_ok_iff.1 h
    obtain ⟨ns, hns, h⟩ := bind_eq_ok_iff.1 h
    obtain ⟨nodeIds, hnodeIds, h⟩ := bind_eq_ok_iff.1 h
    obtain ⟨⟨i, m''⟩, hadd, h⟩ := bind_eq_ok_iff.1 h
    cases h
    obtain ⟨-, hnodes, nodes, helements, hpositions⟩ := Mesh.addElement_eq_ok_iff.1 hadd
    rw [Record.globalIds_eq_ok_iff.1 hnodeIds] at hns
    exact ⟨⟨id, nodes⟩, ⟨Record.id_eq_ok_iff.1 hid, nodeIds, hns,
      hpositions.imp fun _ _ => Mesh.nodeIndex?_eq_some_iff.1⟩, helements, hnodes⟩
  · rintro ⟨e, ⟨hnumber, nodeIds, hlist, hpositions⟩, helements, hnodes⟩
    have hadd := Mesh.addElement_eq_ok_iff.2 ⟨rfl, hnodes, e.nodes, helements,
      hpositions.imp fun _ _ => Mesh.nodeIndex?_eq_some_iff.2⟩
    rw [addElement, Record.id_eq_ok_iff.2 hnumber, hlist]
    exact bind_eq_ok_iff.2 ⟨_, rfl, bind_eq_ok_iff.2 ⟨_, rfl,
      bind_eq_ok_iff.2 ⟨_, Record.globalIds_eq_ok_iff.2 rfl, bind_eq_ok_iff.2 ⟨_, hadd, rfl⟩⟩⟩⟩

/-- Adding one entry to a table for each record appends what the records describe. The rest of the
mesh is left as it is, and it may decide what a record describes. -/
theorem foldlM_eq_ok_iff {β γ : Type} {step : Mesh → Record → Except Error Mesh}
    (table : Mesh → List β) (rest : Mesh → γ) (Describes : γ → Record → β → Prop)
    (hstep : ∀ m r m', step m r = .ok m' ↔
      ∃ b, Describes (rest m) r b ∧ table m' = table m ++ [b] ∧ rest m' = rest m)
    (hext : ∀ m m', table m = table m' → rest m = rest m' → m = m')
    (hbeginning : ∀ m m' b added, table m' = table m ++ [b] ++ added → rest m' = rest m →
      ∃ m₁, table m₁ = table m ++ [b] ∧ rest m₁ = rest m) :
    rs.foldlM step m = .ok m' ↔
      ∃ added, List.Forall₂ (Describes (rest m)) rs added ∧ table m' = table m ++ added ∧
        rest m' = rest m := by
  induction rs generalizing m with
  | nil =>
    rw [List.foldlM_nil]
    constructor
    · intro h
      cases h
      exact ⟨[], .nil, by simp, rfl⟩
    · rintro ⟨added, hadded, htable, hrest⟩
      cases hadded
      rw [List.append_nil] at htable
      exact congrArg Except.ok (hext m' m htable hrest).symm
  | cons r rs ih =>
    rw [List.foldlM_cons, bind_eq_ok_iff]
    constructor
    · rintro ⟨m₁, hfirst, hothers⟩
      obtain ⟨b, hb, htable₁, hrest₁⟩ := (hstep m r m₁).1 hfirst
      obtain ⟨added, hadded, htable, hrest⟩ := ih.1 hothers
      refine ⟨b :: added, .cons hb (hrest₁ ▸ hadded), ?_, hrest.trans hrest₁⟩
      rw [htable, htable₁, List.append_assoc, List.singleton_append]
    · rintro ⟨added, hadded, htable, hrest⟩
      cases hadded with
      | @cons _ b _ added hb hadded =>
        rw [List.append_cons] at htable
        obtain ⟨m₁, htable₁, hrest₁⟩ := hbeginning m m' b added htable hrest
        exact ⟨m₁, (hstep m r m₁).2 ⟨b, hb, htable₁, hrest₁⟩,
          ih.2 ⟨added, hrest₁ ▸ hadded, htable₁ ▸ htable, hrest.trans hrest₁.symm⟩⟩

/-- Adding nodes record by record appends the nodes that the records describe. -/
theorem foldlM_addNode_eq_ok_iff : rs.foldlM addNode m = .ok m' ↔
    ∃ added, List.Forall₂ Record.DescribesNode rs added ∧ m'.nodes = m.nodes ++ added ∧
      m'.elements = m.elements := by
  refine foldlM_eq_ok_iff Mesh.nodes Mesh.elements (fun _ => Record.DescribesNode)
    (fun _ _ _ => addNode_eq_ok_iff) (fun _ _ => Mesh.eq_of_tables) ?_
  intro m m' n added hnodes helements
  exact Mesh.exists_beginning (m := m') (hnodes ▸ List.prefix_append _ _)
    (helements ▸ List.prefix_rfl) fun e he k hk => (m.node_lt e he k hk).trans_le (by simp)

/-- Adding elements record by record appends the elements that the records describe. -/
theorem foldlM_addElement_eq_ok_iff : rs.foldlM addElement m = .ok m' ↔
    ∃ added, List.Forall₂ (Record.DescribesElement m.nodes) rs added ∧
      m'.elements = m.elements ++ added ∧ m'.nodes = m.nodes := by
  refine foldlM_eq_ok_iff Mesh.elements Mesh.nodes Record.DescribesElement
    (fun _ _ _ => addElement_eq_ok_iff) (fun _ _ h h' => Mesh.eq_of_tables h' h) ?_
  intro m m' e added helements hnodes
  have hbeginning : m.elements ++ [e] <+: m'.elements := ⟨added, helements.symm⟩
  obtain ⟨m₁, hnodes₁, helements₁⟩ := Mesh.exists_beginning (m := m') List.prefix_rfl hbeginning
    fun e he => m'.node_lt e (hbeginning.subset he)
  exact ⟨m₁, helements₁, hnodes₁.trans hnodes⟩

/-- Building the mesh succeeds exactly with the mesh that mirrors the records. -/
theorem Sections.mesh_eq_ok_iff : s.mesh = .ok m ↔
    List.Forall₂ Record.DescribesNode s.nodes m.nodes ∧
      List.Forall₂ (Record.DescribesElement m.nodes) s.elements m.elements := by
  rw [Sections.mesh, bind_eq_ok_iff]
  constructor
  · rintro ⟨m₁, hfirst, hrest⟩
    obtain ⟨nodes, hnodes, hnodes₁, helements₁⟩ := foldlM_addNode_eq_ok_iff.1 hfirst
    obtain ⟨elements, helements, hadded, hsame⟩ := foldlM_addElement_eq_ok_iff.1 hrest
    rw [helements₁] at hadded
    rw [hadded, hsame]
    exact ⟨hnodes₁ ▸ hnodes, helements⟩
  · rintro ⟨hnodes, helements⟩
    obtain ⟨m₁, hnodes₁, helements₁⟩ :=
      Mesh.exists_beginning (m := m) List.prefix_rfl List.nil_prefix nofun
    exact ⟨m₁, foldlM_addNode_eq_ok_iff.2 ⟨m.nodes, hnodes, hnodes₁, helements₁⟩,
      foldlM_addElement_eq_ok_iff.2 ⟨m.elements, hnodes₁ ▸ helements,
        by rw [helements₁, List.nil_append], hnodes₁.symm⟩⟩

/-! ## Decks -/

/-- Reading succeeds exactly with the deck that has the records of the text, in the sections that
are announced, and the mesh that they describe. -/
theorem ofText_eq_ok_iff {text : String} {d : Deck} : ofText text = .ok d ↔
    d.Announced ∧ Record.ofText text = d.records ∧ d.toSections.mesh = .ok d.mesh := by
  rw [ofText, bind_eq_ok_iff]
  constructor
  · rintro ⟨s, hs, h⟩
    obtain ⟨m, hm, h⟩ := bind_eq_ok_iff.1 h
    cases h
    obtain ⟨hannounced, hrecords⟩ := Sections.ofRecords_eq_ok_iff.1 hs
    exact ⟨hannounced, hrecords, hm⟩
  · rintro ⟨hannounced, hrecords, hm⟩
    exact ⟨d.toSections, Sections.ofRecords_eq_ok_iff.2 ⟨hannounced, hrecords⟩,
      bind_eq_ok_iff.2 ⟨d.mesh, hm, rfl⟩⟩

/-- Reading succeeds exactly with the deck that mirrors the text. Its sections are the records of
the text in order, none lost and none repeated, of which the component record is the first that
mentions the number of nodes. The sections of nodes and elements have the sizes that it announces.
And the mesh mirrors them: a node has the number of its record as id, and the constraint of the
record; an element has the number of its record as id, and its node positions are those of the ids
that the record lists, in order. -/
theorem ofText_eq_ok_iff_mirrors {text : String} {d : Deck} : ofText text = .ok d ↔
    d.header ++ d.components :: (d.nodes ++ d.elements ++ d.trailer) = Record.ofText text ∧
    (∀ r ∈ d.header, ¬ r.Mentions "ndofman") ∧ d.components.Mentions "ndofman" ∧
    d.components.value Text.unsigned? "ndofman" = .ok d.nodes.length ∧
    d.components.value Text.unsigned? "nelem" = .ok d.elements.length ∧
    List.Forall₂ Record.DescribesNode d.nodes d.mesh.nodes ∧
    List.Forall₂ (Record.DescribesElement d.mesh.nodes) d.elements d.mesh.elements := by
  rw [ofText_eq_ok_iff, Sections.mesh_eq_ok_iff]
  constructor
  · rintro ⟨hannounced, hrecords, hnodes, helements⟩
    have hheader : ∀ r ∈ d.header, ¬ r.Mentions "ndofman" := fun r hr hmentions => by
      rw [← Record.has_iff, hannounced.header_has r hr] at hmentions
      cases hmentions
    exact ⟨hrecords.symm, hheader, Record.has_iff.1 (Record.has_of_value hannounced.nodes_value),
      hannounced.nodes_value, hannounced.elements_value, hnodes, helements⟩
  · rintro ⟨hrecords, hheader, -, hnodeCount, helementCount, hnodes, helements⟩
    have hheader : ∀ r ∈ d.header, r.has "ndofman" = false := fun r hr =>
      Bool.eq_false_iff.2 fun hhas => hheader r hr (Record.has_iff.1 hhas)
    exact ⟨⟨hheader, hnodeCount, helementCount⟩, hrecords.symm, hnodes, helements⟩

/-- A keyword that is quoted does not count, and one in another case does. -/
example : (ofText "\"ndofman 9\"\nNDofMan 2 nElem 1\nnode 7\nnode 8\ntruss1d 4 nodes 2 8 7\n").map
    (fun d => (d.header.length, d.mesh.elements.map Element.nodes)) = .ok (1, [[1, 0]]) := by
  decide

end Deck

end MeshPartition
