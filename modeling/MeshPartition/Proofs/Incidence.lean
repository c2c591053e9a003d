import MeshPartition.Classification
import Mathlib.Data.Set.Insert

/-!
# The parts that meet at a node

Which parts meet at a node is decided by the elements that contain it (`Mesh.incidentParts`). The
tables say the same through `Incidence.partSet`, which reads an incidence table and an assignment
that need not belong to one mesh; `partsAt_eq_ok` says when the look-ups behind it succeed, and
`mem_partSet_ofMesh` that for the incidence table of the mesh the two agree. The sets of a
classification before it is closed are these sets (`Classification.ofAssignment_eq_ok_iff`).
-/

namespace MeshPartition

/-- Collecting results that exist for all entries of a list. -/
theorem mapM_eq_ok {α β : Type} {f : α → Except Error β} {g : α → β} {as : List α}
    (h : ∀ a ∈ as, f a = .ok (g a)) : as.mapM f = .ok (as.map g) := by
  induction as with
  | nil => rfl
  | cons a as ih =>
    rw [List.mapM_cons, h a List.mem_cons_self, ih fun b hb => h b (List.mem_cons_of_mem a hb)]
    rfl

/-- The parts of the elements that contain a node. -/
def Mesh.incidentParts (m : Mesh) (a : Assignment) (n : ℕ) : Set ℕ :=
  {q | ∃ (e : ℕ) (el : Element),
    m.elements[e]? = some el ∧ n ∈ el.nodes ∧ a.parts[e]? = some q}

/-- The nodes that elements contain are nodes of the mesh. -/
theorem Mesh.lt_of_mem_incidentParts {m : Mesh} {a : Assignment} {n q : ℕ}
    (h : q ∈ m.incidentParts a n) : n < m.nodeCount := by
  obtain ⟨e, el, hel, hn, -⟩ := h
  exact m.node_lt el (List.mem_of_getElem? hel) n hn

namespace Incidence

variable {inc : Incidence} {a : Assignment} {n q : ℕ}

/-- The parts of the elements at a node. Positions past the tables count for nothing. -/
def partSet (inc : Incidence) (a : Assignment) (n : ℕ) : IndexSet :=
  IndexSet.ofList ((inc.incident[n]?.getD ∅).toList.filterMap (a.parts[·]?))

/-- A part meets at a node if it owns an element there. -/
theorem mem_partSet : q ∈ inc.partSet a n ↔
    ∃ e, (∃ s, inc.incident[n]? = some s ∧ e ∈ s) ∧ a.parts[e]? = some q := by
  rw [partSet, IndexSet.mem_ofList, List.mem_filterMap]
  cases inc.incident[n]? with
  | none =>
    constructor
    · rintro ⟨e, he, -⟩
      exact absurd he (IndexSet.not_mem_empty e)
    · rintro ⟨e, ⟨s, hs, -⟩, -⟩
      cases hs
  | some s =>
    constructor
    · rintro ⟨e, he, hq⟩
      exact ⟨e, ⟨s, rfl, he⟩, hq⟩
    · rintro ⟨e, ⟨s', hs', he⟩, hq⟩
      cases hs'
      exact ⟨e, he, hq⟩

/-- Looking up the parts of elements that the assignment knows. -/
theorem mapM_partOf_eq_ok {es : List ℕ} (h : ∀ e ∈ es, e < a.size) :
    es.mapM a.partOf = .ok (es.filterMap (a.parts[·]?)) := by
  induction es with
  | nil => rfl
  | cons e es ih =>
    have he : e < a.parts.length := h e List.mem_cons_self
    have hrest := ih fun e' he' => h e' (List.mem_cons_of_mem e he')
    rw [List.mapM_cons, Assignment.partOf, entryAt_of_lt he, hrest,
      List.filterMap_cons_some (List.getElem?_eq_getElem he)]
    rfl

/-- If the assignment is over the elements of the table, looking up the parts at a node of the
table succeeds. -/
theorem partsAt_eq_ok (hsize : a.size = inc.elementCount) (hn : n < inc.size) :
    inc.partsAt a n = .ok (inc.partSet a n) := by
  have hrow : inc.elementsAt n = .ok inc.incident[n] := entryAt_of_lt hn
  -- The table lists only elements that the assignment knows.
  have hparts : inc.incident[n].toList.mapM a.partOf =
      .ok (inc.incident[n].toList.filterMap (a.parts[·]?)) := by
    apply mapM_partOf_eq_ok
    intro e he
    rw [hsize]
    exact inc.element_lt _ (List.getElem_mem hn) e he
  rw [partsAt, hrow]
  show (inc.incident[n].toList.mapM a.partOf >>= fun parts => _) = _
  rw [hparts, partSet, List.getElem?_eq_getElem hn]
  rfl

/-- The incidence table of a mesh has a row for each node. -/
theorem size_ofMesh (m : Mesh) : (ofMesh m).size = m.nodeCount := length_rows m

/-- In the incidence table of a mesh the parts that meet at a node are those of the elements that
contain it. -/
theorem mem_partSet_ofMesh {m : Mesh} :
    q ∈ (ofMesh m).partSet a n ↔ q ∈ m.incidentParts a n := by
  rw [mem_partSet]
  constructor
  · rintro ⟨e, he, hq⟩
    obtain ⟨el, hel, hn⟩ := mem_rows.1 he
    exact ⟨e, el, hel, hn, hq⟩
  · rintro ⟨e, el, hel, hn, hq⟩
    exact ⟨e, mem_rows.2 ⟨el, hel, hn⟩, hq⟩

end Incidence

/-- The elements of a part. -/
theorem Assignment.mem_elementsOf {a : Assignment} {p e : ℕ} :
    e ∈ a.elementsOf p ↔ a.parts[e]? = some p := by
  rw [elementsOf, List.mem_map]
  constructor
  · rintro ⟨⟨q, e'⟩, hx, rfl⟩
    rw [List.mem_filter, List.mem_zipIdx_iff_getElem?] at hx
    rw [hx.1, of_decide_eq_true hx.2]
  · intro h
    refine ⟨(p, e), List.mem_filter.2 ⟨List.mem_zipIdx_iff_getElem?.2 h, ?_⟩, rfl⟩
    exact decide_eq_true rfl

/-- The elements of a part are listed in ascending order. -/
theorem Assignment.sorted_elementsOf (a : Assignment) (p : ℕ) :
    (a.elementsOf p).Pairwise (· < ·) := by
  have hpositions : (a.parts.zipIdx.map Prod.snd).Pairwise (· < ·) := by
    rw [List.zipIdx_map_snd]
    exact List.pairwise_lt_range'
  exact hpositions.sublist (List.filter_sublist.map Prod.snd)

/-- Classifying succeeds if the assignment is over the elements of the incidence table. The sets
are then those of the parts that meet at the nodes, and the statuses follow from them. -/
theorem Classification.ofAssignment_eq_ok_iff {inc : Incidence} {a : Assignment}
    {c : Classification} : ofAssignment inc a = .ok c ↔ a.size = inc.elementCount ∧
      c = ⟨((List.range inc.size).map (inc.partSet a)).map statusOf,
        (List.range inc.size).map (inc.partSet a)⟩ := by
  rw [ofAssignment]
  by_cases hsize : a.size = inc.elementCount
  · have hsets : (List.range inc.size).mapM (inc.partsAt a) =
        .ok ((List.range inc.size).map (inc.partSet a)) :=
      mapM_eq_ok fun n hn => Incidence.partsAt_eq_ok hsize (List.mem_range.1 hn)
    rw [if_neg (not_not_intro hsize), hsets]
    show Except.ok _ = Except.ok c ↔ _
    rw [Except.ok.injEq, eq_comm, and_iff_right hsize]
  · rw [if_pos hsize]
    exact ⟨fun h => (by cases h), fun h => absurd h.1 hsize⟩

/-- Classifying by an assignment of the elements of a mesh gives a status and a set for each of its
nodes. -/
theorem Classification.exists_ofAssignment {m : Mesh} {a : Assignment}
    (ha : a.size = m.elementCount) : ∃ c, ofAssignment (Incidence.ofMesh m) a = .ok c ∧
      c.size = m.nodeCount ∧ c.partitions.length = m.nodeCount := by
  refine ⟨_, ofAssignment_eq_ok_iff.2 ⟨ha, rfl⟩, ?_, ?_⟩
  · rw [size, List.length_map, List.length_map, List.length_range, Incidence.size_ofMesh]
  · rw [List.length_map, List.length_range, Incidence.size_ofMesh]

end MeshPartition
