import MeshPartition.Json.Tables
import MeshPartition.Proofs.Counting
import MeshPartition.Proofs.Partitioner
import MeshPartition.Proofs.Run.Coverage
import MeshPartition.Proofs.Shape

/-!
# The lists of a run cut the mesh

The lists of a run divide among the parts the elements that are given to parts which exist, and with
them the nodes that belong to one such part only (`Mesh.partition_cuts_mesh`). The list of a part
has the part's elements in ascending order, and all their nodes. A node is local in one list at
most, and then that list has all elements of the node. The columns of the summary are counted in the
same way (`Mesh.Stages.sum_column`), since nothing belongs to two parts.

That no element is missing needs an assignment that gives every element to a part that exists
(`Assignment.InRange`). `Assignment.ofParts` makes no others, so the partitioners of the library
answer with no others. Then every element is in exactly one list, and the columns add up: the
elements to those of the mesh, and the local nodes to the nodes that a classification calls local
before it is closed. A partitioner from elsewhere may answer with an assignment that was read from a
text, where nobody has looked at its entries. A run takes it all the same, and the elements that it
gives to no part are in no list (`Mesh.not_forall_run_cuts_mesh`).
-/

namespace MeshPartition

/-- Before the closure as many nodes are local as have all their elements in one part. -/
theorem Classification.count_localOnly {m : Mesh} {a : Assignment} {c : Classification}
    (h : ofAssignment (Incidence.ofMesh m) a = .ok c) :
    c.count .localOnly = {n | ∃ p, m.incidentParts a n = {p}}.ncard := by
  obtain ⟨-, rfl⟩ := ofAssignment_eq_ok_iff.1 h
  have hlocal : ∀ n, statusOf ((Incidence.ofMesh m).partSet a n) = .localOnly ↔
      ∃ p, m.incidentParts a n = {p} := by
    intro n
    have hsets : {q | q ∈ (Incidence.ofMesh m).partSet a n} = m.incidentParts a n :=
      Set.ext fun q => Incidence.mem_partSet_ofMesh
    rw [statusOf, ← hsets, ← IndexSet.size_eq_one_iff]
    split_ifs with hsize <;> simp [hsize]
  -- The nodes that are counted, one after the other.
  have hmem : {n | ∃ p, m.incidentParts a n = {p}} =
      {n | n ∈ (List.range (Incidence.ofMesh m).size).filter fun n =>
        statusOf ((Incidence.ofMesh m).partSet a n) == .localOnly} := by
    ext n
    show (∃ p, m.incidentParts a n = {p}) ↔ _ ∈ List.filter _ _
    rw [List.mem_filter, List.mem_range, beq_iff_eq, hlocal, Incidence.size_ofMesh]
    refine (and_iff_right_of_imp ?_).symm
    rintro ⟨p, hp⟩
    exact Mesh.lt_of_mem_incidentParts (hp.symm ▸ Set.mem_singleton p)
  rw [hmem, ncard_setOf_mem (List.nodup_range.filter _), count, List.map_map,
    List.count_eq_countP, List.countP_map, List.countP_eq_length_filter]
  rfl

namespace Mesh

variable {m : Mesh} {partitioner : Partitioner} {config : Config} {run : Run} {p q n e : ℕ}

namespace Stages

variable (st : m.Stages partitioner config run)

include st

/-- The list of a part has the elements that are assigned to the part. -/
theorem mem_elements {l : NodeList} (h : st.context.Lists p (st.context.IsNeeded p) l) :
    e ∈ l.elements ↔ run.assignment.parts[e]? = some p := by
  obtain ⟨-, -, hassignment, -⟩ := Context.eq_of_ofTables st.ofTables_eq
  rw [h.elements_eq, hassignment, Assignment.mem_elementsOf]

/-- The elements of a list are in ascending order. -/
theorem sorted_elements {l : NodeList} (h : st.context.Lists p (st.context.IsNeeded p) l) :
    l.elements.Pairwise (· < ·) := by
  rw [h.elements_eq]
  exact Assignment.sorted_elementsOf _ p

/-- The list of a part has as local nodes those all of whose elements lie in the part. -/
theorem mem_localNodes {l : NodeList} (h : st.context.Lists p (st.context.IsNeeded p) l) :
    n ∈ l.localNodes ↔ m.incidentParts run.assignment n = {p} := by
  rw [h.mem_localNodes, st.isInner_iff]

/-- The run has a part for each element of the mesh. -/
theorem exists_part (he : e < m.elementCount) : ∃ q, run.assignment.parts[e]? = some q := by
  have hlt : e < run.assignment.parts.length :=
    he.trans_eq (checkShape_eq_ok_iff.1 st.checkShape_eq).1.symm
  exact ⟨_, List.getElem?_eq_getElem hlt⟩

/-- It has parts for no other elements. -/
theorem lt_of_getElem?_parts (h : run.assignment.parts[e]? = some p) : e < m.elementCount :=
  (List.getElem?_eq_some_iff.1 h).1.trans_eq (checkShape_eq_ok_iff.1 st.checkShape_eq).1

/-- If the assignment is in range, the part of an element is one of those of the run. -/
theorem lt_partCount (hrange : run.assignment.InRange) (h : run.assignment.parts[e]? = some p) :
    p < config.partCount :=
  (hrange p (List.mem_of_getElem? h)).trans_eq st.partCount_eq

/-- A list of the run has an element if it is the list of the part that the element is assigned
to. -/
theorem exists_mem_elements_iff :
    (∃ l : NodeList, run.partitions[p]? = some l ∧ e ∈ l.elements) ↔
    p < config.partCount ∧ run.assignment.parts[e]? = some p := by
  constructor
  · rintro ⟨l, hl, he⟩
    obtain ⟨hp, hlists⟩ := st.lists_of_getElem? hl
    exact ⟨hp, (st.mem_elements hlists).1 he⟩
  · rintro ⟨hp, he⟩
    obtain ⟨l, hl, hlists⟩ := st.exists_list hp
    exact ⟨l, hl, (st.mem_elements hlists).2 he⟩

/-- The assignment of the run is in range exactly if it gives every element of the mesh to a part
that exists. -/
theorem inRange_iff : run.assignment.InRange ↔
    ∀ e < m.elementCount, ∃ p < config.partCount, run.assignment.parts[e]? = some p := by
  constructor
  · intro hrange e he
    obtain ⟨q, hq⟩ := st.exists_part he
    exact ⟨q, st.lt_partCount hrange hq, hq⟩
  · intro hparts q hq
    obtain ⟨e, he⟩ := List.getElem?_of_mem hq
    obtain ⟨p, hp, hep⟩ := hparts e (st.lt_of_getElem?_parts he)
    obtain rfl := Option.some.inj (he.symm.trans hep)
    rwa [st.partCount_eq]

/-- Every element is in exactly one list if and only if it is given to a part that exists. -/
theorem existsUnique_list_iff :
    (∀ e < m.elementCount, ∃! p : ℕ, ∃ l, run.partitions[p]? = some l ∧ e ∈ l.elements) ↔
      run.assignment.InRange := by
  simp only [st.exists_mem_elements_iff, st.inRange_iff]
  refine forall₂_congr fun e _ => ⟨fun ⟨p, hp, _⟩ => ⟨p, hp⟩, ?_⟩
  rintro ⟨p, hp⟩
  exact ⟨p, hp, fun q hq => Option.some.inj (hq.2.symm.trans hp.2)⟩

/-- The elements of a list are elements of the mesh, and the list has all nodes of these. -/
theorem isAccessible_of_contains {l : NodeList}
    (h : st.context.Lists p (st.context.IsNeeded p) l) (he : e ∈ l.elements) :
    e < m.elementCount ∧ ∀ n, m.Contains e n → l.isAccessible n = true := by
  have hpart := (st.mem_elements h).1 he
  refine ⟨st.lt_of_getElem?_parts hpart, fun n hn => ?_⟩
  exact st.isAccessible_of_mem_incidentParts h (mem_incidentParts.2 ⟨e, hn, hpart⟩)

/-- A list has all elements of its local nodes. -/
theorem mem_elements_of_contains {l : NodeList}
    (h : st.context.Lists p (st.context.IsNeeded p) l) (hn : n ∈ l.localNodes)
    (he : m.Contains e n) : e ∈ l.elements := by
  obtain ⟨el, hel, -⟩ := id he
  obtain ⟨q, hq⟩ := st.exists_part (List.getElem?_eq_some_iff.1 hel).1
  -- The part of the element meets at the node, so it is the only one that does.
  have hmeets := mem_incidentParts.2 ⟨e, he, hq⟩
  rw [(st.mem_localNodes h).1 hn] at hmeets
  obtain rfl : q = p := hmeets
  exact (st.mem_elements h).2 hq

/-- A node is local in one list at most. -/
theorem eq_of_mem_localNodes {l l' : NodeList}
    (h : st.context.Lists p (st.context.IsNeeded p) l)
    (h' : st.context.Lists q (st.context.IsNeeded q) l') (hn : n ∈ l.localNodes)
    (hn' : n ∈ l'.localNodes) : q = p :=
  Set.singleton_injective (((st.mem_localNodes h').1 hn').symm.trans ((st.mem_localNodes h).1 hn))

/-- If each list holds what belongs to its part, and nothing belongs to two parts, then the lengths
of what the lists hold add up. -/
theorem sum_column (f : NodeList → List ℕ) (belongs : ℕ → ℕ → Prop)
    (hlists : ∀ p l, st.context.Lists p (st.context.IsNeeded p) l →
      (f l).Nodup ∧ ∀ x, x ∈ f l ↔ belongs p x)
    (hunique : ∀ p q x, belongs p x → belongs q x → p = q) :
    (run.partitions.map fun l => (f l).length).sum =
      {x | ∃ p < config.partCount, belongs p x}.ncard := by
  have hcolumn : (run.partitions.map fun l => (f l).length) =
      (run.partitions.map f).map List.length := by
    rw [List.map_map]
    rfl
  rw [hcolumn, sum_length_eq_ncard belongs ?_ hunique, List.length_map, st.length_partitions]
  intro p as has
  rw [List.getElem?_map, Option.map_eq_some_iff] at has
  obtain ⟨l, hl, rfl⟩ := has
  exact hlists p l (st.lists_of_getElem? hl).2

/-- The numbers of elements of the lists add up to that of the elements that are given to parts
which exist. -/
theorem sum_elements : (run.summary.map Summary.elements).sum =
    {e : ℕ | ∃ p < config.partCount, run.assignment.parts[e]? = some p}.ncard := by
  rw [Run.summary, List.map_map]
  exact st.sum_column NodeList.elements (fun p e => run.assignment.parts[e]? = some p)
    (fun p l hl => ⟨(st.sorted_elements hl).imp Nat.ne_of_lt, fun e => st.mem_elements hl⟩)
    fun p q e hp hq => Option.some.inj (hp.symm.trans hq)

/-- They add up to the number of elements of the mesh if and only if no element is given to a part
that does not exist. -/
theorem sum_elements_eq_iff :
    (run.summary.map Summary.elements).sum = m.elementCount ↔ run.assignment.InRange := by
  have hall : {e | e ∈ List.range m.elementCount}.ncard = m.elementCount := by
    rw [ncard_setOf_mem List.nodup_range, List.length_range]
  have hsub : {e : ℕ | ∃ p < config.partCount, run.assignment.parts[e]? = some p} ⊆
      {e | e ∈ List.range m.elementCount} := by
    rintro e ⟨p, -, he⟩
    exact List.mem_range.2 (st.lt_of_getElem?_parts he)
  rw [st.sum_elements, st.inRange_iff]
  constructor
  · intro hcount e he
    -- As many were counted as there are in the mesh, so none is left out.
    have heq := Set.eq_of_subset_of_ncard_le hsub (hall.trans hcount.symm).le
      (List.finite_toSet _)
    exact heq.ge (List.mem_range.2 he)
  · intro hparts
    have heq := hsub.antisymm fun e he => hparts e (List.mem_range.1 he)
    rw [heq, hall]

/-- The numbers of local nodes of the lists add up to the number of nodes all of whose elements lie
in one part that exists. -/
theorem sum_localNodes : (run.summary.map Summary.localNodes).sum =
    {n | ∃ p < config.partCount, m.incidentParts run.assignment n = {p}}.ncard := by
  rw [Run.summary, List.map_map]
  exact st.sum_column (fun l => l.localNodes.toList)
    (fun p n => m.incidentParts run.assignment n = {p})
    (fun p l hl => ⟨l.localNodes.nodup_toList, fun n => st.mem_localNodes hl⟩)
    fun p q n hp hq => Set.singleton_injective (hp.symm.trans hq)

/-- If every element is given to a part that exists, so is the one part of a node. -/
theorem setOf_incidentParts_eq (hrange : run.assignment.InRange) :
    {n | ∃ p < config.partCount, m.incidentParts run.assignment n = {p}} =
      {n | ∃ p, m.incidentParts run.assignment n = {p}} := by
  ext n
  refine exists_congr fun p => and_iff_right_of_imp fun hp => ?_
  -- The one part of a node is the part of some element.
  obtain ⟨e, -, he⟩ := mem_incidentParts.1 (hp.symm ▸ Set.mem_singleton p)
  exact st.lt_partCount hrange he

end Stages

/-- A run has one list for each part. The list of a part has the elements that are given to the
part, in ascending order, and all nodes of these. A node that is local in it is local in no other
list, and all its elements are in it. The numbers of elements add up to that of the elements that
are given to parts which exist, and the numbers of local nodes to that of the nodes with all
elements in one such part. Before the closure those nodes are local that have all elements in one
part, be it one that exists or not.

So every element is in exactly one list, and the numbers of elements add up to that of the mesh, if
and only if every element is given to a part that exists. Then the numbers of local nodes add up to
that of the nodes that are local before the closure. `Assignment.ofParts` makes no assignments but
such, so that the partitioners of the library answer with no others. Of `Partitioner.block` this is
said of its formula, see `Partitioner.BuiltIn`. -/
theorem partition_cuts_mesh (h : (m.partition partitioner config).result = .ok run) :
    run.partitions.length = config.partCount ∧
    (∀ p < config.partCount, ∃ l, run.partitions[p]? = some l ∧ l.partition = p ∧
      l.elements.Pairwise (· < ·) ∧
      (∀ e, e ∈ l.elements ↔ run.assignment.parts[e]? = some p) ∧
      (∀ e ∈ l.elements, e < m.elementCount ∧
        ∀ n, m.Contains e n → l.isAccessible n = true) ∧
      ∀ n ∈ l.localNodes, (∀ e, m.Contains e n → e ∈ l.elements) ∧
        ∀ q l', run.partitions[q]? = some l' → n ∈ l'.localNodes → q = p) ∧
    (run.summary.map Summary.elements).sum =
      {e : ℕ | ∃ p < config.partCount, run.assignment.parts[e]? = some p}.ncard ∧
    (run.summary.map Summary.localNodes).sum =
      {n | ∃ p < config.partCount, m.incidentParts run.assignment n = {p}}.ncard ∧
    (∃ classified,
      Classification.ofAssignment (Incidence.ofMesh m) run.assignment = .ok classified ∧
      classified.count .localOnly = {n | ∃ p, m.incidentParts run.assignment n = {p}}.ncard ∧
      (run.assignment.InRange →
        (run.summary.map Summary.localNodes).sum = classified.count .localOnly)) ∧
    ((∀ e < m.elementCount, ∃! p : ℕ, ∃ l, run.partitions[p]? = some l ∧ e ∈ l.elements) ↔
      run.assignment.InRange) ∧
    ((run.summary.map Summary.elements).sum = m.elementCount ↔ run.assignment.InRange) ∧
    (∀ parts k, Assignment.ofParts parts k = .ok run.assignment → run.assignment.InRange) ∧
    (partitioner.BuiltIn → run.assignment.InRange) := by
  obtain ⟨st⟩ := exists_stages h
  have hcount := Classification.count_localOnly st.ofAssignment_eq
  have hvalid (parts : List ℕ) (k : ℕ) (hparts : Assignment.ofParts parts k = .ok run.assignment) :=
    (Assignment.ofParts_eq_ok_iff.1 hparts).2.1
  refine ⟨st.length_partitions, fun p hp => ?_, st.sum_elements, st.sum_localNodes,
    ⟨st.classified, st.ofAssignment_eq, hcount, fun hrange => ?_⟩, st.existsUnique_list_iff,
    st.sum_elements_eq_iff, hvalid, fun hbuiltIn => ?_⟩
  · obtain ⟨l, hl, hlists⟩ := st.exists_list hp
    refine ⟨l, hl, hlists.partition_eq, st.sorted_elements hlists,
      fun e => st.mem_elements hlists, fun e he => st.isAccessible_of_contains hlists he,
      fun n hn => ⟨fun e he => st.mem_elements_of_contains hlists hn he, ?_⟩⟩
    intro q l' hl' hn'
    exact st.eq_of_mem_localNodes hlists (st.lists_of_getElem? hl').2 hn hn'
  · rw [st.sum_localNodes, st.setOf_incidentParts_eq hrange, hcount]
  · obtain ⟨parts, -, hparts, -⟩ := hbuiltIn.exists_parts st.partition_eq
    exact hvalid parts config.partCount hparts

/-- What a single pass makes of `armAtBoundary` when its elements are the first and the last of
three parts. -/
def gapRun : Run where
  edgeCut := 1
  assignment := ⟨[0, 2], 3⟩
  classification := ⟨[.localOnly, .shared, .localOnly, .shared],
    [IndexSet.ofList [0], IndexSet.ofList [0, 2], IndexSet.ofList [2], ∅]⟩
  closure := ⟨.singlePass, 1, true⟩
  partitions := [⟨0, [0], IndexSet.ofList [0], IndexMap.ofList [(1, IndexSet.ofList [2])]⟩,
    ⟨1, [], ∅, ∅⟩, ⟨2, [1], IndexSet.ofList [2], IndexMap.ofList [(1, IndexSet.ofList [0])]⟩]

/-- The run succeeds. -/
theorem partition_gap :
    (armAtBoundary.partition (.manual [0, 2]) ⟨3, .singlePass⟩).result = .ok gapRun := by
  rfl

/-- With a part that has no elements the lists still cut the mesh: the two elements are in one list
each, and the two outer nodes are local in one list each. -/
theorem partition_cuts_mesh_gap :
    (armAtBoundary.partition (.manual [0, 2]) ⟨3, .singlePass⟩).result = .ok gapRun ∧
      gapRun.partitions[1]? = some ⟨1, [], ∅, ∅⟩ ∧
      (∃! p : ℕ, ∃ l, gapRun.partitions[p]? = some l ∧ 1 ∈ l.elements) ∧
      (gapRun.summary.map Summary.elements).sum = 2 ∧
      (gapRun.summary.map Summary.localNodes).sum = 2 ∧
      {n | ∃ p, armAtBoundary.incidentParts gapRun.assignment n = {p}}.ncard = 2 := by
  obtain ⟨-, -, -, -, ⟨classified, -, hlocal, hsum⟩, hunique, helements, -, hrange⟩ :=
    partition_cuts_mesh partition_gap
  have hin := hrange (.manual [0, 2])
  exact ⟨partition_gap, rfl, hunique.2 hin 1 (by decide), helements.2 hin, rfl,
    hlocal.symm.trans (hsum hin).symm⟩

/-! ## Elements that are in no list -/

/-- One element over one node. -/
def speck : Mesh where
  nodes := [⟨.nth 0, none⟩]
  elements := [⟨.nth 0, [0]⟩]
  nodeIds_nodup := by decide
  elementIds_nodup := by decide
  node_lt := by decide

/-- An assignment, as a text, that gives its element to the sixth of one part. -/
def strayText : String := "\x7b\"parts\":[5],\"n_parts\":1\x7d"

/-- A partitioner from elsewhere that answers with this assignment. -/
def stray : Partitioner := .fixed "stray" (.ok ⟨0, ⟨[5], 1⟩⟩)

/-- What a run makes of `speck` with this answer. -/
def strayRun : Run where
  edgeCut := 0
  assignment := ⟨[5], 1⟩
  classification := ⟨[.localOnly], [IndexSet.ofList [5]]⟩
  closure := ⟨.fixedPoint, 1, true⟩
  partitions := [⟨0, [], ∅, ∅⟩]

/-- The text is read without a look at the entries. -/
theorem read?_strayText : Json.read? strayText = some strayRun.assignment := by
  decide +kernel

/-- The run succeeds. -/
theorem partition_stray : (speck.partition stray ⟨1, .fixedPoint⟩).result = .ok strayRun := by
  rfl

/-- A run over an assignment that is read from a text need not have every element in exactly one
list, and neither column of its summary need add up. All of this fails in `strayRun`: its element is
in no list, and no list has a local node, although all elements of the node lie in one part. -/
theorem not_forall_run_cuts_mesh :
    ¬ ∀ (m : Mesh) (partitioner : Partitioner) (config : Config) (run : Run),
      (m.partition partitioner config).result = .ok run →
      (∃ text, Json.read? text = some run.assignment) →
      (∀ e < m.elementCount, ∃! p : ℕ, ∃ l, run.partitions[p]? = some l ∧ e ∈ l.elements) ∨
      (run.summary.map Summary.elements).sum = m.elementCount ∨
      (run.summary.map Summary.localNodes).sum =
        {n | ∃ p, m.incidentParts run.assignment n = {p}}.ncard := by
  intro hall
  rcases hall _ _ _ _ partition_stray ⟨strayText, read?_strayText⟩ with hunique | hsum | hsum
  · obtain ⟨p, ⟨l, hl, he⟩, -⟩ := hunique 0 (by decide)
    obtain rfl := List.mem_singleton.1 (List.mem_of_getElem? hl)
    exact absurd he List.not_mem_nil
  · exact absurd hsum (by decide)
  · have hcount : strayRun.classification.count .localOnly = _ :=
      Classification.count_localOnly (m := speck) (a := strayRun.assignment) rfl
    exact absurd (hsum.trans hcount.symm) (by decide)

end Mesh

end MeshPartition
