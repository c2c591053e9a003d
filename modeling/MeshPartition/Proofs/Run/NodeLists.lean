import MeshPartition.Proofs.Closure.Propagate
import MeshPartition.Proofs.NodeList.Membership
import MeshPartition.Proofs.Run.Stages

/-!
# The node lists of a run

`Mesh.partition_nodeLists` says what the lists of a successful run hold, in terms of the mesh, its
assignment and the closed classification alone: the local nodes of a part are those all of whose
elements lie in the part, and its shared nodes are the others that the closed sets give to it or
that are slaves of its local nodes. The masters of a part's own slaves, which are listed in a step
of their own, are among those that the closed sets give, since in either mode the closure visits
each link at least once (`Stages.incidentParts_subset_of_link`).

A slave may thus stand in a list only because one of its masters is local there, and then its other
masters need not stand there even after a closure to a fixed point: the closed sets do not give the
slave to the part, so that they have no reason to give it the masters.
`partition_fixedPoint_missing_master_iff` says when exactly this happens.
-/

namespace MeshPartition

/-- The parts from which a node is reached in the closed classification of a run. -/
def Run.closedParts (r : Run) (n : ℕ) : IndexSet := r.classification.partitions[n]?.getD ∅

namespace Mesh

variable {m : Mesh} {partitioner : Partitioner} {config : Config} {run : Run} {p n : ℕ}

namespace Stages

variable (st : m.Stages partitioner config run)

include st

/-- The assignment has as many parts as were asked for. -/
theorem partCount_eq : run.assignment.partCount = config.partCount :=
  (checkShape_eq_ok_iff.1 st.checkShape_eq).2

/-- Before the closure a node has the parts of the elements that contain it. -/
theorem mem_classified {q : ℕ} :
    q ∈ (st.classified.entry n).partitions ↔ q ∈ m.incidentParts run.assignment n := by
  obtain ⟨-, hclassified⟩ := Classification.ofAssignment_eq_ok_iff.1 st.ofAssignment_eq
  have hsets : st.classified.partitions.length = st.classified.size := by
    rw [hclassified]
    exact (List.length_map _).symm
  rw [← Classification.getD_partitions hsets, ← Incidence.mem_partSet_ofMesh, hclassified,
    List.getElem?_map]
  rcases Nat.lt_or_ge n (Incidence.ofMesh m).size with hn | hn
  · rw [List.getElem?_range hn]
    rfl
  · -- Past the nodes of the mesh there are no sets and no elements.
    rw [List.getElem?_eq_none (by simpa using hn), Incidence.partSet,
      List.getElem?_eq_none (show (Incidence.ofMesh m).incident.length ≤ n from hn)]
    rfl

/-- The sets of the run are those of the closed table. -/
theorem closedParts_eq (n : ℕ) : run.closedParts n = (run.classification.entry n).partitions := by
  obtain ⟨hsize, hparts, -⟩ := Classification.propagate_eq_ok st.propagate_eq
  exact Classification.getD_partitions (hparts.trans hsize.symm) n

/-- The closed sets give a node to the parts of the elements that contain it. -/
theorem incidentParts_subset : m.incidentParts run.assignment n ⊆ {q | q ∈ run.closedParts n} := by
  intro q hq
  obtain ⟨-, -, ⟨k, hk⟩, -⟩ := Classification.propagate_eq_ok st.propagate_eq
  have hle := Closure.le_iterate_sweep st.dependencies.links (k + 1) st.classified.entry n
  show q ∈ run.closedParts n
  rw [st.closedParts_eq, hk]
  exact Access.partitions_subset hle q (st.mem_classified.2 hq)

/-- The closed sets give a master to the parts of the elements that contain its slave. -/
theorem incidentParts_subset_of_link {s : ℕ} (hlink : n ∈ st.dependencies.mastersOf s) :
    m.incidentParts run.assignment s ⊆ {q | q ∈ run.closedParts n} := by
  intro q hq
  obtain ⟨-, -, ⟨k, hk⟩, -⟩ := Classification.propagate_eq_ok st.propagate_eq
  have hl : ⟨s, n⟩ ∈ st.dependencies.links := DependencyTable.mem_links.2 hlink
  -- The first sweep visits the link, and the later ones only add to the master.
  have hle : Closure.pull (st.classified.entry s) (st.classified.entry n) ≤
      run.classification.entry n := by
    rw [hk, Function.iterate_succ_apply]
    exact (Closure.pull_le_sweep hl st.classified.entry).trans (Closure.le_iterate_sweep _ k _ n)
  show q ∈ run.closedParts n
  rw [st.closedParts_eq]
  exact Access.partitions_subset hle q
    (Closure.partitions_subset_pull _ _ q (st.mem_classified.2 hq))

/-- After a closure to a fixed point a master has all parts of its slave. -/
theorem closedParts_subset_of_link (hmode : config.closure = .fixedPoint) {s : ℕ}
    (hlink : n ∈ st.dependencies.mastersOf s) : run.closedParts s ⊆ run.closedParts n := by
  obtain ⟨-, -, -, hfix⟩ := Classification.propagate_eq_ok st.propagate_eq
  have hl : ⟨s, n⟩ ∈ st.dependencies.links := DependencyTable.mem_links.2 hlink
  -- Visiting the link once more changes nothing, although it would add what is missing.
  have hpull := Closure.sweep_eq_self_iff.1 (hfix hmode).2 ⟨s, n⟩ hl
  rw [st.closedParts_eq, st.closedParts_eq, ← hpull]
  exact Closure.partitions_subset_pull _ _

/-- The parts that meet at a node in the tables of the run. -/
theorem mem_meeting {q : ℕ} :
    q ∈ st.context.meeting n ↔ q ∈ m.incidentParts run.assignment n := by
  obtain ⟨-, hincidence, hassignment, -⟩ := Context.eq_of_ofTables st.ofTables_eq
  rw [Context.meeting, hincidence, hassignment]
  exact Incidence.mem_partSet_ofMesh

/-- The nodes inner to a part are those all of whose elements lie in it. -/
theorem isInner_iff : st.context.IsInner p n ↔ m.incidentParts run.assignment n = {p} := by
  obtain ⟨hmesh, -, hassignment, -⟩ := Context.eq_of_ofTables st.ofTables_eq
  rw [Context.IsInner, hmesh, hassignment, Set.eq_singleton_iff_unique_mem]
  refine and_congr_right fun _ => ?_
  constructor
  · intro hempty q hq
    by_contra hne
    apply IndexSet.not_mem_empty q
    rw [← hempty, IndexSet.mem_erase]
    exact ⟨hne, st.mem_meeting.2 hq⟩
  · intro hall
    refine IndexSet.ext fun q => ⟨fun hq => ?_, fun hq => absurd hq (IndexSet.not_mem_empty q)⟩
    rw [IndexSet.mem_erase, st.mem_meeting] at hq
    exact absurd (hall q hq.2) hq.1

/-- What a part needs, apart from the nodes inner to it: what the closed sets give it, and the
slaves of its inner nodes. -/
theorem isNeeded_iff : st.context.IsNeeded p n ↔ p ∈ run.closedParts n ∨
    ∃ k ∈ st.dependencies.mastersOf n, m.incidentParts run.assignment k = {p} := by
  obtain ⟨hmesh, -, hassignment, hclassification, hdependencies⟩ :=
    Context.eq_of_ofTables st.ofTables_eq
  simp only [Context.IsNeeded, st.isInner_iff]
  rw [hmesh, hassignment, hclassification, hdependencies]
  constructor
  · -- The closed sets account for the part's own nodes and for the masters of these.
    rintro (hown | ⟨s, hlink, hown⟩ | hslave | hclosed)
    · exact Or.inl (st.incidentParts_subset hown)
    · exact Or.inl (st.incidentParts_subset_of_link hlink hown)
    · exact Or.inr hslave
    · exact Or.inl hclosed
  · rintro (hclosed | hslave)
    · exact Or.inr (Or.inr (Or.inr hclosed))
    · exact Or.inr (Or.inr (Or.inl hslave))

/-- The tables of the run are over as many parts as were asked for. -/
theorem context_partCount : st.context.assignment.partCount = config.partCount := by
  obtain ⟨-, -, hassignment, -⟩ := Context.eq_of_ofTables st.ofTables_eq
  rw [hassignment, st.partCount_eq]

/-- The run has a list for each part. -/
theorem exists_list (hp : p < config.partCount) :
    ∃ l, run.partitions[p]? = some l ∧ st.context.Lists p (st.context.IsNeeded p) l := by
  obtain ⟨lists, heq, -, hlists⟩ := st.context.exists_nodeLists
  rw [st.nodeLists_eq, Except.ok.injEq] at heq
  subst heq
  exact hlists p (hp.trans_eq st.context_partCount.symm)

/-- The run has no other lists. -/
theorem length_partitions : run.partitions.length = config.partCount := by
  obtain ⟨lists, hlists, hlength, -⟩ := st.context.exists_nodeLists
  rw [st.nodeLists_eq, Except.ok.injEq] at hlists
  rw [hlists, hlength, st.context_partCount]

/-- The list at a position is that of the part. -/
theorem lists_of_getElem? {l : NodeList} (hl : run.partitions[p]? = some l) :
    p < config.partCount ∧ st.context.Lists p (st.context.IsNeeded p) l := by
  have hp : p < config.partCount := by
    rw [← st.length_partitions]
    exact (List.getElem?_eq_some_iff.1 hl).1
  obtain ⟨l', hl', hlists⟩ := st.exists_list hp
  obtain rfl : l = l' := Option.some.inj (hl.symm.trans hl')
  exact ⟨hp, hlists⟩

/-- A node is in the list of a part if the closed sets give it to the part or it is a slave of one
of the part's inner nodes. -/
theorem isAccessible_iff {l : NodeList} (h : st.context.Lists p (st.context.IsNeeded p) l) :
    l.isAccessible n = true ↔ p ∈ run.closedParts n ∨
      ∃ k ∈ st.dependencies.mastersOf n, m.incidentParts run.assignment k = {p} := by
  rw [NodeList.isAccessible, NodeList.isLocal, NodeList.isShared, Bool.or_eq_true,
    decide_eq_true_eq, decide_eq_true_eq, ← st.isNeeded_iff]
  exact h.listed_iff fun hinner => Or.inl hinner.1

/-- The list of a part has the nodes of its elements. -/
theorem isAccessible_of_mem_incidentParts {l : NodeList}
    (h : st.context.Lists p (st.context.IsNeeded p) l)
    (hn : p ∈ m.incidentParts run.assignment n) : l.isAccessible n = true :=
  (st.isAccessible_iff h).2 (Or.inl (st.incidentParts_subset hn))

end Stages

/-- The lists of a successful run. The list of a part has as local nodes those all of whose elements
lie in the part. It has as shared nodes the others that the closed sets give to the part or of which
a master is local to it, each with exactly the other parts of its elements. -/
theorem partition_nodeLists (h : (m.partition partitioner config).result = .ok run) :
    ∃ deps, m.resolveAll = .ok deps ∧ ∀ p < config.partCount, ∃ l, run.partitions[p]? = some l ∧
      l.partition = p ∧
      (∀ n, n ∈ l.localNodes ↔ m.incidentParts run.assignment n = {p}) ∧
      (∀ n, n ∈ l.sharedNodes.keys ↔ m.incidentParts run.assignment n ≠ {p} ∧
        (p ∈ run.closedParts n ∨
          ∃ k ∈ deps.mastersOf n, m.incidentParts run.assignment k = {p})) ∧
      ∀ n parts, l.sharedNodes.find? n = some parts →
        {q | q ∈ parts} = m.incidentParts run.assignment n \ {p} := by
  obtain ⟨st⟩ := exists_stages h
  refine ⟨st.dependencies, st.resolveAll_eq, fun p hp => ?_⟩
  obtain ⟨l, hl, hlists⟩ := st.exists_list hp
  refine ⟨l, hl, hlists.partition_eq, fun n => ?_, fun n => ?_, fun n parts hparts => ?_⟩
  · rw [hlists.mem_localNodes, st.isInner_iff]
  · rw [hlists.mem_sharedNodes, st.isInner_iff, st.isNeeded_iff, and_comm]
  · rw [hlists.annotated n parts hparts]
    ext q
    show q ∈ (st.context.meeting n).erase p ↔ _
    rw [IndexSet.mem_erase, st.mem_meeting, and_comm]
    rfl

/-- A slave with a master in either part: each node has an element of its own, the first of them in
part `0` and the other two in part `1`. -/
def straddlingSlave : Mesh where
  nodes := [⟨⟨1, by decide, by decide⟩, none⟩,
    ⟨⟨2, by decide, by decide⟩,
      some (.explicitMasters [⟨1, by decide, by decide⟩, ⟨3, by decide, by decide⟩])⟩,
    ⟨⟨3, by decide, by decide⟩, none⟩]
  elements := [⟨⟨1, by decide, by decide⟩, [0]⟩, ⟨⟨2, by decide, by decide⟩, [1]⟩,
    ⟨⟨3, by decide, by decide⟩, [2]⟩]
  nodeIds_nodup := by decide
  elementIds_nodup := by decide
  node_lt := by decide

/-- The dependencies of `straddlingSlave`. -/
def straddlingDependencies : DependencyTable where
  entries := [none, some ⟨.explicitMasters, [0, 2]⟩, none]
  master_lt := by simp

/-- What a run with a closure to a fixed point makes of `straddlingSlave`. -/
def straddlingRun : Run where
  edgeCut := 0
  assignment := ⟨[0, 1, 1], 2⟩
  classification := ⟨[.shared, .localOnly, .localOnly],
    [IndexSet.ofList [0, 1], IndexSet.ofList [1], IndexSet.ofList [1]]⟩
  closure := ⟨.fixedPoint, 2, true⟩
  partitions := [⟨0, [0], IndexSet.ofList [0], IndexMap.ofList [(1, IndexSet.ofList [1])]⟩,
    ⟨1, [1, 2], IndexSet.ofList [1, 2], IndexMap.ofList [(0, IndexSet.ofList [0])]⟩]

/-- The dependencies resolve. -/
theorem resolveAll_straddlingSlave : straddlingSlave.resolveAll = .ok straddlingDependencies := by
  rfl

/-- The run succeeds. -/
theorem partition_straddlingSlave :
    (straddlingSlave.partition (.manual [0, 1, 1]) ⟨2, .fixedPoint⟩).result =
      .ok straddlingRun := by
  rfl

/-- In the first list of this run the slave is shared for the sake of its local master alone. -/
theorem partition_nodeLists_straddling :
    (straddlingSlave.partition (.manual [0, 1, 1]) ⟨2, .fixedPoint⟩).result = .ok straddlingRun ∧
      ∃ l, straddlingRun.partitions[0]? = some l ∧ 0 ∈ l.localNodes ∧
        straddlingSlave.incidentParts straddlingRun.assignment 0 = {0} ∧
        1 ∈ l.sharedNodes.keys ∧ 0 ∉ straddlingRun.closedParts 1 ∧
        straddlingSlave.incidentParts straddlingRun.assignment 1 \ {0} = {1} := by
  refine ⟨partition_straddlingSlave, ?_⟩
  obtain ⟨deps, -, hlists⟩ := partition_nodeLists partition_straddlingSlave
  obtain ⟨l, hl, -, hlocal, -, hannotated⟩ := hlists 0 (by decide)
  have hl' : l = ⟨0, [0], IndexSet.ofList [0], IndexMap.ofList [(1, IndexSet.ofList [1])]⟩ :=
    (Option.some.inj hl).symm
  subst hl'
  refine ⟨_, hl, by decide, (hlocal 0).1 (by decide), by decide, by decide, ?_⟩
  rw [← hannotated 1 (IndexSet.ofList [1]) (by decide)]
  ext q
  show q ∈ IndexSet.ofList [1] ↔ _
  rw [IndexSet.mem_ofList, List.mem_singleton, Set.mem_singleton_iff]

/-! ## Masters that a list lacks -/

/-- After a closure to a fixed point, a list has the masters of every slave that the closed sets
give to its part. It may have a slave without one of its masters, and this happens exactly if
another master of the slave is local to the part, while neither the closed sets nor a master of its
own bring the missing master there. -/
theorem partition_fixedPoint_missing_master_iff
    (h : (m.partition partitioner config).result = .ok run) (hmode : config.closure = .fixedPoint) :
    ∃ deps, m.resolveAll = .ok deps ∧ ∀ p < config.partCount, ∃ l, run.partitions[p]? = some l ∧
      ∀ s, ∀ k ∈ deps.mastersOf s,
        (p ∈ run.closedParts s → l.isAccessible s = true ∧ l.isAccessible k = true) ∧
        (l.isAccessible s = true ∧ l.isAccessible k = false ↔
          (∃ j ∈ deps.mastersOf s, m.incidentParts run.assignment j = {p}) ∧
            p ∉ run.closedParts k ∧
            ∀ j ∈ deps.mastersOf k, m.incidentParts run.assignment j ≠ {p}) := by
  obtain ⟨st⟩ := exists_stages h
  refine ⟨st.dependencies, st.resolveAll_eq, fun p hp => ?_⟩
  obtain ⟨l, hl, hlists⟩ := st.exists_list hp
  refine ⟨l, hl, fun s k hk => ?_⟩
  have hclosed := st.closedParts_subset_of_link hmode hk
  rw [← Bool.not_eq_true, st.isAccessible_iff hlists, st.isAccessible_iff hlists, not_or]
  refine ⟨fun hs => ⟨Or.inl hs, Or.inl (hclosed p hs)⟩, ?_⟩
  constructor
  · rintro ⟨hs | hs, hk₁, hk₂⟩
    · -- Where the closed sets give the slave they give the master too.
      exact absurd (hclosed p hs) hk₁
    · exact ⟨hs, hk₁, fun j hj hinner => hk₂ ⟨j, hj, hinner⟩⟩
  · rintro ⟨hs, hk₁, hk₂⟩
    exact ⟨Or.inr hs, hk₁, fun ⟨j, hj, hinner⟩ => hk₂ j hj hinner⟩

/-- Not every list has the masters of all its slaves: the first list of `straddlingRun` lacks the
master in the other part. -/
theorem not_forall_master_accessible :
    ¬ ∀ (m : Mesh) (partitioner : Partitioner) (config : Config) (run : Run)
        (deps : DependencyTable), (m.partition partitioner config).result = .ok run →
      config.closure = .fixedPoint → m.resolveAll = .ok deps → ∀ l ∈ run.partitions, ∀ s,
        l.isAccessible s = true → ∀ k ∈ deps.mastersOf s, l.isAccessible k = true := by
  intro hall
  have h := hall _ _ _ _ _ partition_straddlingSlave rfl resolveAll_straddlingSlave
    ⟨0, [0], IndexSet.ofList [0], IndexMap.ofList [(1, IndexSet.ofList [1])]⟩ List.mem_cons_self
    1 (by decide) 2 (by decide)
  exact absurd h (by decide)

/-- The missing master is not in a closed set of part `0` and has no masters itself. -/
theorem partition_fixedPoint_missing_master_straddling :
    (straddlingSlave.partition (.manual [0, 1, 1]) ⟨2, .fixedPoint⟩).result = .ok straddlingRun ∧
      ∃ l, straddlingRun.partitions[0]? = some l ∧
        l.isAccessible 1 = true ∧ l.isAccessible 2 = false ∧
        0 ∉ straddlingRun.closedParts 2 ∧
        ∃ j ∈ straddlingDependencies.mastersOf 1,
          straddlingSlave.incidentParts straddlingRun.assignment j = {0} := by
  refine ⟨partition_straddlingSlave, ?_⟩
  obtain ⟨deps, hdeps, hlists⟩ :=
    partition_fixedPoint_missing_master_iff partition_straddlingSlave rfl
  rw [resolveAll_straddlingSlave, Except.ok.injEq] at hdeps
  subst hdeps
  obtain ⟨l, hl, hmissing⟩ := hlists 0 (by decide)
  have hl' : l = ⟨0, [0], IndexSet.ofList [0], IndexMap.ofList [(1, IndexSet.ofList [1])]⟩ :=
    (Option.some.inj hl).symm
  subst hl'
  obtain ⟨hinner, hk, -⟩ := (hmissing 1 2 (by decide)).2.1 ⟨by decide, by decide⟩
  exact ⟨_, hl, by decide, by decide, hk, hinner⟩

end Mesh

end MeshPartition
