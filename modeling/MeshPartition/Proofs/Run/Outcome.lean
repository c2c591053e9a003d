import MeshPartition.Proofs.Dependency.Resolution
import MeshPartition.Proofs.Partitioner
import MeshPartition.Proofs.Run.NodeLists

/-!
# What decides whether a run succeeds

`Mesh.partition_outcome` says that a run fails exactly with its first cause in the order of
`FirstFailure`: no parts, the partitioner's own error, an answer of another shape, and the first
constraint that does not resolve. Otherwise it succeeds, with a list for each part in order.

None of the stages after these can fail. The tables that they hand to each other all have the sizes
of the mesh, so that neither the checks of these sizes nor any look-up in them fails
(`Mesh.exists_stages_of_propagate`).
-/

namespace MeshPartition.Mesh

variable {m : Mesh} {partitioner : Partitioner} {config : Config} {graph : DualGraph}
  {outcome : Outcome} {run : Run}

/-- Once a classification has been closed the run succeeds: all tables have the sizes of the mesh,
so that they can be put together, and then the lists can be built. -/
theorem exists_stages_of_propagate {deps : DependencyTable} {classified closed : Classification}
    {report : ClosureReport} (hgraph : DualGraph.ofMesh m (Incidence.ofMesh m) = .ok graph)
    (hanswers : m.Answers partitioner config graph outcome) (hdeps : m.resolveAll = .ok deps)
    (hclassified :
      Classification.ofAssignment (Incidence.ofMesh m) outcome.assignment = .ok classified)
    (hclosed : classified.propagate deps config.closure = .ok (report, closed)) :
    ∃ lists, Nonempty (m.Stages partitioner config
      ⟨outcome.edgeCut, outcome.assignment, closed, report, lists⟩) := by
  obtain ⟨hsize, -⟩ := Classification.sizes_of_propagate hclosed
  obtain ⟨hclosedSize, hclosedSets, -⟩ := Classification.propagate_eq_ok hclosed
  have hdepsSize := size_of_resolveAll hdeps
  have hnodes : classified.size = m.nodeCount := hsize.symm.trans hdepsSize
  obtain ⟨ctx, hctx⟩ := Context.exists_ofTables hanswers.size_eq (hclosedSize.trans hnodes)
    (hclosedSets.trans hnodes) hdepsSize
  obtain ⟨lists, hlists, -⟩ := ctx.exists_nodeLists
  have hvalid := validate_eq_ok_iff.2 hanswers.partCount_pos
  have hshape : m.checkShape partitioner.name config outcome.assignment = .ok () :=
    checkShape_eq_ok_iff.2 ⟨hanswers.size_eq, hanswers.partCount_eq⟩
  exact ⟨lists, ⟨⟨graph, deps, classified, ctx, hvalid, hgraph, hanswers.partition_eq, hshape,
    hdeps, hclassified, hclosed, hctx, hlists⟩⟩⟩

/-- Once the partitioner has answered for the mesh and all constraints resolve, the run
succeeds. -/
theorem exists_run (hgraph : DualGraph.ofMesh m (Incidence.ofMesh m) = .ok graph)
    (hanswers : m.Answers partitioner config graph outcome)
    (hresolve : ∀ n < m.nodeCount, ∃ d, m.resolve n = .ok d) :
    ∃ run, (m.partition partitioner config).result = .ok run := by
  obtain ⟨deps, hdeps⟩ := exists_resolveAll_iff.2 hresolve
  obtain ⟨classified, hclassified, hsize, hsets⟩ :=
    Classification.exists_ofAssignment hanswers.size_eq
  obtain ⟨report, closed, hclosed⟩ := Classification.exists_propagate
    ((size_of_resolveAll hdeps).trans hsize.symm) (hsets.trans hsize.symm) config.closure
  obtain ⟨lists, ⟨st⟩⟩ :=
    exists_stages_of_propagate hgraph hanswers hdeps hclassified hclosed
  exact ⟨_, st.result_eq⟩

/-- Either there is a first cause of failure, or the partitioner answers for the mesh and all
constraints resolve. -/
theorem firstFailure_or_answers (m : Mesh) (partitioner : Partitioner) (config : Config)
    (graph : DualGraph) : (∃ e, m.FirstFailure partitioner config graph e) ∨
      (∃ outcome, m.Answers partitioner config graph outcome) ∧
        ∀ n < m.nodeCount, ∃ d, m.resolve n = .ok d := by
  rcases Nat.eq_zero_or_pos config.partCount with hcount | hcount
  · exact Or.inl ⟨_, .noParts hcount⟩
  cases hanswer : partitioner.partition graph config.partCount with
  | error e => exact Or.inl ⟨e, .partitioner hcount hanswer⟩
  | ok outcome =>
    by_cases hshape : outcome.assignment.size = m.elementCount ∧
        outcome.assignment.partCount = config.partCount
    · have hanswers : m.Answers partitioner config graph outcome :=
        ⟨hcount, hanswer, hshape.1, hshape.2⟩
      cases hdeps : m.resolveAll with
      | error e =>
        obtain ⟨n, hn, hbefore, hfail⟩ := resolveAll_eq_error_iff.1 hdeps
        exact Or.inl ⟨e, .constraint hanswers hn hbefore hfail⟩
      | ok deps => exact Or.inr ⟨⟨outcome, hanswers⟩, exists_resolveAll_iff.1 ⟨deps, hdeps⟩⟩
    · exact Or.inl ⟨_, .shape hcount hanswer (not_and_or.1 hshape)⟩

/-- A position past the end of a table is asked for by the partitioner only. -/
theorem FirstFailure.partition_eq_of_indexOutOfRange
    (h : m.FirstFailure partitioner config graph .indexOutOfRange) :
    partitioner.partition graph config.partCount = .error .indexOutOfRange := by
  cases h with
  | partitioner hcount hfail => exact hfail
  | constraint hanswers hn hbefore hfail =>
    -- A fault of a constraint is always about an id or an open element.
    obtain ⟨c, -, hfault⟩ := (resolve_eq_error_iff (List.getElem?_eq_getElem hn)).1 hfail
    cases hfault

namespace Stages

variable (st : m.Stages partitioner config run)

include st

/-- In a successful run the partitioner has answered for the mesh. -/
theorem answers : m.Answers partitioner config st.graph ⟨run.edgeCut, run.assignment⟩ :=
  have hshape := checkShape_eq_ok_iff.1 st.checkShape_eq
  ⟨validate_eq_ok_iff.1 st.validate_eq, st.partition_eq, hshape.1, hshape.2⟩

/-- In a successful run all constraints resolve. -/
theorem exists_resolve : ∀ n < m.nodeCount, ∃ d, m.resolve n = .ok d :=
  exists_resolveAll_iff.1 ⟨_, st.resolveAll_eq⟩

/-- The lists of a successful run are those of the parts, in order. -/
theorem map_partition : run.partitions.map NodeList.partition = List.range config.partCount := by
  apply List.ext_getElem?
  intro p
  rw [List.getElem?_map]
  rcases Nat.lt_or_ge p config.partCount with hp | hp
  · obtain ⟨l, hl, hlists⟩ := st.exists_list hp
    rw [hl, List.getElem?_range hp, Option.map_some, hlists.partition_eq]
  · rw [List.getElem?_eq_none (st.length_partitions.trans_le hp),
      List.getElem?_eq_none (List.length_range.trans_le hp), Option.map_none]

end Stages

/-- A run fails exactly as its first cause says. -/
theorem result_eq_error_iff (hgraph : DualGraph.ofMesh m (Incidence.ofMesh m) = .ok graph)
    {e : Error} : (m.partition partitioner config).result = .error e ↔
      m.FirstFailure partitioner config graph e := by
  refine ⟨fun he => ?_, fun h => h.result_eq hgraph⟩
  rcases firstFailure_or_answers m partitioner config graph with
    ⟨e', h⟩ | ⟨⟨outcome, hanswers⟩, hresolve⟩
  · -- A run fails with its first cause, so this is the error that was seen.
    obtain rfl := Except.error.inj (he.symm.trans (h.result_eq hgraph))
    exact h
  · obtain ⟨run, hrun⟩ := exists_run hgraph hanswers hresolve
    cases he.symm.trans hrun

/-- A run fails exactly as its first cause says, and it succeeds exactly if the partitioner answers
for the mesh and all constraints resolve. The result then holds the partitioner's answer and one
list for each part, in order. A position past the end of a table is asked for by the partitioner
only, and by none of those of the library. Of `Partitioner.block` this is said of its formula, see
`Partitioner.BuiltIn`. -/
theorem partition_outcome (m : Mesh) (partitioner : Partitioner) (config : Config) :
    ∃ graph, DualGraph.ofMesh m (Incidence.ofMesh m) = .ok graph ∧
      (∀ e, (m.partition partitioner config).result = .error e ↔
        m.FirstFailure partitioner config graph e) ∧
      ((∃ run, (m.partition partitioner config).result = .ok run) ↔
        (∃ outcome, m.Answers partitioner config graph outcome) ∧
          ∀ n < m.nodeCount, ∃ d, m.resolve n = .ok d) ∧
      (∀ run, (m.partition partitioner config).result = .ok run →
        m.Answers partitioner config graph ⟨run.edgeCut, run.assignment⟩ ∧
          run.partitions.map NodeList.partition = List.range config.partCount) ∧
      ((m.partition partitioner config).result = .error .indexOutOfRange →
        partitioner.partition graph config.partCount = .error .indexOutOfRange ∧
          ¬ partitioner.BuiltIn) := by
  have hgraph := DualGraph.ofMesh_eq_ok m
  have hsuccess : ∀ run, (m.partition partitioner config).result = .ok run →
      m.Answers partitioner config (.ofRows (DualGraph.rowsOf m))
          ⟨run.edgeCut, run.assignment⟩ ∧
        (∀ n < m.nodeCount, ∃ d, m.resolve n = .ok d) ∧
        run.partitions.map NodeList.partition = List.range config.partCount := by
    intro run hrun
    obtain ⟨st⟩ := exists_stages hrun
    have hst := Except.ok.inj (st.graph_eq.symm.trans hgraph)
    exact ⟨hst ▸ st.answers, st.exists_resolve, st.map_partition⟩
  refine ⟨_, hgraph, fun e => result_eq_error_iff hgraph, ⟨?_, ?_⟩, ?_, fun he => ?_⟩
  · rintro ⟨run, hrun⟩
    obtain ⟨hanswers, hresolve, -⟩ := hsuccess run hrun
    exact ⟨⟨_, hanswers⟩, hresolve⟩
  · rintro ⟨⟨outcome, hanswers⟩, hresolve⟩
    exact exists_run hgraph hanswers hresolve
  · intro run hrun
    obtain ⟨hanswers, -, hlists⟩ := hsuccess run hrun
    exact ⟨hanswers, hlists⟩
  · have hfail := ((result_eq_error_iff hgraph).1 he).partition_eq_of_indexOutOfRange
    exact ⟨hfail, fun hbuiltIn => hbuiltIn.partition_ne_indexOutOfRange m _ hfail⟩

end MeshPartition.Mesh
