import MeshPartition.Proofs.Closure.Relabelling
import MeshPartition.Proofs.NodeList.Comparison
import MeshPartition.Proofs.Run.Outcome

/-!
# Runs under other names of the parts

No decision of a run depends on how the parts are numbered. `Mesh.partition_relabel` compares the
run with a list made by hand to the run with the list in which the parts have other names. Both fail
with the same error, or the one result is the other one under these names (`Run.Relabelled`).

The stages of the one run, renamed, are the stages of the other. For the node lists, this rests on
their description by what they hold, which determines them (`Context.Lists.relabel`).
-/

namespace MeshPartition

variable {π : Equiv.Perm ℕ}

namespace Context

variable {ctx : Context} {p n : ℕ}

/-- The tables under other names of the parts. -/
def relabel (π : Equiv.Perm ℕ) (ctx : Context) : Context where
  mesh := ctx.mesh
  incidence := ctx.incidence
  assignment := ctx.assignment.relabel π
  classification := ctx.classification.relabel π
  dependencies := ctx.dependencies
  incidence_size := ctx.incidence_size
  incidence_elementCount := ctx.incidence_elementCount
  assignment_size := (List.length_map π).trans ctx.assignment_size
  classification_size := ctx.classification_size
  partitions_length := (List.length_map _).trans ctx.partitions_length
  dependencies_size := ctx.dependencies_size

/-- Tables that belong together still do so under other names of the parts. -/
theorem ofTables_relabel {m : Mesh} {inc : Incidence} {a : Assignment} {c : Classification}
    {deps : DependencyTable} (h : ofTables m inc a c deps = .ok ctx) :
    ofTables m inc (a.relabel π) (c.relabel π) deps = .ok (ctx.relabel π) := by
  obtain ⟨rfl, rfl, rfl, rfl, rfl⟩ := eq_of_ofTables h
  exact ofTables_eq (ctx.relabel π)

/-- The renamed parts meet at a node. -/
theorem meeting_relabel : (ctx.relabel π).meeting n = (ctx.meeting n).relabel π :=
  Assignment.partSet_relabel ctx.incidence ctx.assignment n

/-- The same nodes are inner to the renamed part. -/
theorem isInner_relabel : (ctx.relabel π).IsInner (π p) n ↔ ctx.IsInner p n := by
  rw [IsInner, IsInner, meeting_relabel, ← IndexSet.relabel_erase, IndexSet.relabel_eq_empty_iff]
  exact and_congr_left fun _ => Assignment.apply_mem_incidentParts_relabel

/-- The sets of the classification give the same nodes to the renamed part. -/
theorem mem_partitions_relabel : π p ∈ (ctx.relabel π).classification.partitions[n]?.getD ∅ ↔
    p ∈ ctx.classification.partitions[n]?.getD ∅ := by
  show π p ∈ (ctx.classification.partitions.map (IndexSet.relabel π))[n]?.getD ∅ ↔ _
  rw [List.getElem?_map]
  cases ctx.classification.partitions[n]? with
  | none => exact iff_of_false (IndexSet.not_mem_empty _) (IndexSet.not_mem_empty _)
  | some s => exact IndexSet.apply_mem_relabel

/-- The renamed part needs the same nodes. -/
theorem isNeeded_relabel : (ctx.relabel π).IsNeeded (π p) n ↔ ctx.IsNeeded p n := by
  simp only [IsNeeded, isInner_relabel, mem_partitions_relabel]
  simp only [relabel, Assignment.apply_mem_incidentParts_relabel]

/-- The list of a part, under other names, is what the renamed part lists. -/
theorem Lists.relabel {l : NodeList} (h : ctx.Lists p (ctx.IsNeeded p) l) :
    (ctx.relabel π).Lists (π p) ((ctx.relabel π).IsNeeded (π p)) (l.relabel π) where
  partition_eq := congrArg π h.partition_eq
  elements_eq := by
    show l.elements = (ctx.assignment.relabel π).elementsOf (π p)
    rw [h.elements_eq, Assignment.elementsOf_relabel]
  mem_localNodes n := (h.mem_localNodes n).trans isInner_relabel.symm
  mem_sharedNodes n := by
    rw [isNeeded_relabel, isInner_relabel, ← h.mem_sharedNodes, NodeList.relabel,
      IndexMap.keys_map]
  annotated n parts hparts := by
    rw [NodeList.relabel, IndexMap.find?_map, Option.map_eq_some_iff] at hparts
    obtain ⟨before, hbefore, rfl⟩ := hparts
    show before.relabel π = ((ctx.relabel π).meeting n).erase (π p)
    rw [meeting_relabel, ← IndexSet.relabel_erase, h.annotated n before hbefore]

end Context

/-- One result is the other one under other names of the parts: each part has the list that it had
under its old name. -/
structure Run.Relabelled (π : Equiv.Perm ℕ) (run run' : Run) : Prop where
  edgeCut_eq : run'.edgeCut = run.edgeCut
  assignment_eq : run'.assignment = run.assignment.relabel π
  classification_eq : run'.classification = run.classification.relabel π
  closure_eq : run'.closure = run.closure
  partitions_eq : ∀ p, run'.partitions[π p]? = run.partitions[p]?.map (NodeList.relabel π)

namespace Mesh

variable {m : Mesh} {parts : List ℕ} {config : Config} {run : Run} {graph : DualGraph}

/-- A list that answers for the mesh does so under other names. -/
theorem Answers.relabel {outcome : Outcome} (σ : Equiv.Perm (Fin config.partCount))
    (h : m.Answers (.manual parts) config graph outcome) :
    m.Answers (.manual (parts.map (newName σ))) config graph (outcome.relabel (newName σ)) where
  partCount_pos := h.partCount_pos
  partition_eq := by
    rw [Partitioner.partition_manual_relabel, h.partition_eq]
    rfl
  size_eq := (List.length_map _).trans h.size_eq
  partCount_eq := h.partCount_eq

/-- A run fails in the same way under other names. -/
theorem FirstFailure.relabel {e : Error} (σ : Equiv.Perm (Fin config.partCount))
    (h : m.FirstFailure (.manual parts) config graph e) :
    m.FirstFailure (.manual (parts.map (newName σ))) config graph e := by
  have hanswers := Partitioner.partition_manual_relabel σ parts graph
  cases h with
  | noParts hcount => exact .noParts hcount
  | partitioner hcount hfail =>
    rw [hfail] at hanswers
    exact .partitioner hcount hanswers
  | @shape outcome hcount hanswer hshape =>
    have hsize : (outcome.relabel (newName σ)).assignment.size = outcome.assignment.size :=
      List.length_map _
    rw [hanswer] at hanswers
    rw [← hsize] at hshape ⊢
    exact .shape hcount hanswers hshape
  | constraint hanswers hn hbefore hfail =>
    exact .constraint (hanswers.relabel σ) hn hbefore hfail

/-- A run that has passed through its stages does so under other names. -/
theorem Stages.exists_relabelled (st : m.Stages (.manual parts) config run)
    (σ : Equiv.Perm (Fin config.partCount)) : ∃ run',
      Nonempty (m.Stages (.manual (parts.map (newName σ))) config run') ∧
        run.Relabelled (newName σ) run' := by
  have hanswers := st.answers.relabel σ
  have hpropagate : (st.classified.relabel (newName σ)).propagate st.dependencies config.closure =
      .ok (run.closure, run.classification.relabel (newName σ)) := by
    rw [Classification.propagate_relabel, st.propagate_eq]
    rfl
  obtain ⟨lists, hlists, hlength, hlist⟩ := (st.context.relabel (newName σ)).exists_nodeLists
  have hcount : (st.context.relabel (newName σ)).assignment.partCount = config.partCount :=
    st.context_partCount
  rw [hcount] at hlength hlist
  refine ⟨⟨run.edgeCut, run.assignment.relabel (newName σ),
    run.classification.relabel (newName σ), run.closure, lists⟩,
    ⟨st.graph, st.dependencies, st.classified.relabel (newName σ),
      st.context.relabel (newName σ), st.validate_eq, st.graph_eq, hanswers.partition_eq,
      checkShape_eq_ok_iff.2 ⟨hanswers.size_eq, hanswers.partCount_eq⟩, st.resolveAll_eq,
      Classification.ofAssignment_relabel st.ofAssignment_eq, hpropagate,
      Context.ofTables_relabel st.ofTables_eq, hlists⟩,
    rfl, rfl, rfl, rfl, fun p => ?_⟩
  rcases Nat.lt_or_ge p config.partCount with hp | hp
  · -- Both lists hold what the renamed part lists, so they are the same.
    obtain ⟨l, hl, hheld⟩ := st.exists_list hp
    obtain ⟨l', hl', hheld'⟩ := hlist (newName σ p) ((newName_lt_iff σ).2 hp)
    rw [hl, hl', hheld'.unique hheld.relabel, Option.map_some]
  · rw [List.getElem?_eq_none (st.length_partitions.trans_le hp),
      List.getElem?_eq_none (hlength.trans_le ((le_newName_iff σ).2 hp)), Option.map_none]

/-- A run with a list made by hand goes the same way under other names of the parts. Either it fails
with the same error, or the result is the same under these names. -/
theorem partition_relabel (m : Mesh) (parts : List ℕ) (config : Config)
    (σ : Equiv.Perm (Fin config.partCount)) :
    (∃ e, (m.partition (.manual parts) config).result = .error e ∧
      (m.partition (.manual (parts.map (newName σ))) config).result = .error e) ∨
    ∃ run run', (m.partition (.manual parts) config).result = .ok run ∧
      (m.partition (.manual (parts.map (newName σ))) config).result = .ok run' ∧
      run.Relabelled (newName σ) run' := by
  have hgraph := DualGraph.ofMesh_eq_ok m
  rcases firstFailure_or_answers m (.manual parts) config _ with
    ⟨e, hfail⟩ | ⟨⟨outcome, hanswers⟩, hresolve⟩
  · exact Or.inl ⟨e, hfail.result_eq hgraph, (hfail.relabel σ).result_eq hgraph⟩
  · obtain ⟨run, hrun⟩ := exists_run hgraph hanswers hresolve
    obtain ⟨st⟩ := exists_stages hrun
    obtain ⟨run', ⟨st'⟩, hrelabelled⟩ := st.exists_relabelled σ
    exact Or.inr ⟨run, run', hrun, st'.result_eq, hrelabelled⟩

/-- The parts of `straddlingSlave` exchanged: the lists change places, and with them the parts that
their shared nodes are annotated with. -/
example : (straddlingSlave.partition
    (.manual ([0, 1, 1].map (newName (Equiv.swap (0 : Fin 2) 1)))) ⟨2, .fixedPoint⟩).result = .ok
      { edgeCut := 0
        assignment := ⟨[1, 0, 0], 2⟩
        classification := ⟨[.shared, .localOnly, .localOnly],
          [IndexSet.ofList [0, 1], IndexSet.ofList [0], IndexSet.ofList [0]]⟩
        closure := ⟨.fixedPoint, 2, true⟩
        partitions := [
          ⟨0, [1, 2], IndexSet.ofList [1, 2], IndexMap.ofList [(0, IndexSet.ofList [1])]⟩,
          ⟨1, [0], IndexSet.ofList [0], IndexMap.ofList [(1, IndexSet.ofList [0])]⟩] } := by
  rfl

end Mesh

end MeshPartition
