import MeshPartition.Run
import MeshPartition.Proofs.Closure.Propagate
import MeshPartition.Proofs.Dependency

/-!
# The stages of a run

A run strings its stages together in `Logged`, where a step may fail and may log. `Mesh.Stages`
lists the tables that a successful run passes through, each with the equation of the stage that made
it. Every run that succeeds has them (`exists_stages`), and a run that has them succeeds
(`Stages.result_eq`). `Mesh.FirstFailure` lists the ways in which a run fails, in the order in which
they are looked for, and `FirstFailure.result_eq` says that a run does fail so.

What is proved about a run is proved from these; nothing else unfolds `Mesh.partition`, except for
statements about its log, which is taken apart in the same way (`Logged.not_mem_log_bind`).
-/

namespace MeshPartition

namespace Logged

variable {α β : Type} {x : Logged α} {f : α → Logged β}

/-- Two computations in a row succeed if both do. -/
theorem result_bind_eq_ok_iff {b : β} :
    (x >>= f).result = .ok b ↔ ∃ a, x.result = .ok a ∧ (f a).result = .ok b := by
  show (x.andThen f).result = .ok b ↔ _
  unfold andThen
  cases hx : x.result with
  | error e => simp
  | ok a => simp

/-- Two computations in a row fail if the first one does. -/
theorem result_bind_of_error {e : Error} (hx : x.result = .error e) :
    (x >>= f).result = .error e := by
  show (x.andThen f).result = .error e
  rw [andThen, hx]

/-- Two computations in a row fail if the second one does after the first has succeeded. -/
theorem result_bind_of_ok_of_error {a : α} {e : Error} (hx : x.result = .ok a)
    (hf : (f a).result = .error e) : (x >>= f).result = .error e := by
  show (x.andThen f).result = .error e
  rw [andThen, hx]
  exact hf

/-- Logging never fails. -/
theorem result_noteIf (condition : Bool) (entry : LogEntry) :
    (noteIf condition entry).result = .ok () := by
  cases condition <;> rfl

/-- Computations one after the other succeed if each of them does. -/
theorem result_forM_eq_ok {as : List α} {f : α → Logged Unit}
    (h : ∀ a ∈ as, (f a).result = .ok ()) : (as.forM f).result = .ok () := by
  induction as with
  | nil => rfl
  | cons a as ih =>
    obtain ⟨ha, has⟩ := List.forall_mem_cons.1 h
    exact result_bind_eq_ok_iff.2 ⟨(), ha, ih has⟩

/-- What two computations in a row do not log: neither the first one does, nor the second one if it
is reached. -/
theorem not_mem_log_bind {entry : LogEntry} (hx : entry ∉ x.log)
    (hf : ∀ a, x.result = .ok a → entry ∉ (f a).log) : entry ∉ (x >>= f).log := by
  show entry ∉ (x.andThen f).log
  unfold andThen
  cases hr : x.result with
  | error e => exact hx
  | ok a =>
    rw [List.mem_append]
    exact fun h => h.elim hx (hf a hr)

/-- At most the entry itself is logged. -/
theorem mem_log_noteIf {condition : Bool} {entry e : LogEntry}
    (h : e ∈ (noteIf condition entry).log) : e = entry := by
  cases condition with
  | false => exact absurd h List.not_mem_nil
  | true => exact List.mem_singleton.1 h

end Logged

namespace Mesh

/-- The tables of a successful run, with the stages that made them. -/
structure Stages (m : Mesh) (partitioner : Partitioner) (config : Config) (run : Run) where
  graph : DualGraph
  dependencies : DependencyTable
  /-- The classification before it is closed. -/
  classified : Classification
  context : Context
  validate_eq : config.validate = .ok ()
  graph_eq : DualGraph.ofMesh m (Incidence.ofMesh m) = .ok graph
  partition_eq :
    partitioner.partition graph config.partCount = .ok ⟨run.edgeCut, run.assignment⟩
  checkShape_eq : m.checkShape partitioner.name config run.assignment = .ok ()
  resolveAll_eq : m.resolveAll = .ok dependencies
  ofAssignment_eq :
    Classification.ofAssignment (Incidence.ofMesh m) run.assignment = .ok classified
  propagate_eq :
    classified.propagate dependencies config.closure = .ok (run.closure, run.classification)
  ofTables_eq : Context.ofTables m (Incidence.ofMesh m) run.assignment run.classification
    dependencies = .ok context
  nodeLists_eq : context.nodeLists = .ok run.partitions

variable {m : Mesh} {partitioner : Partitioner} {config : Config} {run : Run}

/-- A successful run has passed through its stages. -/
theorem exists_stages (h : (m.partition partitioner config).result = .ok run) :
    Nonempty (m.Stages partitioner config run) := by
  unfold Mesh.partition at h
  -- The steps, one after the other; those that only log have nothing to say.
  obtain ⟨_, hvalidate, h⟩ := Logged.result_bind_eq_ok_iff.1 h
  obtain ⟨_, -, h⟩ := Logged.result_bind_eq_ok_iff.1 h
  obtain ⟨graph, hgraph, h⟩ := Logged.result_bind_eq_ok_iff.1 h
  obtain ⟨_, -, h⟩ := Logged.result_bind_eq_ok_iff.1 h
  obtain ⟨⟨edgeCut, assignment⟩, hpartition, h⟩ := Logged.result_bind_eq_ok_iff.1 h
  obtain ⟨_, hshape, h⟩ := Logged.result_bind_eq_ok_iff.1 h
  obtain ⟨_, -, h⟩ := Logged.result_bind_eq_ok_iff.1 h
  obtain ⟨dependencies, hresolve, h⟩ := Logged.result_bind_eq_ok_iff.1 h
  obtain ⟨_, -, h⟩ := Logged.result_bind_eq_ok_iff.1 h
  obtain ⟨classified, hclassify, h⟩ := Logged.result_bind_eq_ok_iff.1 h
  obtain ⟨⟨report, closed⟩, hpropagate, h⟩ := Logged.result_bind_eq_ok_iff.1 h
  obtain ⟨_, -, h⟩ := Logged.result_bind_eq_ok_iff.1 h
  obtain ⟨_, -, h⟩ := Logged.result_bind_eq_ok_iff.1 h
  -- The warnings after a single pass decide nothing, and both branches go on in the same way.
  have hlists : ∃ context partitions,
      Context.ofTables m (Incidence.ofMesh m) assignment closed dependencies = .ok context ∧
        context.nodeLists = .ok partitions ∧
        run = ⟨edgeCut, assignment, closed, report, partitions⟩ := by
    split at h
    · obtain ⟨_, -, h⟩ := Logged.result_bind_eq_ok_iff.1 h
      obtain ⟨_, -, h⟩ := Logged.result_bind_eq_ok_iff.1 h
      obtain ⟨_, -, h⟩ := Logged.result_bind_eq_ok_iff.1 h
      obtain ⟨context, hcontext, h⟩ := Logged.result_bind_eq_ok_iff.1 h
      obtain ⟨partitions, hlists, h⟩ := Logged.result_bind_eq_ok_iff.1 h
      obtain ⟨_, -, h⟩ := Logged.result_bind_eq_ok_iff.1 h
      exact ⟨context, partitions, hcontext, hlists, (Except.ok.inj h).symm⟩
    · obtain ⟨_, -, h⟩ := Logged.result_bind_eq_ok_iff.1 h
      obtain ⟨context, hcontext, h⟩ := Logged.result_bind_eq_ok_iff.1 h
      obtain ⟨partitions, hlists, h⟩ := Logged.result_bind_eq_ok_iff.1 h
      obtain ⟨_, -, h⟩ := Logged.result_bind_eq_ok_iff.1 h
      exact ⟨context, partitions, hcontext, hlists, (Except.ok.inj h).symm⟩
  obtain ⟨context, partitions, hcontext, hlists, rfl⟩ := hlists
  exact ⟨⟨graph, dependencies, classified, context, hvalidate, hgraph, hpartition, hshape,
    hresolve, hclassify, hpropagate, hcontext, hlists⟩⟩

namespace Stages

variable (st : m.Stages partitioner config run)

include st

/-- The links that a closure may leave open join nodes of the mesh. -/
theorem lt_of_mem_links {l : Link} (hl : l ∈ st.dependencies.links) :
    l.slave < m.nodeCount ∧ l.master < m.nodeCount := by
  rw [← size_of_resolveAll st.resolveAll_eq]
  exact st.dependencies.fits_links l hl

/-- Noting a link between nodes of the mesh succeeds, and it logs one entry. -/
theorem noteOpenLink_eq {l : Link} (hl : l ∈ st.dependencies.links) :
    ∃ master slave, m.noteOpenLink l = ⟨.ok (), [.unreachedMaster master slave]⟩ := by
  obtain ⟨hs, hm⟩ := st.lt_of_mem_links hl
  have hslave : m.node l.slave = .ok m.nodes[l.slave] := entryAt_of_lt hs
  have hmaster : m.node l.master = .ok m.nodes[l.master] := entryAt_of_lt hm
  refine ⟨m.nodes[l.master].id, m.nodes[l.slave].id, ?_⟩
  rw [noteOpenLink, hmaster, hslave]
  rfl

/-- Looking for the links that a closure left open succeeds, and so does noting them. -/
theorem exists_openLinks : ∃ links, run.classification.unsatisfied st.dependencies = .ok links ∧
    (links.forM m.noteOpenLink).result = .ok () := by
  obtain ⟨hsize, hparts, -⟩ := Classification.propagate_eq_ok st.propagate_eq
  obtain ⟨hdeps, -⟩ := Classification.sizes_of_propagate st.propagate_eq
  refine ⟨_, Classification.unsatisfied_eq_filter (hdeps.trans hsize.symm)
    (hparts.trans hsize.symm), Logged.result_forM_eq_ok fun l hl => ?_⟩
  obtain ⟨_, _, hnoted⟩ := st.noteOpenLink_eq (List.mem_of_mem_filter hl)
  rw [hnoted]

/-- The end of a run, which builds the node lists. -/
theorem result_lists (orphans : Nat) : (show Logged Run from do
    Logged.noteIf (0 < orphans) (.orphans orphans)
    let context ← Context.ofTables m (Incidence.ofMesh m) run.assignment run.classification
      st.dependencies
    let partitions ← context.nodeLists
    let run : Run := ⟨run.edgeCut, run.assignment, run.classification, run.closure, partitions⟩
    Logged.note (.summary run.summary)
    return run).result = .ok run := by
  refine Logged.result_bind_eq_ok_iff.2 ⟨(), Logged.result_noteIf _ _, ?_⟩
  refine Logged.result_bind_eq_ok_iff.2 ⟨_, st.ofTables_eq, ?_⟩
  exact Logged.result_bind_eq_ok_iff.2 ⟨_, st.nodeLists_eq, rfl⟩

/-- A run that passes through its stages succeeds. -/
theorem result_eq : (m.partition partitioner config).result = .ok run := by
  unfold Mesh.partition
  -- The steps, one after the other; those that only log succeed by definition.
  refine Logged.result_bind_eq_ok_iff.2 ⟨_, st.validate_eq, ?_⟩
  refine Logged.result_bind_eq_ok_iff.2 ⟨_, rfl, ?_⟩
  refine Logged.result_bind_eq_ok_iff.2 ⟨_, st.graph_eq, ?_⟩
  refine Logged.result_bind_eq_ok_iff.2 ⟨_, rfl, ?_⟩
  refine Logged.result_bind_eq_ok_iff.2 ⟨_, st.partition_eq, ?_⟩
  refine Logged.result_bind_eq_ok_iff.2 ⟨_, st.checkShape_eq, ?_⟩
  refine Logged.result_bind_eq_ok_iff.2 ⟨_, rfl, ?_⟩
  refine Logged.result_bind_eq_ok_iff.2 ⟨_, st.resolveAll_eq, ?_⟩
  refine Logged.result_bind_eq_ok_iff.2 ⟨_, rfl, ?_⟩
  refine Logged.result_bind_eq_ok_iff.2 ⟨_, st.ofAssignment_eq, ?_⟩
  refine Logged.result_bind_eq_ok_iff.2 ⟨_, st.propagate_eq, ?_⟩
  refine Logged.result_bind_eq_ok_iff.2 ⟨(), Logged.result_noteIf _ _, ?_⟩
  refine Logged.result_bind_eq_ok_iff.2 ⟨_, rfl, ?_⟩
  obtain ⟨links, hlinks, hnoted⟩ := st.exists_openLinks
  split
  · refine Logged.result_bind_eq_ok_iff.2 ⟨links, hlinks, ?_⟩
    exact Logged.result_bind_eq_ok_iff.2 ⟨(), hnoted, st.result_lists _⟩
  · exact st.result_lists _

end Stages

/-! ## Failing runs -/

/-- The partitioner is asked and answers for this mesh and this number of parts. -/
structure Answers (m : Mesh) (partitioner : Partitioner) (config : Config) (graph : DualGraph)
    (outcome : Outcome) : Prop where
  partCount_pos : 0 < config.partCount
  partition_eq : partitioner.partition graph config.partCount = .ok outcome
  size_eq : outcome.assignment.size = m.elementCount
  partCount_eq : outcome.assignment.partCount = config.partCount

/-- Why a run fails. Each cause comes with the absence of those that are looked for before. -/
inductive FirstFailure (m : Mesh) (partitioner : Partitioner) (config : Config)
    (graph : DualGraph) : Error → Prop where
  /-- No parts are asked for. -/
  | noParts (hcount : config.partCount = 0) :
    FirstFailure m partitioner config graph (.invalidPartitionCount 0)
  /-- The partitioner fails itself. -/
  | partitioner {e : Error} (hcount : 0 < config.partCount)
    (hfail : partitioner.partition graph config.partCount = .error e) :
    FirstFailure m partitioner config graph e
  /-- The partitioner answers for another mesh or another number of parts. -/
  | shape {outcome : Outcome} (hcount : 0 < config.partCount)
    (hanswer : partitioner.partition graph config.partCount = .ok outcome)
    (hshape : outcome.assignment.size ≠ m.elementCount ∨
      outcome.assignment.partCount ≠ config.partCount) :
    FirstFailure m partitioner config graph (.invalidAssignment (.wrongShape partitioner.name
      outcome.assignment.size outcome.assignment.partCount m.elementCount config.partCount))
  /-- The constraint of a node does not resolve, while those of the nodes before it do. -/
  | constraint {outcome : Outcome} {n : Nat} {e : Error}
    (hanswers : m.Answers partitioner config graph outcome) (hn : n < m.nodeCount)
    (hbefore : ∀ k < n, ∃ d, m.resolve k = .ok d) (hfail : m.resolve n = .error e) :
    FirstFailure m partitioner config graph e

/-- Settings are valid if they ask for at least one part. -/
theorem validate_eq_ok_iff : config.validate = .ok () ↔ 0 < config.partCount := by
  rw [Config.validate, Nat.pos_iff_ne_zero]
  split_ifs with hcount
  · exact ⟨nofun, fun h => absurd hcount h⟩
  · exact ⟨fun _ => hcount, fun _ => rfl⟩

/-- An assignment passes the check if it is over the elements of the mesh and the configured
parts. -/
theorem checkShape_eq_ok_iff {name : String} {a : Assignment} :
    m.checkShape name config a = .ok () ↔
      a.size = m.elementCount ∧ a.partCount = config.partCount := by
  rw [checkShape]
  split_ifs with hshape
  · exact ⟨nofun, fun h => absurd h (not_and_or.2 hshape)⟩
  · exact ⟨fun _ => not_or.1 hshape |>.imp not_not.1 not_not.1, fun _ => rfl⟩

/-- A run fails as its first cause says. -/
theorem FirstFailure.result_eq {graph : DualGraph} {e : Error}
    (h : m.FirstFailure partitioner config graph e)
    (hgraph : DualGraph.ofMesh m (Incidence.ofMesh m) = .ok graph) :
    (m.partition partitioner config).result = .error e := by
  unfold Mesh.partition
  cases h with
  | noParts hcount =>
    refine Logged.result_bind_of_error ?_
    show config.validate = _
    rw [Config.validate, if_pos hcount]
  | partitioner hcount hfail =>
    refine Logged.result_bind_of_ok_of_error (validate_eq_ok_iff.2 hcount) ?_
    refine Logged.result_bind_of_ok_of_error rfl ?_
    refine Logged.result_bind_of_ok_of_error hgraph ?_
    refine Logged.result_bind_of_ok_of_error rfl ?_
    exact Logged.result_bind_of_error hfail
  | shape hcount hanswer hshape =>
    refine Logged.result_bind_of_ok_of_error (validate_eq_ok_iff.2 hcount) ?_
    refine Logged.result_bind_of_ok_of_error rfl ?_
    refine Logged.result_bind_of_ok_of_error hgraph ?_
    refine Logged.result_bind_of_ok_of_error rfl ?_
    refine Logged.result_bind_of_ok_of_error hanswer ?_
    refine Logged.result_bind_of_error ?_
    show m.checkShape _ config _ = _
    rw [checkShape, if_pos hshape]
  | constraint hanswers hn hbefore hfail =>
    refine Logged.result_bind_of_ok_of_error (validate_eq_ok_iff.2 hanswers.partCount_pos) ?_
    refine Logged.result_bind_of_ok_of_error rfl ?_
    refine Logged.result_bind_of_ok_of_error hgraph ?_
    refine Logged.result_bind_of_ok_of_error rfl ?_
    refine Logged.result_bind_of_ok_of_error hanswers.partition_eq ?_
    refine Logged.result_bind_of_ok_of_error
      (checkShape_eq_ok_iff.2 ⟨hanswers.size_eq, hanswers.partCount_eq⟩) ?_
    refine Logged.result_bind_of_ok_of_error rfl ?_
    refine Logged.result_bind_of_error ?_
    exact resolveAll_eq_error_iff.2 ⟨_, hn, hbefore, hfail⟩

end Mesh

end MeshPartition
