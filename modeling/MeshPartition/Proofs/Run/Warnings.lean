import MeshPartition.Proofs.Closure.OpenLinks
import MeshPartition.Proofs.Run.Outcome

/-!
# What a run logs and when it warns

`Stages.log_eq` gives the log of a successful run, entry by entry. After a single pass it has
a warning for each link that the pass has left open, and from the links of the run's tables it is
decided whether there is one (`Stages.exists_unreachedMaster_iff`).

The run with the same input that closes its dependencies to a fixed point succeeds as well, with the
same tables up to the closure (`Stages.exists_withClosure`).
`propagate_singlePass_converged_iff` compares the two: warnings are logged exactly if that run would
have reached some node from more parts.
-/

namespace MeshPartition

namespace Logged

variable {α β : Type} {x : Logged α} {f : α → Logged β} {a : α}

/-- What two computations in a row log if the first one succeeds. -/
theorem log_bind_of_ok (hx : x.result = .ok a) : (x >>= f).log = x.log ++ (f a).log := by
  show (x.andThen f).log = _
  rw [andThen, hx]

/-- A step that logs nothing leaves the log to what follows. -/
theorem log_lift_bind {e : Except Error α} (he : e = .ok a) :
    ((liftM e : Logged α) >>= f).log = (f a).log :=
  log_bind_of_ok he

/-- Computations that succeed one after the other log what each of them logs. -/
theorem log_forM {as : List α} {f : α → Logged Unit} (h : (as.forM f).result = .ok ()) :
    (as.forM f).log = as.flatMap fun a => (f a).log := by
  induction as with
  | nil => rfl
  | cons a as ih =>
    obtain ⟨_, ha, has⟩ := result_bind_eq_ok_iff.1 h
    rw [List.flatMap_cons, ← ih has]
    exact log_bind_of_ok ha

end Logged

namespace Mesh

open Logged (log_bind_of_ok log_lift_bind)

variable {m : Mesh} {partitioner : Partitioner} {config : Config} {run : Run}

namespace Stages

variable (st : m.Stages partitioner config run)

include st

/-- The end of a run, which builds the node lists, logs nodes without parts and the summary. -/
theorem log_lists (orphans : ℕ) : (show Logged Run from do
    Logged.noteIf (0 < orphans) (.orphans orphans)
    let context ← Context.ofTables m (Incidence.ofMesh m) run.assignment run.classification
      st.dependencies
    let partitions ← context.nodeLists
    let run : Run := ⟨run.edgeCut, run.assignment, run.classification, run.closure, partitions⟩
    Logged.note (.summary run.summary)
    return run).log =
      (Logged.noteIf (0 < orphans) (.orphans orphans)).log ++ [.summary run.summary] := by
  refine (log_bind_of_ok (Logged.result_noteIf _ _)).trans ?_
  rw [log_lift_bind st.ofTables_eq, log_lift_bind st.nodeLists_eq]
  rfl

/-- The links that the closure of a run has left open. -/
theorem unsatisfied_eq : run.classification.unsatisfied st.dependencies = .ok
    (st.dependencies.links.filter fun l =>
      ¬ run.closedParts l.slave ⊆ run.closedParts l.master) := by
  obtain ⟨hsize, hparts, -⟩ := Classification.propagate_eq_ok st.propagate_eq
  obtain ⟨hdeps, -⟩ := Classification.sizes_of_propagate st.propagate_eq
  simp only [st.closedParts_eq]
  exact Classification.unsatisfied_eq_filter (hdeps.trans hsize.symm) (hparts.trans hsize.symm)

/-- The log of a successful run: its stages in order, and in between, after a single pass, the
links that the pass has left open. -/
theorem log_eq : (m.partition partitioner config).log =
    [.started m.nodeCount m.elementCount config.partCount partitioner.name,
      .dualGraph st.graph.vertexCount st.graph.edgeCount, .edgeCut run.edgeCut,
      .constrained st.dependencies.constrainedCount,
      .closed run.closure.passes (run.classification.count .shared)] ++
    (if config.closure = .singlePass then
      (st.dependencies.links.filter fun l =>
        ¬ run.closedParts l.slave ⊆ run.closedParts l.master).flatMap
          fun l => (m.noteOpenLink l).log
    else []) ++
    ((Logged.noteIf (0 < run.classification.partitions.countP (·.isEmpty))
      (.orphans (run.classification.partitions.countP (·.isEmpty)))).log ++
    [.summary run.summary]) := by
  obtain ⟨links, hlinks, hnoted⟩ := st.exists_openLinks
  obtain rfl := Except.ok.inj (hlinks.symm.trans st.unsatisfied_eq)
  obtain ⟨-, -, -, hfixed⟩ := Classification.propagate_eq_ok st.propagate_eq
  -- A closure to a fixed point has converged, so that it is never said to be unsettled.
  have hsettled : (decide (config.closure = .fixedPoint) && !run.closure.converged) = false := by
    by_cases hmode : config.closure = .fixedPoint
    · rw [(hfixed hmode).1]
      simp
    · simp [hmode]
  unfold Mesh.partition
  rw [log_lift_bind st.validate_eq, log_bind_of_ok rfl, log_lift_bind st.graph_eq,
    log_bind_of_ok rfl, log_lift_bind st.partition_eq, log_lift_bind st.checkShape_eq,
    log_bind_of_ok rfl, log_lift_bind st.resolveAll_eq, log_bind_of_ok rfl,
    log_lift_bind st.ofAssignment_eq, log_lift_bind st.propagate_eq]
  dsimp only
  rw [log_bind_of_ok (Logged.result_noteIf _ _), log_bind_of_ok rfl, hsettled]
  by_cases hmode : config.closure = .singlePass
  · rw [if_pos hmode, if_pos hmode, log_lift_bind hlinks, log_bind_of_ok hnoted,
      Logged.log_forM hnoted, st.log_lists, ← List.append_assoc]
    rfl
  · rw [if_neg hmode, if_neg hmode, st.log_lists]
    rfl

/-- After a single pass there is a warning exactly if the pass has left a link open. -/
theorem exists_unreachedMaster_iff (hmode : config.closure = .singlePass) :
    (∃ master slave, .unreachedMaster master slave ∈ (m.partition partitioner config).log) ↔
      ∃ l ∈ st.dependencies.links, ¬ run.closedParts l.slave ⊆ run.closedParts l.master := by
  have horphans : ∀ master slave k, .unreachedMaster master slave ∉
      (Logged.noteIf (0 < k) (.orphans k)).log := fun master slave k h => by
    cases Logged.mem_log_noteIf h
  rw [st.log_eq, if_pos hmode]
  simp only [List.mem_append, List.mem_cons, List.mem_flatMap, List.mem_filter,
    decide_eq_true_eq, reduceCtorEq, List.not_mem_nil, or_false, false_or, horphans]
  constructor
  · rintro ⟨_, _, l, hopen, -⟩
    exact ⟨l, hopen⟩
  · rintro ⟨l, hl, hopen⟩
    obtain ⟨master, slave, hnoted⟩ := st.noteOpenLink_eq hl
    refine ⟨master, slave, l, ⟨hl, hopen⟩, ?_⟩
    rw [hnoted]
    exact List.mem_cons_self

/-- With another closure mode the run succeeds as well, with the same tables up to the closure. -/
theorem exists_withClosure (mode : ClosureMode) :
    ∃ other, (m.partition partitioner (config.withClosure mode)).result = .ok other ∧
      st.classified.propagate st.dependencies mode = .ok (other.closure, other.classification) := by
  obtain ⟨hdeps, hsets⟩ := Classification.sizes_of_propagate st.propagate_eq
  obtain ⟨report, closed, hclosed⟩ := Classification.exists_propagate hdeps hsets mode
  have hanswers : m.Answers partitioner (config.withClosure mode) st.graph
      ⟨run.edgeCut, run.assignment⟩ :=
    ⟨st.answers.partCount_pos, st.answers.partition_eq, st.answers.size_eq,
      st.answers.partCount_eq⟩
  obtain ⟨lists, ⟨other⟩⟩ := exists_stages_of_propagate st.graph_eq hanswers st.resolveAll_eq
    st.ofAssignment_eq hclosed
  exact ⟨_, other.result_eq, hclosed⟩

end Stages

end Mesh

namespace Classification

/-- A single pass reports convergence exactly if a closure to a fixed point leaves the same sets.
Hence a run that makes a single pass warns of a master exactly if the run that closes the same input
to a fixed point, which succeeds as well, reaches some node from other parts. -/
theorem propagate_singlePass_converged_iff (c : Classification) (deps : DependencyTable)
    (hdeps : deps.size = c.size) (hsets : c.partitions.length = c.size) :
    (∃ single once fixed closed, c.propagate deps .singlePass = .ok (single, once) ∧
      c.propagate deps .fixedPoint = .ok (fixed, closed) ∧
      (single.converged = true ↔ once.partitions = closed.partitions)) ∧
    ∀ (m : Mesh) (partitioner : Partitioner) (config : Config) (run : Run),
      config.closure = .singlePass → (m.partition partitioner config).result = .ok run →
      ∃ other, (m.partition partitioner (config.withClosure .fixedPoint)).result = .ok other ∧
        ((∃ master slave, .unreachedMaster master slave ∈ (m.partition partitioner config).log) ↔
          run.classification.partitions ≠ other.classification.partitions) := by
  constructor
  · obtain ⟨single, once, honce⟩ := exists_propagate hdeps hsets .singlePass
    obtain ⟨fixed, closed, hclosed⟩ := exists_propagate hdeps hsets .fixedPoint
    refine ⟨single, once, fixed, closed, honce, hclosed, ?_⟩
    rw [converged_iff_of_propagate honce, closed_iff_of_propagate honce hclosed]
  · intro m partitioner config run hmode hrun
    obtain ⟨st⟩ := Mesh.exists_stages hrun
    obtain ⟨other, hother, hclosed⟩ := st.exists_withClosure .fixedPoint
    refine ⟨other, hother, ?_⟩
    have honce := st.propagate_eq
    rw [hmode] at honce
    rw [st.exists_unreachedMaster_iff hmode, Ne, ← closed_iff_of_propagate honce hclosed]
    simp only [Closure.Closed, st.closedParts_eq, not_forall, exists_prop]

/-- Two links of a chain, of which the one that leads to the other is visited last. -/
def chainDependencies : DependencyTable where
  entries := [none, some ⟨.rigidArm, [0]⟩, some ⟨.rigidArm, [1]⟩]
  master_lt := by simp

/-- Three local nodes, each in a part of its own. -/
def threeParts : Classification :=
  ⟨[.localOnly, .localOnly, .localOnly],
    [IndexSet.ofList [0], IndexSet.ofList [1], IndexSet.ofList [2]]⟩

end Classification

namespace Mesh

/-- Three nodes with an element each, chained by rigid arms. -/
def armChain : Mesh where
  nodes := [⟨.nth 0, none⟩, ⟨.nth 1, some (.rigidArm [.nth 0])⟩,
    ⟨.nth 2, some (.rigidArm [.nth 1])⟩]
  elements := [⟨.nth 0, [0]⟩, ⟨.nth 1, [1]⟩, ⟨.nth 2, [2]⟩]
  nodeIds_nodup := by decide
  elementIds_nodup := by decide
  node_lt := by decide

/-- What a run with a single pass makes of `armChain` when each element is a part of its own. -/
def armChainRun : Run where
  edgeCut := 0
  assignment := ⟨[0, 1, 2], 3⟩
  classification := ⟨[.shared, .shared, .localOnly],
    [IndexSet.ofList [0, 1], IndexSet.ofList [1, 2], IndexSet.ofList [2]]⟩
  closure := ⟨.singlePass, 1, false⟩
  partitions := [⟨0, [0], IndexSet.ofList [0], IndexMap.ofList [(1, IndexSet.ofList [1])]⟩,
    ⟨1, [1], IndexSet.ofList [1],
      IndexMap.ofList [(0, IndexSet.ofList [0]), (2, IndexSet.ofList [2])]⟩,
    ⟨2, [2], IndexSet.ofList [2], IndexMap.ofList [(1, IndexSet.ofList [1])]⟩]

end Mesh

namespace Classification

/-- The single pass brings the last part no further than to the second node. It says so, and the run
warns of the first node. -/
theorem propagate_singlePass_converged_chain :
    chainDependencies.size = threeParts.size ∧ threeParts.partitions.length = threeParts.size ∧
      (∃ single once fixed closed,
        threeParts.propagate chainDependencies .singlePass = .ok (single, once) ∧
        threeParts.propagate chainDependencies .fixedPoint = .ok (fixed, closed) ∧
        single.converged = false ∧ once.partitions ≠ closed.partitions) ∧
      (Mesh.armChain.partition (.manual [0, 1, 2]) ⟨3, .singlePass⟩).result = .ok Mesh.armChainRun ∧
      ∃ other, (Mesh.armChain.partition (.manual [0, 1, 2]) ⟨3, .fixedPoint⟩).result = .ok other ∧
        (∃ master slave, .unreachedMaster master slave ∈
          (Mesh.armChain.partition (.manual [0, 1, 2]) ⟨3, .singlePass⟩).log) ∧
        Mesh.armChainRun.classification.partitions ≠ other.classification.partitions := by
  obtain ⟨⟨single, once, fixed, closed, honce, hclosed, hconverged⟩, hruns⟩ :=
    propagate_singlePass_converged_iff threeParts chainDependencies rfl rfl
  have hpass : threeParts.propagate chainDependencies .singlePass = .ok (⟨.singlePass, 1, false⟩,
      ⟨[.shared, .shared, .localOnly],
        [IndexSet.ofList [0, 1], IndexSet.ofList [1, 2], IndexSet.ofList [2]]⟩) := by rfl
  obtain ⟨hsingle, -⟩ := Prod.mk.inj (Except.ok.inj (honce.symm.trans hpass))
  have hopen : single.converged = false := by rw [hsingle]
  have hdiffer : once.partitions ≠ closed.partitions := fun h => by
    rw [hconverged.2 h] at hopen
    cases hopen
  have hrun : (Mesh.armChain.partition (.manual [0, 1, 2]) ⟨3, .singlePass⟩).result =
      .ok Mesh.armChainRun := by rfl
  obtain ⟨other, hother, hwarned⟩ := hruns _ _ _ _ rfl hrun
  have hwarning : .unreachedMaster (.nth 0) (.nth 1) ∈
      (Mesh.armChain.partition (.manual [0, 1, 2]) ⟨3, .singlePass⟩).log := by decide
  exact ⟨rfl, rfl, ⟨single, once, fixed, closed, honce, hclosed, hopen, hdiffer⟩, hrun, other,
    hother, ⟨_, _, hwarning⟩, hwarned.1 ⟨_, _, hwarning⟩⟩

end Classification

end MeshPartition
