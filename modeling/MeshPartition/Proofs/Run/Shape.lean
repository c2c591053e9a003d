import MeshPartition.Proofs.NodeList.Comparison
import MeshPartition.Proofs.Run.Outcome

/-!
# What a run depends on

A run sees of a mesh its shape and the sets of masters that its constraints resolve to, and nothing
else: not the ids, not the order in which elements and constraints list nodes or how often, and not
the kinds of the constraints. `Mesh.partition_eq_of_sameShape` says so for two meshes that agree in
this. Either the run fails on both with the same error, which is the partitioner's or is about the
number of parts or the assignment, or it returns on both the same.

The stages of a run on the one mesh are stages of the run on the other (`Stages.ofSameShape`), and a
failure before the constraints are looked at happens on both (`FirstFailure.ofSameShape`).
-/

namespace MeshPartition.Mesh

variable {m m' : Mesh} {deps deps' : DependencyTable} {partitioner : Partitioner} {config : Config}
  {run : Run}

/-- Meshes of one shape have the same dual graph. -/
theorem SameShape.graph_eq (h : m.SameShape m') : DualGraph.ofMesh m (Incidence.ofMesh m) =
    DualGraph.ofMesh m' (Incidence.ofMesh m') := by
  rw [DualGraph.ofMesh_eq_ok, DualGraph.ofMesh_eq_ok, h.rowsOf_eq]

/-- An answer for the one mesh is an answer for the other. -/
theorem SameShape.answers {outcome : Outcome} {graph : DualGraph} (h : m.SameShape m')
    (hanswers : m.Answers partitioner config graph outcome) :
    m'.Answers partitioner config graph outcome :=
  { hanswers with size_eq := hanswers.size_eq.trans h.elementCount_eq }

/-- A run on one mesh is a run on every mesh of the same shape with the same masters. -/
theorem Stages.ofSameShape (st : m.Stages partitioner config run) (h : m.SameShape m')
    (hdeps' : m'.resolveAll = .ok deps') (hmasters : st.dependencies.SameMasters deps') :
    Nonempty (m'.Stages partitioner config run) := by
  have hpropagate := st.propagate_eq
  rw [Classification.propagate_congr hmasters] at hpropagate
  obtain ⟨lists, ⟨st'⟩⟩ := exists_stages_of_propagate (h.graph_eq ▸ st.graph_eq)
    (h.answers st.answers) hdeps' (h.incidence_eq ▸ st.ofAssignment_eq) hpropagate
  obtain rfl := Except.ok.inj (st'.resolveAll_eq.symm.trans hdeps')
  -- The two contexts hold the same tables, apart from mesh and dependencies, hence the same lists.
  have hlists := Context.nodeLists_eq_of_sameShape h hmasters st.ofTables_eq st'.ofTables_eq
  rw [st.nodeLists_eq, st'.nodeLists_eq, Except.ok.injEq] at hlists
  subst hlists
  exact ⟨st'⟩

/-- What can go wrong with the answer of a partitioner: no parts are asked for, it fails itself, or
its assignment does not fit. -/
inductive AnswerFault (partitioner : Partitioner) (config : Config) (graph : DualGraph) :
    Error → Prop where
  | noParts (hcount : config.partCount = 0) :
    AnswerFault partitioner config graph (.invalidPartitionCount 0)
  | partitioner {e : Error} (hfail : partitioner.partition graph config.partCount = .error e) :
    AnswerFault partitioner config graph e
  | assignment (fault : AssignmentFault) :
    AnswerFault partitioner config graph (.invalidAssignment fault)

/-- If all constraints resolve, a run fails because of the partitioner's answer, and it fails so on
every mesh of the same shape. -/
theorem FirstFailure.ofSameShape {graph : DualGraph} {e : Error}
    (hfail : m.FirstFailure partitioner config graph e) (h : m.SameShape m')
    (hresolve : ∀ n < m.nodeCount, ∃ d, m.resolve n = .ok d) :
    m'.FirstFailure partitioner config graph e ∧ AnswerFault partitioner config graph e := by
  cases hfail with
  | noParts hcount => exact ⟨.noParts hcount, .noParts hcount⟩
  | partitioner hcount hfail => exact ⟨.partitioner hcount hfail, .partitioner hfail⟩
  | shape hcount hanswer hshape =>
    rw [h.elementCount_eq] at hshape ⊢
    exact ⟨.shape hcount hanswer hshape, .assignment _⟩
  | constraint hanswers hn hbefore hfail =>
    obtain ⟨d, hd⟩ := hresolve _ hn
    cases hfail.symm.trans hd

/-- Two meshes of one shape, whose constraints resolve to the same sets of masters, have the same
runs: with the same partitioner and settings either both fail with the same error, for which the
partitioner or its answer is the cause, or both return the same result. -/
theorem partition_eq_of_sameShape (h : m.SameShape m') (hdeps : m.resolveAll = .ok deps)
    (hdeps' : m'.resolveAll = .ok deps')
    (hmasters : ∀ s k, k ∈ deps.mastersOf s ↔ k ∈ deps'.mastersOf s)
    (partitioner : Partitioner) (config : Config) :
    (∃ graph e, DualGraph.ofMesh m (Incidence.ofMesh m) = .ok graph ∧
      DualGraph.ofMesh m' (Incidence.ofMesh m') = .ok graph ∧
      AnswerFault partitioner config graph e ∧
      (m.partition partitioner config).result = .error e ∧
      (m'.partition partitioner config).result = .error e) ∨
    ∃ run, (m.partition partitioner config).result = .ok run ∧
      (m'.partition partitioner config).result = .ok run := by
  have hgraph := DualGraph.ofMesh_eq_ok m
  have hgraph' := h.graph_eq ▸ hgraph
  rcases firstFailure_or_answers m partitioner config _ with
    ⟨e, hfail⟩ | ⟨⟨outcome, hanswers⟩, hresolve⟩
  · obtain ⟨hfail', hfault⟩ := hfail.ofSameShape h (exists_resolveAll_iff.1 ⟨deps, hdeps⟩)
    exact Or.inl ⟨_, e, hgraph, hgraph', hfault, hfail.result_eq hgraph, hfail'.result_eq hgraph'⟩
  · obtain ⟨run, hrun⟩ := exists_run hgraph hanswers hresolve
    obtain ⟨st⟩ := exists_stages hrun
    obtain rfl := Except.ok.inj (hdeps.symm.trans st.resolveAll_eq)
    have hsize : st.dependencies.size = deps'.size := by
      rw [size_of_resolveAll hdeps, size_of_resolveAll hdeps', h.nodeCount_eq]
    obtain ⟨st'⟩ := st.ofSameShape h hdeps' ⟨hsize, hmasters⟩
    exact Or.inr ⟨run, hrun, st'.result_eq⟩

/-- The last node hangs on the first of two elements. -/
def hangingMesh : Mesh where
  nodes := [⟨.nth 0, none⟩, ⟨.nth 1, none⟩, ⟨.nth 2, none⟩,
    ⟨.nth 3, some (.hangingOnElement (some (.nth 0)))⟩]
  elements := [⟨.nth 0, [0, 1]⟩, ⟨.nth 1, [1, 2, 3]⟩]
  nodeIds_nodup := by decide
  elementIds_nodup := by decide
  node_lt := by decide

/-- The shape of `hangingMesh` under other ids, with nodes listed in another order and repeatedly,
and with a list of masters. -/
def listedMesh : Mesh where
  nodes := [⟨.nth 16, none⟩, ⟨.nth 15, none⟩, ⟨.nth 14, none⟩,
    ⟨.nth 13, some (.explicitMasters [.nth 15, .nth 16, .nth 15])⟩]
  elements := [⟨.nth 8, [1, 0, 0]⟩, ⟨.nth 7, [3, 2, 1]⟩]
  nodeIds_nodup := by decide
  elementIds_nodup := by decide
  node_lt := by decide

/-- The dependencies of `hangingMesh`. -/
def hangingDependencies : DependencyTable where
  entries := [none, none, none, some ⟨.hangingOnElement, [0, 1]⟩]
  master_lt := by simp

/-- The dependencies of `listedMesh`. -/
def listedDependencies : DependencyTable where
  entries := [none, none, none, some ⟨.explicitMasters, [1, 0]⟩]
  master_lt := by simp

/-- What a run makes of `hangingMesh`, with a part for each element. -/
def hangingRun : Run where
  edgeCut := 1
  assignment := ⟨[0, 1], 2⟩
  classification := ⟨[.shared, .shared, .localOnly, .localOnly],
    [IndexSet.ofList [0, 1], IndexSet.ofList [0, 1], IndexSet.ofList [1], IndexSet.ofList [1]]⟩
  closure := ⟨.fixedPoint, 2, true⟩
  partitions := [⟨0, [0], IndexSet.ofList [0],
      IndexMap.ofList [(1, IndexSet.ofList [1]), (3, IndexSet.ofList [1])]⟩,
    ⟨1, [1], IndexSet.ofList [2, 3],
      IndexMap.ofList [(0, IndexSet.ofList [0]), (1, IndexSet.ofList [0])]⟩]

/-- The two meshes have the same shape. -/
theorem sameShape_listedMesh : hangingMesh.SameShape listedMesh where
  nodeCount_eq := rfl
  elementCount_eq := rfl
  contains_iff e n := by
    match e with
    | 0 => simp [Contains, hangingMesh, listedMesh, or_comm]
    | 1 => simp [Contains, hangingMesh, listedMesh, or_comm, or_assoc]
    | e + 2 => simp [Contains, hangingMesh, listedMesh]

/-- The two lists of masters hold the same. -/
theorem mem_mastersOf_listedDependencies (s k : ℕ) :
    k ∈ hangingDependencies.mastersOf s ↔ k ∈ listedDependencies.mastersOf s := by
  match s with
  | 0 | 1 | 2 => rfl
  | 3 => exact List.Perm.mem_iff (List.Perm.swap 1 0 [])
  | s + 4 => rfl

/-- A hanging node and a list of masters give the same run. -/
theorem partition_eq_of_sameShape_hanging : hangingMesh.SameShape listedMesh ∧
    hangingMesh.resolveAll = .ok hangingDependencies ∧
    listedMesh.resolveAll = .ok listedDependencies ∧
    (∀ s k, k ∈ hangingDependencies.mastersOf s ↔ k ∈ listedDependencies.mastersOf s) ∧
    (hangingMesh.partition (.manual [0, 1]) ⟨2, .fixedPoint⟩).result = .ok hangingRun ∧
    (listedMesh.partition (.manual [0, 1]) ⟨2, .fixedPoint⟩).result = .ok hangingRun := by
  have hdeps : hangingMesh.resolveAll = .ok hangingDependencies := rfl
  have hdeps' : listedMesh.resolveAll = .ok listedDependencies := rfl
  have hrun : (hangingMesh.partition (.manual [0, 1]) ⟨2, .fixedPoint⟩).result = .ok hangingRun :=
    rfl
  rcases partition_eq_of_sameShape sameShape_listedMesh hdeps hdeps'
      mem_mastersOf_listedDependencies (.manual [0, 1]) ⟨2, .fixedPoint⟩ with
    ⟨_, _, -, -, -, hfail, -⟩ | ⟨run, hsame, hsame'⟩
  · cases hfail.symm.trans hrun
  · obtain rfl := Except.ok.inj (hsame.symm.trans hrun)
    exact ⟨sameShape_listedMesh, hdeps, hdeps', mem_mastersOf_listedDependencies, hrun, hsame'⟩

end MeshPartition.Mesh
