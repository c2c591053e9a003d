import MeshPartition.Proofs.NodeList.Membership
import MeshPartition.Proofs.Closure.Masters
import MeshPartition.Proofs.Shape

/-!
# Comparing node lists

A list is determined by what it holds (`Context.Lists.unique`), so that lists built from different
tables can be compared through the descriptions that `Context.exists_nodeList` gives of them. If two
contexts agree on the elements (`Context.SameElements`), the local nodes of a part are the same, and
a part lists at least the same shared nodes if there are more masters and larger sets
(`Context.lists_mono_of_sameShape`). If masters and sets are the same, so are the lists
(`Context.nodeLists_eq_of_sameShape`).
-/

namespace MeshPartition

namespace NodeList

variable {l l' : NodeList}

/-- Lists are equal that hold the same. -/
theorem eq_of_mem_iff {remote : ℕ → IndexSet} (hpartition : l.partition = l'.partition)
    (helements : l.elements = l'.elements) (hlocal : ∀ n, n ∈ l.localNodes ↔ n ∈ l'.localNodes)
    (hshared : ∀ n, n ∈ l.sharedNodes.keys ↔ n ∈ l'.sharedNodes.keys)
    (hremote : l.Annotated remote) (hremote' : l'.Annotated remote) : l = l' := by
  have hmap : l.sharedNodes = l'.sharedNodes := by
    refine IndexMap.ext fun n => ?_
    have hkey := hshared n
    rw [IndexMap.mem_keys, IndexMap.mem_keys] at hkey
    cases hparts : l.sharedNodes.find? n with
    | none =>
      rw [hparts] at hkey
      exact (Option.not_isSome_iff_eq_none.1 fun h => nomatch hkey.2 h).symm
    | some parts =>
      rw [hparts] at hkey
      obtain ⟨parts', hparts'⟩ := Option.isSome_iff_exists.1 (hkey.1 rfl)
      -- Both annotations are what `remote` gives.
      rw [hparts', hremote n parts hparts, hremote' n parts' hparts']
  have hset : l.localNodes = l'.localNodes := IndexSet.ext hlocal
  calc l = ⟨l.partition, l.elements, l.localNodes, l.sharedNodes⟩ := rfl
    _ = ⟨l'.partition, l'.elements, l'.localNodes, l'.sharedNodes⟩ := by
      rw [hpartition, helements, hset, hmap]
    _ = l' := rfl

end NodeList

namespace Context

variable {ctx ctx' : Context} {p n : ℕ}

/-- What a list holds determines it. -/
theorem Lists.unique {given : ℕ → Prop} {l l' : NodeList} (h : ctx.Lists p given l)
    (h' : ctx.Lists p given l') : l = l' :=
  NodeList.eq_of_mem_iff (h.partition_eq.trans h'.partition_eq.symm)
    (h.elements_eq.trans h'.elements_eq.symm)
    (fun n => (h.mem_localNodes n).trans (h'.mem_localNodes n).symm)
    (fun n => (h.mem_sharedNodes n).trans (h'.mem_sharedNodes n).symm) h.annotated h'.annotated

/-- Two contexts agree on the elements, the nodes that these contain, and their parts. -/
structure SameElements (ctx ctx' : Context) : Prop where
  assignment_eq : ctx.assignment = ctx'.assignment
  incidence_eq : ctx.incidence = ctx'.incidence
  incidentParts_eq : ∀ n,
    ctx.mesh.incidentParts ctx.assignment n = ctx'.mesh.incidentParts ctx'.assignment n

/-- Contexts over meshes of one shape and the same assignment agree on the elements. -/
theorem sameElements_of_ofTables {m m' : Mesh} {a : Assignment} {c c' : Classification}
    {deps deps' : DependencyTable} (hshape : m.SameShape m')
    (h : ofTables m (Incidence.ofMesh m) a c deps = .ok ctx)
    (h' : ofTables m' (Incidence.ofMesh m') a c' deps' = .ok ctx') : ctx.SameElements ctx' := by
  obtain ⟨hmesh, hincidence, hassignment, -⟩ := eq_of_ofTables h
  obtain ⟨hmesh', hincidence', hassignment', -⟩ := eq_of_ofTables h'
  refine ⟨hassignment.trans hassignment'.symm, ?_, fun n => ?_⟩
  · rw [hincidence, hincidence', hshape.incidence_eq]
  · rw [hmesh, hmesh', hassignment, hassignment', hshape.incidentParts_eq]

namespace SameElements

variable (h : ctx.SameElements ctx')

include h

/-- Whether contexts agree on the elements does not depend on which is first. -/
theorem symm : ctx'.SameElements ctx :=
  ⟨h.assignment_eq.symm, h.incidence_eq.symm, fun n => (h.incidentParts_eq n).symm⟩

/-- The same parts meet at a node. -/
theorem meeting_eq (n : ℕ) : ctx.meeting n = ctx'.meeting n := by
  rw [meeting, meeting, h.incidence_eq, h.assignment_eq]

/-- The same nodes are inner to a part. -/
theorem isInner_iff : ctx.IsInner p n ↔ ctx'.IsInner p n := by
  rw [IsInner, IsInner, h.incidentParts_eq, h.meeting_eq]

/-- What a list holds by one context it holds by the other. -/
theorem lists_congr {given : ℕ → Prop} {l : NodeList} (hl : ctx.Lists p given l) :
    ctx'.Lists p given l where
  partition_eq := hl.partition_eq
  elements_eq := by rw [hl.elements_eq, h.assignment_eq]
  mem_localNodes n := by rw [hl.mem_localNodes, h.isInner_iff]
  mem_sharedNodes n := by rw [hl.mem_sharedNodes, h.isInner_iff]
  annotated := by
    simp only [← h.meeting_eq]
    exact hl.annotated

/-- With more masters and larger sets a part needs at least the same nodes. -/
theorem isNeeded_mono
    (hmasters : ∀ s, ctx.dependencies.mastersOf s ⊆ ctx'.dependencies.mastersOf s)
    (hsets : ∀ n : ℕ, ctx.classification.partitions[n]?.getD ∅ ⊆
      ctx'.classification.partitions[n]?.getD ∅) (hn : ctx.IsNeeded p n) : ctx'.IsNeeded p n := by
  rcases hn with hown | ⟨s, hlink, hown⟩ | ⟨k, hlink, hinner⟩ | hclosed
  · exact Or.inl (h.incidentParts_eq n ▸ hown)
  · exact Or.inr (Or.inl ⟨s, hmasters s hlink, h.incidentParts_eq s ▸ hown⟩)
  · exact Or.inr (Or.inr (Or.inl ⟨k, hmasters n hlink, h.isInner_iff.1 hinner⟩))
  · exact Or.inr (Or.inr (Or.inr (hsets n p hclosed)))

/-- With the same masters and sets the list of a part is the same. -/
theorem nodeList_eq (hmasters : ctx.dependencies.SameMasters ctx'.dependencies)
    (hclassification : ctx.classification = ctx'.classification) (p : ℕ) :
    ctx.nodeList p = ctx'.nodeList p := by
  obtain ⟨l, hl, hlists⟩ := ctx.exists_nodeList p
  obtain ⟨l', hl', hlists'⟩ := ctx'.exists_nodeList p
  have hneeded : ∀ n, ctx.IsNeeded p n ↔ ctx'.IsNeeded p n := fun n =>
    ⟨h.isNeeded_mono (fun s k => (hmasters.mem_iff s k).1)
        (fun n => hclassification ▸ IndexSet.subset_refl _),
      h.symm.isNeeded_mono (fun s k => (hmasters.mem_iff s k).2)
        (fun n => hclassification ▸ IndexSet.subset_refl _)⟩
  have hsame : ctx'.Lists p (ctx'.IsNeeded p) l :=
    (h.lists_congr hlists).congr fun n _ => hneeded n
  rw [hl, hl', hsame.unique hlists']

/-- With the same masters and sets the lists of all parts are the same. -/
theorem nodeLists_eq (hmasters : ctx.dependencies.SameMasters ctx'.dependencies)
    (hclassification : ctx.classification = ctx'.classification) :
    ctx.nodeLists = ctx'.nodeLists := by
  have hlist : ctx.nodeList = ctx'.nodeList := funext (h.nodeList_eq hmasters hclassification)
  rw [nodeLists, nodeLists, hlist, h.assignment_eq]

/-- With more masters and larger sets a part lists the same local nodes, and at least the same
shared nodes. -/
theorem lists_mono {l l' : NodeList}
    (hmasters : ∀ s, ctx.dependencies.mastersOf s ⊆ ctx'.dependencies.mastersOf s)
    (hsets : ∀ n : ℕ, ctx.classification.partitions[n]?.getD ∅ ⊆
      ctx'.classification.partitions[n]?.getD ∅) (hl : ctx.Lists p (ctx.IsNeeded p) l)
    (hl' : ctx'.Lists p (ctx'.IsNeeded p) l') :
    l.localNodes = l'.localNodes ∧ l.sharedNodes.keys ⊆ l'.sharedNodes.keys := by
  refine ⟨IndexSet.ext fun n => ?_, fun n hn => ?_⟩
  · rw [hl.mem_localNodes, hl'.mem_localNodes, h.isInner_iff]
  · obtain ⟨hneeded, hinner⟩ := (hl.mem_sharedNodes n).1 hn
    exact (hl'.mem_sharedNodes n).2
      ⟨h.isNeeded_mono hmasters hsets hneeded, mt h.isInner_iff.2 hinner⟩

end SameElements

section SameShape

variable {m m' : Mesh} {a : Assignment} {c c' : Classification} {deps deps' : DependencyTable}

/-- Over meshes of one shape, with the same masters and sets, all parts have the same lists. -/
theorem nodeLists_eq_of_sameShape (hshape : m.SameShape m') (hmasters : deps.SameMasters deps')
    (h : ofTables m (Incidence.ofMesh m) a c deps = .ok ctx)
    (h' : ofTables m' (Incidence.ofMesh m') a c deps' = .ok ctx') :
    ctx.nodeLists = ctx'.nodeLists := by
  have hsame := sameElements_of_ofTables hshape h h'
  obtain ⟨-, -, -, hclassification, rfl⟩ := eq_of_ofTables h
  obtain ⟨-, -, -, hclassification', rfl⟩ := eq_of_ofTables h'
  exact hsame.nodeLists_eq hmasters (hclassification.trans hclassification'.symm)

/-- Over meshes of one shape, with more masters and larger sets, a part lists the same local nodes
and at least the same shared nodes. -/
theorem lists_mono_of_sameShape {l l' : NodeList} (hshape : m.SameShape m')
    (hmasters : ∀ s, deps.mastersOf s ⊆ deps'.mastersOf s)
    (hsets : ∀ n : ℕ, c.partitions[n]?.getD ∅ ⊆ c'.partitions[n]?.getD ∅)
    (h : ofTables m (Incidence.ofMesh m) a c deps = .ok ctx)
    (h' : ofTables m' (Incidence.ofMesh m') a c' deps' = .ok ctx')
    (hl : ctx.Lists p (ctx.IsNeeded p) l) (hl' : ctx'.Lists p (ctx'.IsNeeded p) l') :
    l.localNodes = l'.localNodes ∧ l.sharedNodes.keys ⊆ l'.sharedNodes.keys := by
  have hsame := sameElements_of_ofTables hshape h h'
  obtain ⟨-, -, -, rfl, rfl⟩ := eq_of_ofTables h
  obtain ⟨-, -, -, rfl, rfl⟩ := eq_of_ofTables h'
  exact hsame.lists_mono hmasters hsets hl hl'

end SameShape

end Context

end MeshPartition
