import MeshPartition.Proofs.Run.Coverage

/-!
# The lists of a run agree with each other

Each list of a run is built on its own, and it annotates its shared nodes with other parts. What it
says of another part is true of the list of that part (`Mesh.partition_annotations_agree`): a node
that is annotated with a part is in the list of the part, and two lists annotate a node with each
other exactly if both parts have an element there.

Both follow from `Stages.annotates_iff`. An annotation speaks of the elements at the node alone,
never of the closed sets, while being listed may be for the sake of a link. So a list may annotate a
node with a part that does not annotate it back: all elements of the node lie in the other part,
where it is a local node.
-/

namespace MeshPartition

/-- The list names part `q` as another part that meets at its shared node `n`. -/
def NodeList.Annotates (l : NodeList) (n q : ℕ) : Prop :=
  ∃ parts, l.sharedNodes.find? n = some parts ∧ q ∈ parts

namespace Mesh

variable {m : Mesh} {partitioner : Partitioner} {config : Config} {run : Run} {p q n : ℕ}

namespace Stages

variable (st : m.Stages partitioner config run)

include st

/-- The list of a part annotates its nodes with the other parts that have an element there. -/
theorem annotates_iff {l : NodeList} (h : st.context.Lists p (st.context.IsNeeded p) l)
    (hpq : q ≠ p) : l.Annotates n q ↔
      l.isAccessible n = true ∧ q ∈ m.incidentParts run.assignment n := by
  constructor
  · rintro ⟨parts, hparts, hq⟩
    have hkey : n ∈ l.sharedNodes.keys := by
      rw [IndexMap.mem_keys, hparts]
      rfl
    rw [h.annotated n parts hparts, IndexSet.mem_erase, st.mem_meeting] at hq
    exact ⟨NodeList.isAccessible_iff.2 (Or.inr hkey), hq.2⟩
  · rintro ⟨hn, hq⟩
    -- Another part meets at the node, so it is not listed as local.
    have houter : n ∉ l.localNodes := by
      rw [h.mem_localNodes, st.isInner_iff]
      intro hinner
      rw [hinner] at hq
      exact hpq hq
    have hkey := (NodeList.isAccessible_iff.1 hn).resolve_left houter
    obtain ⟨parts, hparts⟩ := Option.isSome_iff_exists.1 (IndexMap.mem_keys.1 hkey)
    refine ⟨parts, hparts, ?_⟩
    rw [h.annotated n parts hparts, IndexSet.mem_erase, st.mem_meeting]
    exact ⟨hpq, hq⟩

end Stages

/-- If the list of one part annotates a node with another part, the node is in the list of that
part. The two lists annotate a node with each other exactly if it belongs to elements of both
parts. -/
theorem partition_annotations_agree (h : (m.partition partitioner config).result = .ok run) :
    ∀ p < config.partCount, ∀ q < config.partCount, p ≠ q →
      ∃ lp lq, run.partitions[p]? = some lp ∧ run.partitions[q]? = some lq ∧
        lp.partition = p ∧ lq.partition = q ∧ ∀ n,
          (lp.Annotates n q → lq.isAccessible n = true) ∧
          (lp.Annotates n q ∧ lq.Annotates n p ↔
            p ∈ m.incidentParts run.assignment n ∧ q ∈ m.incidentParts run.assignment n) := by
  obtain ⟨st⟩ := exists_stages h
  intro p hp q hq hpq
  obtain ⟨lp, hlp, hlistsp⟩ := st.exists_list hp
  obtain ⟨lq, hlq, hlistsq⟩ := st.exists_list hq
  refine ⟨lp, lq, hlp, hlq, hlistsp.partition_eq, hlistsq.partition_eq, fun n => ⟨?_, ?_⟩⟩
  · intro hannotates
    have hmeets := ((st.annotates_iff hlistsp hpq.symm).1 hannotates).2
    exact st.isAccessible_of_mem_incidentParts hlistsq hmeets
  · rw [st.annotates_iff hlistsp hpq.symm, st.annotates_iff hlistsq hpq]
    constructor
    · rintro ⟨⟨-, hmeetsq⟩, -, hmeetsp⟩
      exact ⟨hmeetsp, hmeetsq⟩
    · rintro ⟨hmeetsp, hmeetsq⟩
      exact ⟨⟨st.isAccessible_of_mem_incidentParts hlistsp hmeetsp, hmeetsq⟩,
        st.isAccessible_of_mem_incidentParts hlistsq hmeetsq, hmeetsp⟩

/-- In `armRun` both lists annotate the node that the two elements share with each other. In
`straddlingRun` the first list annotates the slave with the second part, where it is local and the
first part is unknown. -/
theorem partition_annotations_agree_arm :
    ((armAtBoundary.partition (.manual [0, 1]) ⟨2, .fixedPoint⟩).result = .ok armRun ∧
      ∃ lp lq, armRun.partitions[0]? = some lp ∧ armRun.partitions[1]? = some lq ∧
        lp.Annotates 1 1 ∧ lq.Annotates 1 0) ∧
    (straddlingSlave.partition (.manual [0, 1, 1]) ⟨2, .fixedPoint⟩).result = .ok straddlingRun ∧
      ∃ lp lq, straddlingRun.partitions[0]? = some lp ∧ straddlingRun.partitions[1]? = some lq ∧
        lp.Annotates 1 1 ∧ lq.isAccessible 1 = true ∧ ¬ lq.Annotates 1 0 ∧
        0 ∉ straddlingSlave.incidentParts straddlingRun.assignment 1 := by
  refine ⟨⟨partition_armAtBoundary, ?_⟩, partition_straddlingSlave, ?_⟩
  · obtain ⟨lp, lq, hlp, hlq, -, -, hagree⟩ := partition_annotations_agree partition_armAtBoundary
      0 (by decide) 1 (by decide) (by decide)
    have hboth := (hagree 1).2.2
      ⟨⟨0, _, rfl, by decide, rfl⟩, ⟨1, _, rfl, by decide, rfl⟩⟩
    exact ⟨lp, lq, hlp, hlq, hboth.1, hboth.2⟩
  · obtain ⟨lp, lq, hlp, hlq, -, -, hagree⟩ :=
      partition_annotations_agree partition_straddlingSlave 0 (by decide) 1 (by decide) (by decide)
    have hannotates : lp.Annotates 1 1 := by
      obtain rfl := Option.some.inj hlp
      exact ⟨IndexSet.ofList [1], by decide, by decide⟩
    have hback : ¬ lq.Annotates 1 0 := by
      obtain rfl := Option.some.inj hlq
      rintro ⟨parts, hparts, -⟩
      cases hparts
    refine ⟨lp, lq, hlp, hlq, hannotates, (hagree 1).1 hannotates, hback, fun hmeets => ?_⟩
    exact hback ((hagree 1).2.2 ⟨hmeets, ⟨1, _, rfl, by decide, rfl⟩⟩).2

end Mesh

end MeshPartition
