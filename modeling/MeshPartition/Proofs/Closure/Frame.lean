import MeshPartition.Proofs.Closure.InPlace
import MeshPartition.Proofs.Closure.SinglePass

/-!
# What a closure leaves alone

A closure in place either compares the sizes and stops, with nothing written, or it runs to its end
without looking past the end of a table. `Closing.propagate_frame` says so, and says what the run
may write: sets only grow, a status is kept or becomes shared, a node that is still local has its
first set, and a node that is nobody's master is not written at all. What every closure achieves,
whether it goes on to a fixed point or not, is that each master has the parts with which its slaves
have started.

All of this is about sweeps (`Closure.frame_iterate_sweep`). Most of it is read off the order in
which accesses grow. That a direct master gets the first parts of its slave although the slave may
have changed before it is visited is `Closure.pull_le_sweep`.
-/

namespace MeshPartition

namespace Closure

/-- What closing over the edges, from slave to master, may do to the accesses of the nodes, and what
it does at least. -/
structure Frame (edge : ℕ → ℕ → Prop) (before after : ℕ → Access) : Prop where
  /-- Nodes lose no parts. -/
  partitions_subset : ∀ n, (before n).partitions ⊆ (after n).partitions
  /-- A master has the parts with which its slave has started. -/
  partitions_subset_master : ∀ s m, edge s m → (before s).partitions ⊆ (after m).partitions
  /-- A status is as it was, or shared. -/
  status_eq_or : ∀ n, (after n).status = (before n).status ∨ (after n).status = .shared
  /-- A node that is local has the set with which it has started. -/
  partitions_eq_of_local : ∀ n, (after n).status = .localOnly →
    (after n).partitions = (before n).partitions
  /-- A node that is nobody's master is as it was. -/
  eq_of_not_master : ∀ n, (∀ s, ¬ edge s n) → after n = before n

/-- One sweep or more stay within the frame. -/
theorem frame_iterate_sweep (links : List Link) (k : ℕ) (σ : ℕ → Access) :
    Frame (Linked links) σ ((sweep links)^[k + 1] σ) := by
  have hle := le_iterate_sweep links (k + 1) σ
  refine ⟨fun n => Access.partitions_subset (hle n), fun s m hsm => ?_, fun n => ?_,
    fun n hn => ?_, fun n hn => ?_⟩
  · -- The first sweep brings the parts, and the others take nothing back.
    have hfirst := pull_le_sweep (l := ⟨s, m⟩) hsm σ
    have hlater := le_iterate_sweep links k (sweep links σ) m
    rw [← Function.iterate_succ_apply] at hlater
    calc (σ s).partitions ⊆ (pull (σ s) (σ m)).partitions := partitions_subset_pull _ _
      _ ⊆ ((sweep links)^[k + 1] σ m).partitions :=
        Access.partitions_subset (hfirst.trans hlater)
  · by_cases hshared : ((sweep links)^[k + 1] σ n).status = .shared
    · exact Or.inr hshared
    · exact Or.inl (congrArg Access.status (Access.eq_of_le (hle n) hshared)).symm
  · exact (congrArg Access.partitions (Access.eq_of_le_of_local (hle n) hn)).symm
  · -- No visit writes to a node that is the master of no link.
    refine iterate_sweep_induction (P := fun τ => τ n = σ n) (fun τ hτ l hl => ?_) (k + 1) rfl
    have hne : n ≠ l.master := by
      rintro rfl
      exact hn l.slave hl
    rw [step_of_ne hne, hτ]

end Closure

namespace Closing

/-- A closure in place fails on tables of different lengths, and then it has written nothing. On
tables of one length it succeeds, whatever the statuses, the sets and the dependencies are, and what
it writes is within the frame; in particular nothing is looked up past the end of a table. In all
cases it comes to the same as the closure that answers with a new classification. -/
theorem propagate_frame (c : Classification) (deps : DependencyTable) (mode : ClosureMode) :
    (deps.size ≠ c.size → (propagate deps mode).run c =
      .error (.sizeMismatch .dependencies c.size deps.size) c) ∧
    (deps.size = c.size → c.partitions.length ≠ c.size → (propagate deps mode).run c =
      .error (.sizeMismatch .partitionSets c.size c.partitions.length) c) ∧
    (deps.size = c.size → c.partitions.length = c.size →
      ∃ report closed, (propagate deps mode).run c = .ok report closed ∧
        closed.size = c.size ∧ closed.partitions.length = c.size ∧
        Closure.Frame (fun s m => m ∈ deps.mastersOf s) c.entry closed.entry) ∧
    (propagate deps mode).run c = resultOf c (c.propagate deps mode) := by
  refine ⟨fun hdeps => ?_, fun hdeps hsets => ?_, fun hdeps hsets => ?_, run_propagate c deps mode⟩
  · have hcheck : c.checkSizes deps =
        .error (.sizeMismatch .dependencies c.size deps.size) := by
      rw [Classification.checkSizes, if_pos hdeps]
      rfl
    rw [run_propagate, Classification.propagate_of_checkSizes hcheck]
    rfl
  · have hcheck : c.checkSizes deps =
        .error (.sizeMismatch .partitionSets c.size c.partitions.length) := by
      rw [Classification.checkSizes, if_neg (not_not_intro hdeps), if_pos hsets]
      rfl
    rw [run_propagate, Classification.propagate_of_checkSizes hcheck]
    rfl
  · obtain ⟨report, closed, hclosed⟩ := Classification.exists_propagate hdeps hsets mode
    obtain ⟨hsize, hparts, ⟨k, hk⟩, -⟩ := Classification.propagate_eq_ok hclosed
    have hframe := Closure.frame_iterate_sweep deps.links k c.entry
    rw [← hk, deps.linked_links] at hframe
    refine ⟨report, closed, ?_, hsize, hparts, hframe⟩
    rw [run_propagate, hclosed]
    rfl

/-- Two nodes with one set between them. -/
def halfClassification : Classification := ⟨[.localOnly, .localOnly], [IndexSet.ofList [0]]⟩

/-- The pair of nodes is refused with the dependencies of four nodes, and the nodes that lack a set
are refused with dependencies of their number; in the diamond a single pass is within the frame,
and leaves the slave of both masters as it was. -/
theorem propagate_frame_diamond :
    (Classification.diamondDependencies.size ≠ Classification.unevenPair.size ∧
      (propagate Classification.diamondDependencies .fixedPoint).run Classification.unevenPair =
        .error (.sizeMismatch .dependencies 2 4) Classification.unevenPair) ∧
    (Classification.mutualDependencies.size = halfClassification.size ∧
      halfClassification.partitions.length ≠ halfClassification.size ∧
      (propagate Classification.mutualDependencies .singlePass).run halfClassification =
        .error (.sizeMismatch .partitionSets 2 1) halfClassification) ∧
    (Classification.diamondDependencies.size = Classification.diamondClassification.size ∧
      Classification.diamondClassification.partitions.length =
        Classification.diamondClassification.size ∧
      ∃ report closed, (propagate Classification.diamondDependencies .singlePass).run
          Classification.diamondClassification = .ok report closed ∧
        Closure.Frame (fun s m => m ∈ Classification.diamondDependencies.mastersOf s)
          Classification.diamondClassification.entry closed.entry ∧
        closed = ⟨[.localOnly, .shared, .shared, .shared], [IndexSet.ofList [0],
          IndexSet.ofList [0, 1], IndexSet.ofList [0, 1], IndexSet.ofList [0, 1]]⟩) := by
  obtain ⟨hfew, -⟩ :=
    propagate_frame Classification.unevenPair Classification.diamondDependencies .fixedPoint
  obtain ⟨-, hhalf, -⟩ :=
    propagate_frame halfClassification Classification.mutualDependencies .singlePass
  obtain ⟨-, -, hfits, -⟩ := propagate_frame Classification.diamondClassification
    Classification.diamondDependencies .singlePass
  obtain ⟨report, closed, hrun, -, -, hframe⟩ := hfits rfl rfl
  have hdiamond : (propagate Classification.diamondDependencies .singlePass).run
      Classification.diamondClassification = .ok ⟨.singlePass, 1, true⟩
        ⟨[.localOnly, .shared, .shared, .shared], [IndexSet.ofList [0], IndexSet.ofList [0, 1],
          IndexSet.ofList [0, 1], IndexSet.ofList [0, 1]]⟩ := by rfl
  have hclosed := (EStateM.Result.ok.inj (hrun.symm.trans hdiamond)).2
  exact ⟨⟨by decide, hfew (by decide)⟩, ⟨rfl, by decide, hhalf rfl (by decide)⟩, rfl, rfl, report,
    closed, hrun, hframe, hclosed⟩

end Closing

end MeshPartition
