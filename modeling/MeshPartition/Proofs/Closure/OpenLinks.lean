import MeshPartition.Proofs.Closure.SinglePass

/-!
# A single pass knows how far it got

After a single pass only the direct links are looked at: a link is open if the slave has a part that
the master lacks. If no link is open, further sweeps move no parts, although they may still make
nodes shared (`Closure.partitions_iterate_sweep`). A closure to a fixed point leaves no link open,
so that looking at the links decides whether it would have reached any node from more parts:
`Classification.closed_iff_of_propagate`.
-/

namespace MeshPartition

namespace Closure

variable {links : List Link} {σ τ : ℕ → Access}

/-- Whether links are open depends on the sets alone. -/
theorem Closed.congr (h : Closed links σ) (hsets : ∀ n, (τ n).partitions = (σ n).partitions) :
    Closed links τ := by
  intro l hl
  rw [hsets, hsets]
  exact h l hl

/-- A master that has all parts of the slave keeps its set when it is visited. -/
theorem partitions_pull_of_subset {s m : Access} (h : s.partitions ⊆ m.partitions) :
    (pull s m).partitions = m.partitions := by
  refine IndexSet.subset_antisymm (fun x hx => ?_) (Access.partitions_subset (le_pull s m))
  rcases mem_pull hx with hx | hx
  · exact hx
  · exact h x hx

/-- If no link is open, repeated sweeps leave all sets as they are. -/
theorem partitions_iterate_sweep (h : Closed links σ) (k : ℕ) (n : ℕ) :
    ((sweep links)^[k] σ n).partitions = (σ n).partitions := by
  -- The sets after any visits are the first ones, so that no link is open before the next visit.
  refine iterate_sweep_induction (P := fun τ => ∀ n, (τ n).partitions = (σ n).partitions)
    (fun τ hτ l hl n => ?_) k (fun _ => rfl) n
  by_cases hn : n = l.master
  · subst hn
    rw [step_master, partitions_pull_of_subset (h.congr hτ l hl), hτ]
  · rw [step_of_ne hn, hτ]

end Closure

namespace Classification

open Closure (Closed)

variable {c c' : Classification} {deps : DependencyTable}

/-- Classifications of one size have the same sets if they have the same set at every node. -/
theorem partitions_eq_iff (hsize : c'.size = c.size) (hsets : c.partitions.length = c.size)
    (hsets' : c'.partitions.length = c'.size) : c'.partitions = c.partitions ↔
      ∀ n, (c'.entry n).partitions = (c.entry n).partitions := by
  constructor
  · intro h n
    rw [← getD_partitions hsets, ← getD_partitions hsets', h]
  · intro h
    apply List.ext_getElem (by omega)
    intro n hn hn'
    have hnode := h n
    rw [← getD_partitions hsets, ← getD_partitions hsets', List.getElem?_eq_getElem hn,
      List.getElem?_eq_getElem hn'] at hnode
    exact hnode

/-- A single pass reports convergence exactly if it leaves no link open. -/
theorem converged_iff_of_propagate {single : ClosureReport} {once : Classification}
    (honce : c.propagate deps .singlePass = .ok (single, once)) :
    single.converged = true ↔ Closed deps.links once.entry := by
  obtain ⟨hdeps, hsets⟩ := sizes_of_propagate honce
  obtain ⟨_, _, heq, hsize, hparts, -, hconverged⟩ := exists_singlePass hdeps hsets
  obtain ⟨rfl, rfl⟩ := Prod.mk.inj (Except.ok.inj (honce.symm.trans heq))
  rw [hconverged]
  exact unsatisfied_eq_nil_iff (hdeps.trans hsize.symm) (hparts.trans hsize.symm)

/-- A single pass leaves no link open exactly if it leaves the same sets as a closure to a fixed
point. -/
theorem closed_iff_of_propagate {single fixed : ClosureReport} {once closed : Classification}
    (honce : c.propagate deps .singlePass = .ok (single, once))
    (hclosed : c.propagate deps .fixedPoint = .ok (fixed, closed)) :
    Closed deps.links once.entry ↔ once.partitions = closed.partitions := by
  obtain ⟨hdeps, hsets⟩ := sizes_of_propagate honce
  obtain ⟨hsize, hparts, ⟨k, hk⟩, hfixed⟩ := propagate_eq_ok hclosed
  obtain ⟨_, _, heq, honceSize, honceSets, hentry, -⟩ := exists_singlePass hdeps hsets
  obtain ⟨rfl, rfl⟩ := Prod.mk.inj (Except.ok.inj (honce.symm.trans heq))
  -- The closure goes on from what the single pass has made.
  have hmore : closed.entry = (Closure.sweep deps.links)^[k] once.entry := by
    rw [hk, Function.iterate_succ_apply, hentry]
  rw [partitions_eq_iff (honceSize.trans hsize.symm) (hparts.trans hsize.symm)
    (honceSets.trans honceSize.symm)]
  constructor
  · intro hopen n
    rw [hmore, Closure.partitions_iterate_sweep hopen]
  · exact (Closure.closed_of_sweep_eq (hfixed rfl).2).congr

end Classification

end MeshPartition
