import MeshPartition.Proofs.Closure.OpenLinks

/-!
# Closures before a closure to a fixed point

Closing to a fixed point takes in whatever closures have been made before, single passes and
closures to a fixed point in any order: it ends where it would have ended without them, and from
there on no closure of either mode finds anything to do (`Classification.propagate_absorbs`).

All closures over the same dependencies repeat one sweep, so that a series of them is a number of
sweeps (`Classification.exists_propagateEach`). What counts is that a closure to a fixed point does
not stop because it has made as many passes as it may: its end is kept by the sweep, and one start
leads to one such end only (`Closure.eq_of_iterate_fixed`).
-/

namespace MeshPartition

namespace Closure

/-- However often a function is repeated, from one start it comes to one fixed point at most. -/
theorem eq_of_iterate_fixed {α : Type} {f : α → α} {x y z : α} {j k : ℕ} (hy : y = f^[j] x)
    (hz : z = f^[k] x) (hfy : f y = y) (hfz : f z = z) : y = z :=
  calc y = f^[k] y := (Function.iterate_fixed hfy k).symm
    _ = f^[k + j] x := by rw [hy, Function.iterate_add_apply]
    _ = f^[j + k] x := by rw [Nat.add_comm]
    _ = f^[j] z := by rw [hz, Function.iterate_add_apply]
    _ = z := Function.iterate_fixed hfz j

end Closure

namespace Classification

open Closure (sweep)

variable {c : Classification} {deps : DependencyTable}

/-- Closes the partition sets once for each of the modes, each time from where the last closure has
ended. -/
def propagateEach (c : Classification) (deps : DependencyTable) :
    List ClosureMode → Except Error Classification
  | [] => .ok c
  | mode :: modes => do
    let (_, next) ← c.propagate deps mode
    next.propagateEach deps modes

/-- A series of closures succeeds, and it is a number of sweeps. -/
theorem exists_propagateEach (hdeps : deps.size = c.size) (hsets : c.partitions.length = c.size)
    (modes : List ClosureMode) :
    ∃ last, c.propagateEach deps modes = .ok last ∧ last.size = c.size ∧
      last.partitions.length = c.size ∧ ∃ k, last.entry = (sweep deps.links)^[k] c.entry := by
  induction modes generalizing c with
  | nil => exact ⟨c, rfl, rfl, hsets, 0, rfl⟩
  | cons mode modes ih =>
    obtain ⟨report, next, hnext⟩ := exists_propagate hdeps hsets mode
    obtain ⟨hsize, hparts, ⟨j, hj⟩, -⟩ := propagate_eq_ok hnext
    obtain ⟨last, hlast, hlastSize, hlastSets, k, hk⟩ :=
      ih (hdeps.trans hsize.symm) (hparts.trans hsize.symm)
    refine ⟨last, ?_, hlastSize.trans hsize, hlastSets.trans hsize, k + (j + 1), ?_⟩
    · rw [propagateEach, hnext]
      exact hlast
    · rw [hk, hj, ← Function.iterate_add_apply]

/-- Where a sweep changes nothing, a closure in either mode makes one pass, leaves everything as it
is and knows that nothing is left to do. -/
theorem propagate_of_sweep_eq (hdeps : deps.size = c.size) (hsets : c.partitions.length = c.size)
    (hfix : sweep deps.links c.entry = c.entry) (mode : ClosureMode) :
    c.propagate deps mode = .ok (⟨mode, 1, true⟩, c) := by
  have hpass : Closure.pass deps.links c.accesses = .ok c.accesses :=
    (Closure.pass_eq_self_iff (fits_accesses hdeps hsets)).2 hfix
  cases mode with
  | singlePass =>
    obtain ⟨t, left, ht, hleft, heq⟩ := propagate_singlePass_eq hdeps hsets
    rw [hpass, Except.ok.injEq] at ht
    rw [← ht, ofAccesses_accesses hsets] at hleft heq
    -- A link that is open would have changed its master.
    have hclosed := (unsatisfied_eq_nil_iff hdeps hsets).2 (Closure.closed_of_sweep_eq hfix)
    rw [hclosed, Except.ok.injEq] at hleft
    rw [heq, ← hleft]
    rfl
  | fixedPoint =>
    have hsettle : Closure.settle deps.links (c.size + 1) c.accesses =
        .ok ⟨c.accesses, 1, true⟩ := by
      rw [Closure.settle, hpass]
      exact if_pos rfl
    rw [propagate_fixedPoint_eq hdeps hsets hsettle, ofAccesses_accesses hsets]

/-- Whatever closures are made first, in any modes, a closure to a fixed point leaves after them
the classification that it would have left at once. In that classification a closure in either mode
changes nothing, and knows so after one pass. -/
theorem propagate_absorbs (c : Classification) (deps : DependencyTable)
    (hdeps : deps.size = c.size) (hsets : c.partitions.length = c.size)
    (modes : List ClosureMode) :
    ∃ last reportAtOnce report closed, c.propagateEach deps modes = .ok last ∧
      c.propagate deps .fixedPoint = .ok (reportAtOnce, closed) ∧
      last.propagate deps .fixedPoint = .ok (report, closed) ∧
      ∀ mode, closed.propagate deps mode = .ok (⟨mode, 1, true⟩, closed) := by
  obtain ⟨last, hlast, hlastSize, hlastSets, k, hk⟩ := exists_propagateEach hdeps hsets modes
  obtain ⟨reportAtOnce, closed, hclosed⟩ := exists_propagate hdeps hsets .fixedPoint
  obtain ⟨report, closed', hclosed'⟩ := exists_propagate (hdeps.trans hlastSize.symm)
    (hlastSets.trans hlastSize.symm) .fixedPoint
  obtain ⟨hsize, hparts, ⟨i, hi⟩, hfixed⟩ := propagate_eq_ok hclosed
  obtain ⟨hsize', hparts', ⟨j, hj⟩, hfixed'⟩ := propagate_eq_ok hclosed'
  obtain ⟨-, hfix⟩ := hfixed rfl
  obtain ⟨-, hfix'⟩ := hfixed' rfl
  rw [hk, ← Function.iterate_add_apply] at hj
  -- Both closures end where a sweep of the start changes nothing.
  have hsame : closed' = closed := by
    refine eq_of_entry_eq (by omega) (by omega) (by omega) ?_
    exact Closure.eq_of_iterate_fixed hj hi hfix' hfix
  rw [hsame] at hclosed'
  exact ⟨last, reportAtOnce, report, closed, hlast, hclosed, hclosed',
    propagate_of_sweep_eq (hdeps.trans hsize.symm) (hparts.trans hsize.symm) hfix⟩

/-- On the ring of two nodes two single passes have moved the parts and the status already. The
closure to a fixed point that follows takes fewer passes than it would have taken at once, and ends
in the same classification. -/
theorem propagate_absorbs_ring :
    mutualDependencies.size = unevenPair.size ∧ unevenPair.partitions.length = unevenPair.size ∧
      ∃ last reportAtOnce report closed,
        unevenPair.propagateEach mutualDependencies [.singlePass, .singlePass] = .ok last ∧
        unevenPair.propagate mutualDependencies .fixedPoint = .ok (reportAtOnce, closed) ∧
        last.propagate mutualDependencies .fixedPoint = .ok (report, closed) ∧
        reportAtOnce.passes = 3 ∧ report.passes = 1 ∧ last ≠ unevenPair ∧
        ∀ mode, closed.propagate mutualDependencies mode = .ok (⟨mode, 1, true⟩, closed) := by
  obtain ⟨last, reportAtOnce, report, closed, hlast, hclosed, hclosed', hkept⟩ :=
    propagate_absorbs unevenPair mutualDependencies rfl rfl [.singlePass, .singlePass]
  have hrun : unevenPair.propagateEach mutualDependencies [.singlePass, .singlePass] =
      .ok ⟨[.shared, .shared], [IndexSet.ofList [0, 1], IndexSet.ofList [0, 1]]⟩ := by rfl
  have hatOnce : unevenPair.propagate mutualDependencies .fixedPoint = .ok (⟨.fixedPoint, 3, true⟩,
      ⟨[.shared, .shared], [IndexSet.ofList [0, 1], IndexSet.ofList [0, 1]]⟩) := by rfl
  obtain ⟨rfl, rfl⟩ := Prod.mk.inj (Except.ok.inj (hclosed.symm.trans hatOnce))
  have hsame := Except.ok.inj (hlast.symm.trans hrun)
  subst hsame
  obtain ⟨rfl, -⟩ := Prod.mk.inj (Except.ok.inj (hclosed'.symm.trans (hkept .fixedPoint)))
  exact ⟨rfl, rfl, _, _, _, _, hlast, hclosed, hclosed', rfl, rfl, by decide, hkept⟩

end Classification

end MeshPartition
