import MeshPartition.Proofs.Closure.Propagate
import MeshPartition.Proofs.Run.Stages

/-!
# The bound on the passes of a closure is never reached too early

Closing to a fixed point is cut off after one pass more than there are nodes.
`propagate_fixedPoint_settles` shows that this cuts nothing short, whatever the classification and
however the dependencies run, in rings as well: a pass that changes nothing comes in time, so the
report says that the closure has converged, no link is left open, and the warning about a closure
that did not settle is in the log of no run.
-/

namespace MeshPartition

namespace Logged

variable {α : Type} {entry : LogEntry}

/-- Doing something for each entry of a list logs only what it logs for one of them. -/
theorem not_mem_log_forM {f : α → Logged Unit} (hf : ∀ a, entry ∉ (f a).log) (as : List α) :
    entry ∉ (as.forM f).log := by
  induction as with
  | nil => exact List.not_mem_nil
  | cons a as ih => exact not_mem_log_bind (hf a) fun _ _ => ih

end Logged

namespace Mesh

open Logged (not_mem_log_bind)

/-- No run warns of a closure that did not settle. -/
theorem unsettled_not_mem_log (m : Mesh) (partitioner : Partitioner) (config : Config) (k : ℕ) :
    LogEntry.unsettled k ∉ (m.partition partitioner config).log := by
  -- Stages log nothing themselves, and the other warnings are different entries.
  have hlift : ∀ {α : Type} (e : Except Error α),
      LogEntry.unsettled k ∉ (liftM e : Logged α).log := fun _ => List.not_mem_nil
  have hnoteIf : ∀ b n, LogEntry.unsettled k ∉ (Logged.noteIf b (.orphans n)).log :=
    fun b n h => by cases Logged.mem_log_noteIf h
  have hopen : ∀ l, LogEntry.unsettled k ∉ (m.noteOpenLink l).log := fun l =>
    not_mem_log_bind (hlift _) fun _ _ => not_mem_log_bind (hlift _) fun _ _ => by
      simp [Logged.note]
  unfold Mesh.partition
  refine not_mem_log_bind (hlift _) fun _ _ => ?_
  refine not_mem_log_bind (by simp [Logged.note]) fun _ _ => ?_
  refine not_mem_log_bind (hlift _) fun graph _ => ?_
  refine not_mem_log_bind (by simp [Logged.note]) fun _ _ => ?_
  refine not_mem_log_bind (hlift _) fun outcome _ => ?_
  refine not_mem_log_bind (hlift _) fun _ _ => ?_
  refine not_mem_log_bind (by simp [Logged.note]) fun _ _ => ?_
  refine not_mem_log_bind (hlift _) fun dependencies _ => ?_
  refine not_mem_log_bind (by simp [Logged.note]) fun _ _ => ?_
  refine not_mem_log_bind (hlift _) fun classified _ => ?_
  refine not_mem_log_bind (hlift _) fun ⟨report, closed⟩ hpropagate => ?_
  obtain ⟨-, -, -, hfixed⟩ := Classification.propagate_eq_ok hpropagate
  -- The warning is noted only if a closure to a fixed point has not converged.
  have hcondition : (decide (config.closure = .fixedPoint) && !report.converged) = false := by
    by_cases hmode : config.closure = .fixedPoint
    · rw [(hfixed hmode).1]
      simp
    · simp [hmode]
  refine not_mem_log_bind ?_ fun _ _ => ?_
  · show LogEntry.unsettled k ∉ (Logged.noteIf (_ && !report.converged) _).log
    rw [hcondition]
    exact List.not_mem_nil
  refine not_mem_log_bind (by simp [Logged.note]) fun _ _ => ?_
  split
  · refine not_mem_log_bind (hlift _) fun left _ => ?_
    refine not_mem_log_bind (Logged.not_mem_log_forM hopen left) fun _ _ => ?_
    refine not_mem_log_bind (hnoteIf _ _) fun _ _ => ?_
    refine not_mem_log_bind (hlift _) fun context _ => ?_
    refine not_mem_log_bind (hlift _) fun partitions _ => ?_
    exact not_mem_log_bind (by simp [Logged.note]) fun _ _ => List.not_mem_nil
  · refine not_mem_log_bind (hnoteIf _ _) fun _ _ => ?_
    refine not_mem_log_bind (hlift _) fun context _ => ?_
    refine not_mem_log_bind (hlift _) fun partitions _ => ?_
    exact not_mem_log_bind (by simp [Logged.note]) fun _ _ => List.not_mem_nil

end Mesh

namespace Classification

/-- Closing to a fixed point settles within one pass more than there are nodes. What it leaves is
kept by a further pass over the links, and has no open links; and no run warns that its closure did
not settle. -/
theorem propagate_fixedPoint_settles (c : Classification) (deps : DependencyTable)
    (hdeps : deps.size = c.size) (hsets : c.partitions.length = c.size) :
    (∃ report closed, c.propagate deps .fixedPoint = .ok (report, closed) ∧
      report.mode = .fixedPoint ∧ report.converged = true ∧
      1 ≤ report.passes ∧ report.passes ≤ c.size + 1 ∧
      Closure.pass deps.links closed.accesses = .ok closed.accesses ∧
      closed.propagate deps .singlePass = .ok (⟨.singlePass, 1, true⟩, closed) ∧
      closed.unsatisfied deps = .ok []) ∧
    ∀ (m : Mesh) (partitioner : Partitioner) (config : Config) (passes : ℕ),
      LogEntry.unsettled passes ∉ (m.partition partitioner config).log := by
  refine ⟨?_, Mesh.unsettled_not_mem_log⟩
  obtain ⟨s, hs, hconv, hpos, hpasses, hslen, -⟩ :=
    exists_settled (fits_accesses hdeps hsets) hsets
  have hclosed := propagate_fixedPoint_eq hdeps hsets hs
  obtain ⟨-, -, -, hfixed⟩ := propagate_eq_ok hclosed
  obtain ⟨-, hfix⟩ := hfixed rfl
  obtain ⟨hsize, hparts⟩ := length_ofAccesses s.table
  generalize hc : ofAccesses s.table = closed at *
  have hdeps' : deps.size = closed.size := by omega
  have hsets' : closed.partitions.length = closed.size := by omega
  -- Another pass changes nothing.
  have hpass : Closure.pass deps.links closed.accesses = .ok closed.accesses :=
    (Closure.pass_eq_self_iff (fits_accesses hdeps' hsets')).2 hfix
  -- No link is open, since visiting it would add the parts that are missing.
  have hopen : closed.unsatisfied deps = .ok [] := by
    rw [unsatisfied_eq_filter hdeps' hsets', Except.ok.injEq, List.filter_eq_nil_iff]
    intro l hl hsub
    have hpull := (Closure.sweep_eq_self_iff.1 hfix) l hl
    have hle := Closure.partitions_subset_pull (closed.entry l.slave) (closed.entry l.master)
    rw [hpull] at hle
    exact of_decide_eq_true hsub hle
  have hsingle : closed.propagate deps .singlePass = .ok (⟨.singlePass, 1, true⟩, closed) := by
    obtain ⟨t, left, ht, hleft, heq⟩ := propagate_singlePass_eq hdeps' hsets'
    rw [hpass, Except.ok.injEq] at ht
    have hsame : ofAccesses t = closed := by
      rw [← ht, ← hc, accesses_ofAccesses]
    rw [hsame, hopen, Except.ok.injEq] at hleft
    rw [heq, hsame, ← hleft]
    rfl
  exact ⟨_, closed, hclosed, rfl, hconv, hpos, hpasses, hpass, hsingle, hopen⟩

/-- The bound is attained: on the ring of two nodes the first pass moves the parts, the second the
status, and the third finds nothing left to do. -/
theorem propagate_fixedPoint_settles_ring :
    mutualDependencies.size = unevenPair.size ∧ unevenPair.partitions.length = unevenPair.size ∧
      ∃ report closed, unevenPair.propagate mutualDependencies .fixedPoint = .ok (report, closed) ∧
        report.converged = true ∧ report.passes = unevenPair.size + 1 ∧
        closed.unsatisfied mutualDependencies = .ok [] := by
  obtain ⟨⟨report, closed, h, -, hconv, -, -, -, -, hopen⟩, -⟩ :=
    propagate_fixedPoint_settles unevenPair mutualDependencies rfl rfl
  have hrun : unevenPair.propagate mutualDependencies .fixedPoint = .ok (⟨.fixedPoint, 3, true⟩,
      ⟨[.shared, .shared], [IndexSet.ofList [0, 1], IndexSet.ofList [0, 1]]⟩) := by rfl
  have hreport := Except.ok.inj (h.symm.trans hrun)
  rw [Prod.mk.injEq] at hreport
  exact ⟨rfl, rfl, report, closed, h, hconv, by rw [hreport.1]; rfl, hopen⟩

end Classification

end MeshPartition
