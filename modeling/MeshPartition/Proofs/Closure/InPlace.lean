import MeshPartition.Closure.InPlace
import MeshPartition.Proofs.Closure.Propagate
import MeshPartition.Proofs.Counting

/-!
# Closing in place comes to the same

A closure that writes into the tables of a classification comes to the same as the one that answers
with a new classification (`Closing.run_propagate`): the same report with the new classification in
place of the old one, or the same error with nothing written.

Only the sizes decide whether it fails. Once they fit, the tables are the two halves of one table of
accesses, and each visit is one of `Closure.visit` (`Closing.exists_visit`). What a visit tells, from
the size of a set and from a status, is whether the access of the master is another one. For a pass
this is not immediate, since a later visit could undo a change and the pass would still have noted
it; but accesses only grow (`Closing.exists_pass`).
-/

namespace MeshPartition

namespace IndexSet

variable {s t : IndexSet}

/-- A set is no larger than one that it contains only if it is the same. -/
theorem eq_of_subset_of_size_eq (h : s ⊆ t) (hsize : t.size = s.size) : t = s := by
  have hperm : s.toList.Perm t.toList :=
    (s.nodup_toList.subperm h).perm_of_length_le (Nat.le_of_eq hsize)
  exact ext fun x => hperm.mem_iff.symm

/-- Adding members makes a set larger unless they are there already. -/
theorem size_union_eq_iff : (s ∪ t).size = s.size ↔ s ∪ t = s :=
  ⟨eq_of_subset_of_size_eq (subset_union_left s t), congrArg size⟩

end IndexSet

namespace Closing

open Classification (ofAccesses)
open Closure (entry pull Fits)

variable {t : List Access} {l : Link} {links : List Link} {n : ℕ}

/-! ## Reading and writing -/

/-- Looking up what one of the tables says of a node. -/
theorem run_read {α : Type} {table : Classification → List α} (column : Access → α)
    (htable : table (ofAccesses t) = t.map column) (h : n < t.length) :
    (read table n).run (ofAccesses t) = .ok (column (entry t n)) (ofAccesses t) := by
  have hentry : entryAt (table (ofAccesses t)) n = .ok (column (entry t n)) := by
    rw [entryAt_eq_ok_iff, htable, List.getElem?_map, Closure.getElem?_eq_entry h]
    rfl
  rw [read, EStateM.run_bind, EStateM.run_get]
  dsimp only
  rw [hentry]
  rfl

/-- Writing what is there already changes nothing. -/
theorem set_entry_self (h : n < t.length) : t.set n (entry t n) = t := by
  apply Closure.eq_of_entry_eq List.length_set
  rw [Closure.entry_set h, Function.update_eq_self]

/-- Writing an access that agrees with the old one in a column leaves the column as it was. -/
theorem map_set_of_eq {α : Type} (column : Access → α) (a : Access) (h : n < t.length)
    (ha : column a = column (entry t n)) : (t.set n a).map column = t.map column := by
  rw [List.map_set, ha, ← List.map_set, set_entry_self h]

/-- Writing into the table of the sets. -/
theorem set_partitions_ofAccesses (h : n < t.length) (parts : IndexSet) :
    { ofAccesses t with partitions := (ofAccesses t).partitions.set n parts } =
      ofAccesses (t.set n ⟨(entry t n).status, parts⟩) := by
  have hstatus := map_set_of_eq Access.status ⟨(entry t n).status, parts⟩ h rfl
  unfold ofAccesses
  rw [hstatus, List.map_set]

/-- Writing into the table of the statuses. -/
theorem set_status_ofAccesses (h : n < t.length) (status : NodeStatus) :
    { ofAccesses t with status := (ofAccesses t).status.set n status } =
      ofAccesses (t.set n ⟨status, (entry t n).partitions⟩) := by
  have hparts := map_set_of_eq Access.partitions ⟨status, (entry t n).partitions⟩ h rfl
  unfold ofAccesses
  rw [hparts, List.map_set]

/-- Adding parts to the set of a node. -/
theorem run_addParts (h : n < t.length) (parts : IndexSet) :
    (addParts n parts).run (ofAccesses t) =
      .ok (decide ((entry t n).partitions ∪ parts ≠ (entry t n).partitions))
        (ofAccesses (t.set n ⟨(entry t n).status, (entry t n).partitions ∪ parts⟩)) := by
  rw [addParts, EStateM.run_bind, run_read Access.partitions rfl h]
  dsimp only
  rw [EStateM.run_bind, EStateM.run_modify]
  dsimp only
  rw [EStateM.run_pure, set_partitions_ofAccesses h]
  simp only [ne_eq, IndexSet.size_union_eq_iff]

/-- Making a node shared. -/
theorem run_share (h : n < t.length) :
    (share n).run (ofAccesses t) = .ok (decide ((entry t n).status ≠ .shared))
      (ofAccesses (t.set n ⟨.shared, (entry t n).partitions⟩)) := by
  rw [share, EStateM.run_bind, run_read Access.status rfl h]
  dsimp only
  by_cases hshared : (entry t n).status = .shared
  · have hself : t.set n ⟨.shared, (entry t n).partitions⟩ = t := by
      rw [← hshared]
      exact set_entry_self h
    rw [if_pos hshared, EStateM.run_pure, hself, decide_eq_false (not_not_intro hshared)]
  · rw [if_neg hshared, EStateM.run_bind, EStateM.run_modify]
    dsimp only
    rw [EStateM.run_pure, set_status_ofAccesses h, decide_eq_true hshared]

/-! ## Visits, passes and closures -/

/-- Whether a link asks for nothing is the condition of `Closure.pull`. -/
theorem run_asksForNothing (hs : l.slave < t.length) (hm : l.master < t.length) :
    (asksForNothing l).run (ofAccesses t) =
      .ok (decide ((entry t l.slave).status = .localOnly ∧
        (entry t l.slave).partitions ⊆ (entry t l.master).partitions)) (ofAccesses t) := by
  rw [asksForNothing, EStateM.run_bind, run_read Access.status rfl hs]
  dsimp only
  by_cases hlocal : (entry t l.slave).status = .localOnly
  · rw [if_pos hlocal, EStateM.run_bind, run_read Access.partitions rfl hs]
    dsimp only
    rw [EStateM.run_bind, run_read Access.partitions rfl hm]
    simp [hlocal]
  · rw [if_neg hlocal]
    simp [hlocal]

/-- A master that is asked for something becomes another one by its set or by its status. -/
theorem shared_union_ne_iff (a : Access) (parts : IndexSet) :
    (⟨.shared, a.partitions ∪ parts⟩ : Access) ≠ a ↔
      a.partitions ∪ parts ≠ a.partitions ∨ a.status ≠ .shared := by
  obtain ⟨status, own⟩ := a
  rw [ne_eq, Access.mk.injEq, not_and_or, or_comm, eq_comm (b := status)]

/-- Visiting a link between nodes of the table writes what the visit makes of the master, and tells
whether that is something else. -/
theorem run_visit_eq (hs : l.slave < t.length) (hm : l.master < t.length) :
    (visit l).run (ofAccesses t) =
      .ok (decide (pull (entry t l.slave) (entry t l.master) ≠ entry t l.master))
        (ofAccesses (t.set l.master (pull (entry t l.slave) (entry t l.master)))) := by
  rw [visit, EStateM.run_bind, run_asksForNothing hs hm]
  dsimp only
  rcases Closure.pull_cases (entry t l.slave) (entry t l.master) with hnothing | hasks
  · rw [Closure.pull_eq_self hnothing.1 hnothing.2, set_entry_self hm, decide_eq_true hnothing,
      if_pos rfl, EStateM.run_pure]
    simp
  · rw [Closure.pull_eq_union hasks]
    rw [← not_and_or] at hasks
    generalize hmaster : entry t l.master = master at *
    generalize hparts : (entry t l.slave).partitions = parts at *
    -- The parts are added to the set first, and then the status is written.
    have hgrown := run_addParts hm parts
    rw [hmaster] at hgrown
    have hturned := run_share (t := t.set l.master ⟨master.status, master.partitions ∪ parts⟩)
      (hm.trans_eq List.length_set.symm)
    rw [Closure.entry_set hm, Function.update_self, List.set_set] at hturned
    rw [decide_eq_false hasks, if_neg nofun, EStateM.run_bind,
      run_read Access.partitions rfl hs]
    dsimp only
    rw [hparts, EStateM.run_bind, hgrown]
    dsimp only
    rw [EStateM.run_bind, hturned]
    dsimp only
    rw [EStateM.run_pure, ← Bool.decide_or]
    simp only [shared_union_ne_iff]

/-- What a computation on the table `t` does that leaves the table `u`: accesses have only grown,
and the answer is whether any of them has. -/
structure Grows (x : Closing Bool) (t u : List Access) : Prop where
  run_eq : x.run (ofAccesses t) = .ok (decide (u ≠ t)) (ofAccesses u)
  length_eq : u.length = t.length
  entry_le : entry t ≤ entry u

/-- Visiting a link between nodes of the table is a visit. -/
theorem exists_visit (hs : l.slave < t.length) (hm : l.master < t.length) :
    ∃ u, Closure.visit t l = .ok u ∧ Grows (visit l) t u := by
  obtain ⟨u, hu, hlength, hentry⟩ := Closure.visit_eq_ok hs hm
  have hset : u = t.set l.master (pull (entry t l.slave) (entry t l.master)) := by
    apply Closure.eq_of_entry_eq (hlength.trans List.length_set.symm)
    rw [hentry, Closure.entry_set hm]
    rfl
  have hchanged : pull (entry t l.slave) (entry t l.master) ≠ entry t l.master ↔ u ≠ t := by
    rw [hset, not_iff_not]
    constructor
    · intro hsame
      rw [hsame, set_entry_self hm]
    · intro hsame
      rw [← Function.update_self l.master (pull (entry t l.slave) (entry t l.master)) (entry t),
        ← Closure.entry_set hm, hsame]
  refine ⟨u, hu, ?_, hlength, hentry ▸ Closure.le_step _ _⟩
  rw [run_visit_eq hs hm, hset, ← hset]
  simp only [hchanged]

/-- A pass over links between nodes of the table is a pass. -/
theorem exists_pass (h : Fits links t.length) :
    ∃ u, Closure.pass links t = .ok u ∧ Grows (pass links) t u := by
  induction links generalizing t with
  | nil =>
    refine ⟨t, rfl, ?_, rfl, le_refl _⟩
    rw [pass, EStateM.run_pure, decide_eq_false (not_not_intro rfl)]
  | cons l links ih =>
    obtain ⟨hs, hm⟩ := h l List.mem_cons_self
    obtain ⟨u, hu, hvisit⟩ := exists_visit hs hm
    have hfit : Fits links u.length := fun l' hl' => by
      rw [hvisit.length_eq]
      exact h l' (List.mem_cons_of_mem l hl')
    obtain ⟨v, hv, hpass⟩ := ih hfit
    -- What has grown does not become again what it was.
    have hchanged : v ≠ t ↔ u ≠ t ∨ v ≠ u := by
      rw [← not_and_or, not_iff_not]
      constructor
      · rintro rfl
        have hsame : u = v := Closure.eq_of_entry_eq hvisit.length_eq
          (le_antisymm hpass.entry_le hvisit.entry_le)
        exact ⟨hsame, hsame.symm⟩
      · rintro ⟨rfl, rfl⟩
        rfl
    refine ⟨v, ?_, ?_, hpass.length_eq.trans hvisit.length_eq,
      hvisit.entry_le.trans hpass.entry_le⟩
    · rw [Closure.pass, List.foldlM_cons, hu]
      exact hv
    · rw [pass, EStateM.run_bind, hvisit.run_eq]
      dsimp only
      rw [EStateM.run_bind, hpass.run_eq]
      dsimp only
      rw [EStateM.run_pure, ← Bool.decide_or]
      simp only [hchanged]

/-- Repeated passes are repeated passes. -/
theorem exists_settle (budget : ℕ) (h : Fits links t.length) :
    ∃ s, Closure.settle links budget t = .ok s ∧
      (settle links budget).run (ofAccesses t) =
        .ok (s.passes, s.converged) (ofAccesses s.table) := by
  induction budget generalizing t with
  | zero => exact ⟨_, rfl, rfl⟩
  | succ budget ih =>
    obtain ⟨u, hu, hpass⟩ := exists_pass h
    rw [settle, EStateM.run_bind, hpass.run_eq, Closure.settle, hu]
    dsimp only
    by_cases hsame : u = t
    · subst hsame
      refine ⟨⟨u, 1, true⟩, if_pos rfl, ?_⟩
      rw [decide_eq_false (not_not_intro rfl)]
      rfl
    · obtain ⟨s, hs, hrun⟩ := ih (hpass.length_eq ▸ h)
      refine ⟨{ s with passes := s.passes + 1 }, ?_, ?_⟩
      · show (if u = t then _ else _) = _
        rw [if_neg hsame, hs]
        rfl
      · rw [decide_eq_true hsame, if_pos rfl, EStateM.run_bind, hrun]
        rfl

/-- What a closure in place comes to, given what the closure comes to that answers with a new
classification. -/
def resultOf (c : Classification) :
    Except Error (ClosureReport × Classification) → EStateM.Result Error Classification ClosureReport
  | .ok (report, closed) => .ok report closed
  | .error e => .error e c

/-- The sizes are compared alike, and nothing is written. -/
theorem run_checkSizes (c : Classification) (deps : DependencyTable) :
    (checkSizes deps).run c =
      match c.checkSizes deps with
      | .ok _ => .ok () c
      | .error e => .error e c := by
  unfold checkSizes Classification.checkSizes Classification.size
  rw [EStateM.run_bind, EStateM.run_get]
  dsimp only
  by_cases hdeps : deps.size ≠ c.status.length
  · rw [if_pos hdeps, if_pos hdeps]
    rfl
  · rw [if_neg hdeps, if_neg hdeps]
    by_cases hsets : c.partitions.length ≠ c.status.length
    · rw [if_pos hsets, if_pos hsets]
      rfl
    · rw [if_neg hsets, if_neg hsets]
      rfl

/-- A closure in place comes to the same as the one that answers with a new classification: to the
same report with the new classification written, or to the same error with nothing written. -/
theorem run_propagate (c : Classification) (deps : DependencyTable) (mode : ClosureMode) :
    (propagate deps mode).run c = resultOf c (c.propagate deps mode) := by
  unfold propagate
  rw [EStateM.run_bind, run_checkSizes]
  cases hcheck : c.checkSizes deps with
  | error e =>
    rw [Classification.propagate_of_checkSizes hcheck]
    rfl
  | ok =>
    obtain ⟨hdeps, hsets⟩ := Classification.checkSizes_eq_ok_iff.1 hcheck
    have hfit := Classification.fits_accesses hdeps hsets
    have htable := Classification.ofAccesses_accesses hsets
    dsimp only
    cases mode with
    | singlePass =>
      obtain ⟨u, hu, hpass⟩ := exists_pass hfit
      obtain ⟨v, left, hv, hleft, hpropagate⟩ := Classification.propagate_singlePass_eq hdeps hsets
      rw [hu, Except.ok.injEq] at hv
      subst hv
      have hrun := hpass.run_eq
      rw [htable] at hrun
      obtain ⟨-, -, hopen⟩ := bind_eq_ok_iff.1 hleft
      rw [hpropagate]
      dsimp only
      rw [EStateM.run_bind, hrun]
      dsimp only
      rw [EStateM.run_bind, EStateM.run_get]
      dsimp only
      rw [hopen]
      rfl
    | fixedPoint =>
      obtain ⟨s, hs, hrun⟩ := exists_settle (c.size + 1) hfit
      rw [htable] at hrun
      rw [Classification.propagate_fixedPoint_eq hdeps hsets hs]
      dsimp only
      rw [EStateM.run_bind, EStateM.run_get]
      dsimp only
      rw [EStateM.run_bind, show c.status.length = c.size from rfl, hrun]
      rfl

end Closing

end MeshPartition
