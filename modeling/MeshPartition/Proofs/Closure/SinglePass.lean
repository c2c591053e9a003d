import MeshPartition.Proofs.Closure.Propagate

/-!
# How far a single pass gets

A single pass never goes beyond a closure to a fixed point, which begins with the same pass. It gets
as far if every slave is visited when nothing changes it any more, neither its own link nor a later
one (`Closure.SlavesSettled`): what its links then do to their masters, a second visit would do
again, and growing in between does not make the masters ask for more (`pull_eq_self_of_pull_le`).

The links of a dependency table are visited by ascending slave, so slaves are settled if each of
them comes before those of its masters that are slaves in turn (`DependencyTable.SlavesFirst`).
`propagate_singlePass_within_fixedPoint` compares the two modes on classifications.
-/

namespace MeshPartition

namespace Closure

variable {links : List Link} {n : ℕ}

/-- A sweep leaves a node alone that is the master of no link. -/
theorem sweep_of_ne (h : ∀ l ∈ links, n ≠ l.master) (σ : ℕ → Access) : sweep links σ n = σ n := by
  induction links generalizing σ with
  | nil => rfl
  | cons l links ih =>
    rw [sweep_cons, ih fun l' hl' => h l' (List.mem_cons_of_mem l hl')]
    exact step_of_ne (h l List.mem_cons_self)

/-- A master that a slave has visited and that has only grown since is left alone when the same
slave visits it again. -/
theorem pull_eq_self_of_pull_le {s m m' : Access} (h : pull s m ≤ m') : pull s m' = m' := by
  have hsub : s.partitions ⊆ m'.partitions :=
    IndexSet.subset_trans (partitions_subset_pull s m) (Access.partitions_subset h)
  by_cases hs : s.status = .localOnly
  · exact pull_eq_self hs hsub
  · -- The first visit has made the master shared, so the second has nothing to add.
    have hshared : m'.status = .shared :=
      Access.shared_of_le h (by rw [pull_eq_union (Or.inl hs)])
    refine le_antisymm ?_ (le_pull s m')
    rw [pull_eq_union (Or.inl hs)]
    exact Or.inr ⟨hshared, IndexSet.union_subset (IndexSet.subset_refl _) hsub⟩

/-- No slave is the master of its own link or of a later one, so it is settled when it is
visited. -/
def SlavesSettled : List Link → Prop
  | [] => True
  | l :: links => (∀ l' ∈ l :: links, l.slave ≠ l'.master) ∧ SlavesSettled links

/-- After a sweep in which slaves are settled, no link changes its master. -/
theorem SlavesSettled.pull_sweep (h : SlavesSettled links) (σ : ℕ → Access) :
    ∀ l ∈ links,
      pull (sweep links σ l.slave) (sweep links σ l.master) = sweep links σ l.master := by
  induction links generalizing σ with
  | nil => exact fun l hl => absurd hl List.not_mem_nil
  | cons l links ih =>
    obtain ⟨hfirst, hrest⟩ := h
    intro l' hl'
    rw [sweep_cons]
    rcases List.mem_cons.1 hl' with rfl | hl'
    · -- The slave is as it was when it was visited, and the master has at least what it got then.
      have hslave : sweep links (step σ l') l'.slave = σ l'.slave := by
        rw [sweep_of_ne (fun l hl => hfirst l (List.mem_cons_of_mem l' hl)),
          step_of_ne (hfirst l' List.mem_cons_self)]
      rw [hslave]
      apply pull_eq_self_of_pull_le
      rw [← step_master σ l']
      exact le_sweep links _ _
    · exact ih hrest (step σ l) l' hl'

/-- If slaves are settled when they are visited, a second sweep changes nothing. -/
theorem SlavesSettled.sweep_sweep (h : SlavesSettled links) (σ : ℕ → Access) :
    sweep links (sweep links σ) = sweep links σ :=
  sweep_eq_self_iff.2 (h.pull_sweep σ)

/-- Slaves are settled if links are visited by ascending slave and each slave comes before those of
its masters that are slaves in turn. -/
theorem slavesSettled_of_sorted (hsorted : links.Pairwise fun l l' => l.slave ≤ l'.slave)
    (hfirst : ∀ l ∈ links, ∀ l' ∈ links, l'.slave = l.master → l.slave < l.master) :
    SlavesSettled links := by
  induction links with
  | nil => trivial
  | cons l links ih =>
    rw [List.pairwise_cons] at hsorted
    refine ⟨fun l' hl' heq => ?_, ih hsorted.2 fun a ha b hb => ?_⟩
    · -- A link to the slave of `l` would have to come before `l`.
      have hlt : l'.slave < l'.master := hfirst l' hl' l List.mem_cons_self heq
      rcases List.mem_cons.1 hl' with rfl | hl'
      · omega
      · have hle := hsorted.1 l' hl'
        omega
    · exact hfirst a (List.mem_cons_of_mem l ha) b (List.mem_cons_of_mem l hb)

end Closure

namespace DependencyTable

/-- Each slave comes before those of its masters that are slaves in turn. -/
def SlavesFirst (t : DependencyTable) : Prop :=
  ∀ s, ∀ m ∈ t.mastersOf s, t.mastersOf m ≠ [] → s < m

/-- Links are listed by ascending slave. -/
theorem pairwise_links (t : DependencyTable) :
    t.links.Pairwise fun l l' => l.slave ≤ l'.slave := by
  have hpositions : t.entries.zipIdx.Pairwise fun x y => x.2 < y.2 := by
    rw [← List.pairwise_map, List.zipIdx_map_snd]
    exact List.pairwise_lt_range'
  have hconstrained : t.constrained.Pairwise fun x y => x.1 < y.1 := by
    rw [constrained, List.pairwise_filterMap]
    refine hpositions.imp fun {x y} hxy a ha b hb => ?_
    obtain ⟨_, -, rfl⟩ := Option.map_eq_some_iff.1 ha
    obtain ⟨_, -, rfl⟩ := Option.map_eq_some_iff.1 hb
    exact hxy
  rw [links, List.pairwise_flatMap]
  refine ⟨fun x _ => ?_, hconstrained.imp fun {x y} hxy l hl l' hl' => ?_⟩
  · -- The links of one slave.
    rw [List.pairwise_map]
    exact List.pairwise_of_forall fun _ _ => Nat.le_refl _
  · obtain ⟨_, -, rfl⟩ := List.mem_map.1 hl
    obtain ⟨_, -, rfl⟩ := List.mem_map.1 hl'
    exact Nat.le_of_lt hxy

/-- The links of a table in which slaves come first are visited with settled slaves. -/
theorem SlavesFirst.slavesSettled {t : DependencyTable} (h : t.SlavesFirst) :
    Closure.SlavesSettled t.links := by
  refine Closure.slavesSettled_of_sorted t.pairwise_links fun l hl l' hl' heq => ?_
  refine h l.slave l.master (mem_links.1 hl) ?_
  rw [← heq]
  exact List.ne_nil_of_mem (mem_links.1 hl')

end DependencyTable

namespace Classification

variable {c : Classification} {deps : DependencyTable}

/-- A single pass gives no node a part that a closure to a fixed point does not give it, and makes
no other nodes shared. If each slave comes before those of its masters that are slaves in turn, it
leaves the same classification and knows that nothing is left to do. -/
theorem propagate_singlePass_within_fixedPoint (c : Classification) (deps : DependencyTable)
    (hdeps : deps.size = c.size) (hsets : c.partitions.length = c.size) :
    ∃ single once fixed closed, c.propagate deps .singlePass = .ok (single, once) ∧
      c.propagate deps .fixedPoint = .ok (fixed, closed) ∧
      (∀ n, (once.entry n).partitions ⊆ (closed.entry n).partitions) ∧
      (∀ n, (once.entry n).status = .shared → (closed.entry n).status = .shared) ∧
      (deps.SlavesFirst → once = closed ∧ single.converged = true) := by
  obtain ⟨single, once, honce, honceSize, honceSets, honceEntry, hconverged⟩ :=
    exists_singlePass hdeps hsets
  obtain ⟨s, hs, -⟩ := exists_settled (fits_accesses hdeps hsets) hsets
  have hclosed := propagate_fixedPoint_eq hdeps hsets hs
  obtain ⟨hsize, hparts, ⟨k, hk⟩, -⟩ := propagate_eq_ok hclosed
  generalize ofAccesses s.table = closed at *
  -- The closure goes on from what the single pass has made.
  have hmore : closed.entry = (Closure.sweep deps.links)^[k] once.entry := by
    rw [hk, Function.iterate_succ_apply, honceEntry]
  have hle : once.entry ≤ closed.entry := by
    rw [hmore]
    exact Closure.le_iterate_sweep deps.links k once.entry
  refine ⟨single, once, _, closed, honce, hclosed, fun n => Access.partitions_subset (hle n),
    fun n => Access.shared_of_le (hle n), fun hfirst => ?_⟩
  -- Slaves are settled when they are visited, so that what the pass has made stays.
  have hfix : Closure.sweep deps.links once.entry = once.entry := by
    rw [honceEntry]
    exact hfirst.slavesSettled.sweep_sweep c.entry
  constructor
  · refine eq_of_entry_eq (honceSize.trans hsize.symm) (honceSets.trans honceSize.symm)
      (hparts.trans hsize.symm) ?_
    rw [hmore]
    exact (Function.iterate_fixed hfix k).symm
  · rw [hconverged]
    exact (unsatisfied_eq_nil_iff (hdeps.trans honceSize.symm) (honceSets.trans honceSize.symm)).2
      (Closure.closed_of_sweep_eq hfix)

/-- A slave with two masters, which are slaves of one and the same node. -/
def diamondDependencies : DependencyTable where
  entries := [some ⟨.explicitMasters, [2, 1]⟩, some ⟨.rigidArm, [3]⟩, some ⟨.rigidArm, [3]⟩, none]
  master_lt := by simp

/-- Four nodes, of which the first slave is local to part `0` and the common master to part `1`. -/
def diamondClassification : Classification :=
  ⟨[.localOnly, .localOnly, .shared, .localOnly],
    [IndexSet.ofList [0], IndexSet.ofList [1], IndexSet.ofList [0, 1], IndexSet.ofList [1]]⟩

/-- In the diamond one pass takes part `0` from the first slave to the common master. -/
theorem propagate_singlePass_within_fixedPoint_diamond :
    diamondDependencies.size = diamondClassification.size ∧
      diamondClassification.partitions.length = diamondClassification.size ∧
      diamondDependencies.SlavesFirst ∧
      ∃ single fixed closed,
        diamondClassification.propagate diamondDependencies .singlePass = .ok (single, closed) ∧
        diamondClassification.propagate diamondDependencies .fixedPoint = .ok (fixed, closed) ∧
        single.converged = true ∧
        closed = ⟨[.localOnly, .shared, .shared, .shared], [IndexSet.ofList [0],
          IndexSet.ofList [0, 1], IndexSet.ofList [0, 1], IndexSet.ofList [0, 1]]⟩ := by
  have hbelow : ∀ s < 4, ∀ m ∈ diamondDependencies.mastersOf s,
      diamondDependencies.mastersOf m ≠ [] → s < m := by decide
  have hfirst : diamondDependencies.SlavesFirst := fun s m hm =>
    hbelow s (diamondDependencies.fits_links ⟨s, m⟩ (DependencyTable.mem_links.2 hm)).1 m hm
  obtain ⟨single, once, fixed, closed, honce, hclosed, -, -, hsame⟩ :=
    propagate_singlePass_within_fixedPoint diamondClassification diamondDependencies rfl rfl
  obtain ⟨rfl, hconverged⟩ := hsame hfirst
  have hrun : diamondClassification.propagate diamondDependencies .singlePass =
      .ok (⟨.singlePass, 1, true⟩, ⟨[.localOnly, .shared, .shared, .shared], [IndexSet.ofList [0],
        IndexSet.ofList [0, 1], IndexSet.ofList [0, 1], IndexSet.ofList [0, 1]]⟩) := by rfl
  have honce' := Except.ok.inj (honce.symm.trans hrun)
  rw [Prod.mk.injEq] at honce'
  exact ⟨rfl, rfl, hfirst, single, fixed, once, honce, hclosed, hconverged, honce'.2⟩

/-- Without that order statuses may differ even if the single pass leaves no link open: on the ring
of two nodes the closure to a fixed point makes both shared. -/
example : unevenPair.propagate mutualDependencies .singlePass = .ok (⟨.singlePass, 1, true⟩,
    ⟨[.shared, .localOnly], [IndexSet.ofList [0, 1], IndexSet.ofList [0, 1]]⟩) := by
  rfl

end Classification

end MeshPartition
