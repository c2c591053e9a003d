import MeshPartition.Proofs.Closure.Table
import MeshPartition.Proofs.Relabelling

/-!
# The closure under other names of the parts

Closing asks of the sets of parts only whether one includes another, and joins them. Both go along
when the parts are renamed, so that each step of the closure does (`visit_relabel`). Since no two
tables are renamed to the same, repeated passes stop after equally many (`settle_relabel`). What
closing leaves of the renamed classification is the renamed closure (`propagate_relabel`), for every
classification and in either mode.
-/

namespace MeshPartition

variable {π : Equiv.Perm ℕ}

/-- No two accesses are renamed to the same. -/
theorem Access.relabel_injective : Function.Injective (relabel π) := by
  intro a b h
  obtain ⟨hstatus, hparts⟩ := Access.mk.inj h
  calc a = ⟨a.status, a.partitions⟩ := rfl
    _ = ⟨b.status, b.partitions⟩ := by rw [hstatus, IndexSet.relabel_injective hparts]
    _ = b := rfl

namespace Closure

/-- What a master becomes, under other names. -/
theorem pull_relabel (s m : Access) :
    pull (s.relabel π) (m.relabel π) = (pull s m).relabel π := by
  simp only [pull, Access.relabel, IndexSet.relabel_subset_iff, ← IndexSet.relabel_union]
  split_ifs <;> rfl

/-- A visit, under other names. -/
theorem visit_relabel (t : List Access) (l : Link) :
    visit (t.map (Access.relabel π)) l = List.map (Access.relabel π) <$> visit t l := by
  simp only [visit, entryAt_map, bind_map_left, map_bind, map_pure, pull_relabel, List.map_set]

/-- A pass, under other names. -/
theorem pass_relabel (links : List Link) (t : List Access) :
    pass links (t.map (Access.relabel π)) = List.map (Access.relabel π) <$> pass links t := by
  rw [pass, pass]
  induction links generalizing t with
  | nil => rfl
  | cons l links ih =>
    simp only [List.foldlM_cons, visit_relabel, bind_map_left, map_bind, ih]

/-- Where repeated passes ended, under other names. -/
def Settled.relabel (π : Equiv.Perm ℕ) (s : Settled) : Settled :=
  ⟨s.table.map (Access.relabel π), s.passes, s.converged⟩

/-- Repeated passes, under other names. A pass changes nothing under other names exactly if it
changes nothing. -/
theorem settle_relabel (links : List Link) (budget : ℕ) (t : List Access) :
    settle links budget (t.map (Access.relabel π)) =
      Settled.relabel π <$> settle links budget t := by
  induction budget generalizing t with
  | zero => rfl
  | succ budget ih =>
    rw [settle, settle, pass_relabel, bind_map_left, map_bind]
    refine bind_congr fun next => ?_
    by_cases hsame : next = t
    · subst hsame
      rw [if_pos rfl, if_pos rfl]
      rfl
    · have hsame' : next.map (Access.relabel π) ≠ t.map (Access.relabel π) := fun h =>
        hsame (List.map_injective_iff.2 Access.relabel_injective h)
      rw [if_neg hsame, if_neg hsame', ih, bind_map_left, map_bind]
      rfl

/-- The same links are open. -/
theorem openLinks_relabel (sets : List IndexSet) (links : List Link) :
    openLinks (sets.map (IndexSet.relabel π)) links = openLinks sets links := by
  induction links with
  | nil => rfl
  | cons l links ih =>
    simp only [openLinks, entryAt_map, bind_map_left, ih, IndexSet.relabel_subset_iff]

end Closure

namespace Classification

/-- The table of a renamed classification. -/
theorem accesses_relabel (c : Classification) :
    (c.relabel π).accesses = c.accesses.map (Access.relabel π) := by
  rw [accesses, accesses, relabel, List.zipWith_map_right, List.map_zipWith]
  rfl

/-- The classification that a renamed table holds. -/
theorem ofAccesses_relabel (t : List Access) :
    ofAccesses (t.map (Access.relabel π)) = (ofAccesses t).relabel π := by
  simp only [ofAccesses, relabel, List.map_map, Function.comp_def]
  rfl

/-- The sizes are the same. -/
theorem checkSizes_relabel (c : Classification) (deps : DependencyTable) :
    (c.relabel π).checkSizes deps = c.checkSizes deps := by
  have hsets : (c.relabel π).partitions.length = c.partitions.length := List.length_map _
  rw [checkSizes, checkSizes, hsets]
  rfl

/-- Closing a renamed classification leaves the renamed closure, after equally many passes and with
the same report. -/
theorem propagate_relabel (c : Classification) (deps : DependencyTable) (mode : ClosureMode) :
    (c.relabel π).propagate deps mode =
      Prod.map id (Classification.relabel π) <$> c.propagate deps mode := by
  cases mode with
  | singlePass =>
    simp only [propagate, checkSizes_relabel, accesses_relabel, Closure.pass_relabel,
      ofAccesses_relabel, bind_map_left, map_bind, map_pure]
    refine bind_congr fun _ => bind_congr fun t => ?_
    rw [relabel, Closure.openLinks_relabel]
    rfl
  | fixedPoint =>
    simp only [propagate, checkSizes_relabel, accesses_relabel, Closure.settle_relabel,
      bind_map_left, map_bind, map_pure]
    refine bind_congr fun _ => bind_congr fun s => ?_
    rw [Closure.Settled.relabel, ofAccesses_relabel]
    rfl

end Classification

end MeshPartition
