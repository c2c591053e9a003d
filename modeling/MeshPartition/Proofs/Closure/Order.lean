import MeshPartition.Closure
import Mathlib.Order.Basic
import Mathlib.Order.Iterate

/-!
# The order in which accesses grow

A pass of the closure never takes anything back: the access of a node stays as it is, or the node
becomes shared and its set of parts grows. That is an order on `Access`, and since it says "as it
was, or shared", it ties the status of a node to its set: a node that is still local has exactly the
set it started with.

`Closure.pull` is monotone in this order (`pull_mono`), which is less obvious than it looks, since
the condition under which a slave asks for nothing mixes its status with a comparison of two sets.
Everything else about passes follows from it. Passes are described here on assignments `ℕ → Access`
of accesses to nodes, ordered pointwise, as `sweep`; `Proofs.Closure.Table` shows that they are the
passes over tables. `pull_le_sweep` says what one sweep does at least, so that a sweep that changes
nothing leaves no link open (`closed_of_sweep_eq`), and `iterate_sweep_induction` carries what one
visit keeps over any number of sweeps.
-/

namespace MeshPartition

namespace IndexSet

/-- A set is a subset of itself. -/
theorem subset_refl (s : IndexSet) : s ⊆ s := fun _ h => h

/-- The subset relation is transitive. -/
theorem subset_trans {s t u : IndexSet} (hst : s ⊆ t) (htu : t ⊆ u) : s ⊆ u :=
  fun a ha => htu a (hst a ha)

/-- Chains of inclusions can be written with `calc`. -/
instance : Trans (· ⊆ · : IndexSet → IndexSet → Prop) (· ⊆ ·) (· ⊆ ·) := ⟨subset_trans⟩

/-- Sets that contain one another are equal. -/
theorem subset_antisymm {s t : IndexSet} (hst : s ⊆ t) (hts : t ⊆ s) : s = t :=
  ext fun a => ⟨hst a, hts a⟩

/-- The first of two sets is contained in their union. -/
theorem subset_union_left (s t : IndexSet) : s ⊆ s ∪ t := fun _ h => mem_union.2 (Or.inl h)

/-- The second of two sets is contained in their union. -/
theorem subset_union_right (s t : IndexSet) : t ⊆ s ∪ t := fun _ h => mem_union.2 (Or.inr h)

/-- The union is contained in every set that contains both. -/
theorem union_subset {s t u : IndexSet} (hs : s ⊆ u) (ht : t ⊆ u) : s ∪ t ⊆ u := by
  intro a ha
  rcases mem_union.1 ha with h | h
  · exact hs a h
  · exact ht a h

end IndexSet

/-- One access is below another if it is the same, or if the other is shared and has all its
parts. -/
instance : PartialOrder Access where
  le a b := a = b ∨ b.status = .shared ∧ a.partitions ⊆ b.partitions
  le_refl a := Or.inl rfl
  le_trans a b c hab hbc := by
    rcases hbc with rfl | ⟨hc, hbc⟩
    · exact hab
    · rcases hab with rfl | ⟨-, hab⟩
      · exact Or.inr ⟨hc, hbc⟩
      · exact Or.inr ⟨hc, IndexSet.subset_trans hab hbc⟩
  le_antisymm a b hab hba := by
    rcases hab with h | ⟨hb, hab⟩
    · exact h
    · rcases hba with h | ⟨ha, hba⟩
      · exact h.symm
      · -- Both are shared, with the same parts.
        obtain ⟨sa, pa⟩ := a
        obtain ⟨sb, pb⟩ := b
        rw [Access.mk.injEq]
        exact ⟨ha.trans hb.symm, IndexSet.subset_antisymm hab hba⟩

namespace Access

variable {a b : Access}

/-- The parts of a node only grow. -/
theorem partitions_subset (h : a ≤ b) : a.partitions ⊆ b.partitions := by
  rcases h with rfl | ⟨-, h⟩
  · exact IndexSet.subset_refl _
  · exact h

/-- A shared node stays shared. -/
theorem shared_of_le (h : a ≤ b) (ha : a.status = .shared) : b.status = .shared := by
  rcases h with rfl | ⟨hb, -⟩
  · exact ha
  · exact hb

/-- A node that is not shared is as it was. -/
theorem eq_of_le (h : a ≤ b) (hb : b.status ≠ .shared) : a = b := by
  rcases h with rfl | ⟨hb', -⟩
  · rfl
  · exact absurd hb' hb

/-- A node that is still local is as it was; in particular its set has not grown. -/
theorem eq_of_le_of_local (h : a ≤ b) (hb : b.status = .localOnly) : a = b :=
  eq_of_le h (by rw [hb]; decide)

end Access

namespace Closure

/-- A slave that is local and whose parts all reach the master leaves the master alone. -/
theorem pull_eq_self {s m : Access} (hs : s.status = .localOnly)
    (h : s.partitions ⊆ m.partitions) : pull s m = m := if_pos ⟨hs, h⟩

/-- Any other slave makes the master shared and gives it its parts. -/
theorem pull_eq_union {s m : Access}
    (h : s.status ≠ .localOnly ∨ ¬ s.partitions ⊆ m.partitions) :
    pull s m = ⟨.shared, m.partitions ∪ s.partitions⟩ :=
  if_neg fun ⟨hs, hsub⟩ => h.elim (· hs) (· hsub)

/-- The two cases of `pull`. -/
theorem pull_cases (s m : Access) :
    (s.status = .localOnly ∧ s.partitions ⊆ m.partitions) ∨
      (s.status ≠ .localOnly ∨ ¬ s.partitions ⊆ m.partitions) := by
  rw [← not_and_or]
  exact em _

/-- A master only grows. -/
theorem le_pull (s m : Access) : m ≤ pull s m := by
  rcases pull_cases s m with ⟨hs, h⟩ | h
  · rw [pull_eq_self hs h]
  · rw [pull_eq_union h]
    exact Or.inr ⟨rfl, IndexSet.subset_union_left _ _⟩

/-- A visited master has all parts of the slave. -/
theorem partitions_subset_pull (s m : Access) : s.partitions ⊆ (pull s m).partitions := by
  rcases pull_cases s m with ⟨hs, h⟩ | h
  · rw [pull_eq_self hs h]
    exact h
  · rw [pull_eq_union h]
    exact IndexSet.subset_union_right _ _

/-- A visited master has no parts but its own and the slave's. -/
theorem mem_pull {s m : Access} {x : ℕ} (h : x ∈ (pull s m).partitions) :
    x ∈ m.partitions ∨ x ∈ s.partitions := by
  rcases pull_cases s m with ⟨hs, hsub⟩ | hc
  · rw [pull_eq_self hs hsub] at h
    exact Or.inl h
  · rw [pull_eq_union hc] at h
    exact IndexSet.mem_union.1 h

/-- Growing a slave and its master before the visit never makes less of the master. -/
theorem pull_mono {s s' m m' : Access} (hs : s ≤ s') (hm : m ≤ m') :
    pull s m ≤ pull s' m' := by
  rcases pull_cases s' m' with ⟨hs', hsub⟩ | h'
  · -- The larger slave is local, so it is the smaller one, and it asks for nothing.
    have hss : s = s' := Access.eq_of_le_of_local hs hs'
    subst hss
    rw [pull_eq_self hs' hsub]
    rcases pull_cases s m with ⟨-, h⟩ | h
    · rw [pull_eq_self hs' h]
      exact hm
    · -- The smaller master lacked a part that the larger one has: it has grown, hence is shared.
      rw [pull_eq_union h]
      rcases hm with rfl | ⟨hm', hmsub⟩
      · exact absurd hsub (h.resolve_left (not_not_intro hs'))
      · exact Or.inr ⟨hm', IndexSet.union_subset hmsub hsub⟩
  · -- The larger slave leaves a shared master with the parts of both.
    rw [pull_eq_union h']
    refine Or.inr ⟨rfl, fun x hx => IndexSet.mem_union.2 ?_⟩
    rcases mem_pull hx with hx | hx
    · exact Or.inl (Access.partitions_subset hm x hx)
    · exact Or.inr (Access.partitions_subset hs x hx)

/-! ## Sweeps -/

/-- The ends of all links are among the first `n` nodes. -/
def Fits (links : List Link) (n : ℕ) : Prop := ∀ l ∈ links, l.slave < n ∧ l.master < n

/-- The links of a list, as edges from slave to master. -/
def Linked (links : List Link) (s m : ℕ) : Prop := ⟨s, m⟩ ∈ links

/-- One visit, on an assignment of accesses to nodes. -/
def step (σ : ℕ → Access) (l : Link) : ℕ → Access :=
  Function.update σ l.master (pull (σ l.slave) (σ l.master))

/-- What a visit makes of the master. -/
theorem step_master (σ : ℕ → Access) (l : Link) :
    step σ l l.master = pull (σ l.slave) (σ l.master) := Function.update_self ..

/-- A visit leaves all other nodes alone. -/
theorem step_of_ne {σ : ℕ → Access} {l : Link} {n : ℕ} (h : n ≠ l.master) : step σ l n = σ n :=
  Function.update_of_ne h ..

/-- One visit of each link in order, on an assignment of accesses to nodes. -/
def sweep (links : List Link) (σ : ℕ → Access) : ℕ → Access := links.foldl step σ

/-- A sweep visits its first link first. -/
theorem sweep_cons (l : Link) (links : List Link) (σ : ℕ → Access) :
    sweep (l :: links) σ = sweep links (step σ l) := rfl

/-- A visit only lets accesses grow. -/
theorem le_step (σ : ℕ → Access) (l : Link) : σ ≤ step σ l :=
  le_update_self_iff.2 (le_pull _ _)

/-- A sweep only lets accesses grow. -/
theorem le_sweep (links : List Link) (σ : ℕ → Access) : σ ≤ sweep links σ := by
  induction links generalizing σ with
  | nil => exact le_refl σ
  | cons l links ih => exact (le_step σ l).trans (ih _)

/-- A sweep does for each link at least what visiting it first would do: what the visits before it
change only adds to that, and what follows takes nothing back. -/
theorem pull_le_sweep {links : List Link} {l : Link} (hl : l ∈ links) (σ : ℕ → Access) :
    pull (σ l.slave) (σ l.master) ≤ sweep links σ l.master := by
  induction links generalizing σ with
  | nil => exact absurd hl List.not_mem_nil
  | cons l' links ih =>
    rw [sweep_cons]
    rcases List.mem_cons.1 hl with rfl | hl
    · rw [← step_master]
      exact le_sweep links _ _
    · -- Visiting another link first lets both ends of this one grow.
      have hgrown : pull (σ l.slave) (σ l.master) ≤
          pull (step σ l' l.slave) (step σ l' l.master) :=
        pull_mono (le_step σ l' _) (le_step σ l' _)
      exact hgrown.trans (ih hl _)

/-- A sweep changes nothing exactly if no link changes its master. -/
theorem sweep_eq_self_iff {links : List Link} {σ : ℕ → Access} :
    sweep links σ = σ ↔ ∀ l ∈ links, pull (σ l.slave) (σ l.master) = σ l.master := by
  constructor
  · intro h l hl
    -- The sweep does at least what the visit does, and the visit takes nothing back.
    have hle := pull_le_sweep hl σ
    rw [h] at hle
    exact le_antisymm hle (le_pull _ _)
  · intro h
    induction links with
    | nil => rfl
    | cons l links ih =>
      have hstep : step σ l = σ := by
        rw [step, h l List.mem_cons_self, Function.update_eq_self]
      rw [sweep_cons, hstep]
      exact ih fun l' hl' => h l' (List.mem_cons_of_mem l hl')

/-- No slave has a part that one of its masters lacks. -/
def Closed (links : List Link) (σ : ℕ → Access) : Prop :=
  ∀ l ∈ links, (σ l.slave).partitions ⊆ (σ l.master).partitions

/-- Where a sweep changes nothing no link is open. -/
theorem closed_of_sweep_eq {links : List Link} {σ : ℕ → Access} (h : sweep links σ = σ) :
    Closed links σ := by
  intro l hl
  rw [← sweep_eq_self_iff.1 h l hl]
  exact partitions_subset_pull _ _

/-- Repeated sweeps only let accesses grow. -/
theorem le_iterate_sweep (links : List Link) (k : ℕ) (σ : ℕ → Access) :
    σ ≤ (sweep links)^[k] σ :=
  Function.id_le_iterate_of_id_le (le_sweep links) k σ

/-- What is true of an assignment and kept by every visit is true after repeated sweeps. -/
theorem iterate_sweep_induction {links : List Link} {P : (ℕ → Access) → Prop}
    (hstep : ∀ σ, P σ → ∀ l ∈ links, P (step σ l)) (k : ℕ) {σ : ℕ → Access} (hσ : P σ) :
    P ((sweep links)^[k] σ) := by
  -- Within one sweep the induction is on the links that are still to be visited.
  have hsweep : ∀ ls, ls ⊆ links → ∀ σ, P σ → P (sweep ls σ) := by
    intro ls
    induction ls with
    | nil => exact fun _ σ hσ => hσ
    | cons l ls ih =>
      intro hls σ hσ
      rw [List.cons_subset] at hls
      exact ih hls.2 _ (hstep σ hσ l hls.1)
  induction k with
  | zero => exact hσ
  | succ k ih =>
    rw [Function.iterate_succ_apply']
    exact hsweep links (List.Subset.refl _) _ ih

end Closure

end MeshPartition
