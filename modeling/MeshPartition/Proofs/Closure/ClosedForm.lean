import MeshPartition.Proofs.Closure.Order
import Mathlib.Data.Finset.Card
import Mathlib.Logic.Relation
import Mathlib.Order.Interval.Finset.Nat

/-!
# The closed form of the closure

`IsClosure edge before after` says, without mentioning any order of visits, what closing does to the
accesses of all nodes: a node ends with the parts of all nodes from which it is reached along edges,
and it ends shared exactly if it is in the least set `MustShare`. At most one assignment satisfies
this (`IsClosure.unique`).

`isClosure_iterate_sweep` shows that as many sweeps as there are nodes produce it. The two halves
are separate. Nothing wrong is ever added: `Justified` holds of the start and is kept by every
visit. Nothing stays missing: one sweep moves parts and the status at least one edge further, a node
that has to be shared because of one of its slaves is so after the first sweep, and a node that is
reached at all is reached along fewer edges than there are nodes (`within_of_reaches`). The two
bounds add up to the number of nodes, since a node with a slave is not the only one on its path.
-/

namespace MeshPartition.Closure

open Relation (ReflTransGen)

variable {edge : ℕ → ℕ → Prop} {σ τ τ' : ℕ → Access} {links : List Link} {k n s m : ℕ}

/-! ## Short paths -/

/-- Whether `m` is reached from `s` along at most `k` edges. -/
def Within (edge : ℕ → ℕ → Prop) : ℕ → ℕ → ℕ → Prop
  | 0, s, m => s = m
  | k + 1, s, m => ∃ u, Within edge k s u ∧ (u = m ∨ edge u m)

/-- More edges may be allowed. -/
theorem Within.mono {j : ℕ} (hjk : j ≤ k) (h : Within edge j s m) : Within edge k s m := by
  induction hjk with
  | refl => exact h
  | step _ ih => exact ⟨m, ih, Or.inl rfl⟩

/-- A node that is reached is reached along some number of edges. -/
theorem exists_within (h : ReflTransGen edge s m) : ∃ k, Within edge k s m := by
  induction h with
  | refl => exact ⟨0, rfl⟩
  | @tail u v _ huv ih =>
    obtain ⟨k, hk⟩ := ih
    exact ⟨k + 1, u, hk, Or.inr huv⟩

/-- A path that is as short as possible passes through nodes at every smaller distance. -/
theorem exists_at_distance (h : Within edge k s m) (hmin : ∀ j < k, ¬ Within edge j s m) :
    ∀ i ≤ k, ∃ u, Within edge i s u ∧ ∀ j < i, ¬ Within edge j s u := by
  induction k generalizing m with
  | zero =>
    intro i hi
    rw [Nat.le_zero.1 hi]
    exact ⟨m, h, hmin⟩
  | succ k ih =>
    intro i hi
    rcases Nat.lt_or_ge k i with hki | hik
    · rw [show i = k + 1 by omega]
      exact ⟨m, h, hmin⟩
    · -- The last node but one is at distance `k`, or the path could be shortened.
      obtain ⟨u, hu, hum⟩ := h
      rcases hum with rfl | hum
      · exact absurd hu (hmin k (Nat.lt_succ_self k))
      · refine ih hu (fun j hj hju => hmin (j + 1) (by omega) ?_) i hik
        exact ⟨u, hju, Or.inr hum⟩

/-- What is reached from one of the first `n` nodes is one of them. -/
theorem Within.lt (hlt : ∀ s m, edge s m → s < n ∧ m < n) (hs : s < n) (h : Within edge k s m) :
    m < n := by
  induction k generalizing m with
  | zero =>
    rw [← show s = m from h]
    exact hs
  | succ k ih =>
    obtain ⟨u, hu, rfl | hum⟩ := h
    · exact ih hu
    · exact (hlt _ _ hum).2

/-- Among `n` nodes, one that is reached at all is reached along fewer than `n` edges: a shortest
path has a node at each of its distances, and these are different. -/
theorem within_of_reaches (hlt : ∀ s m, edge s m → s < n ∧ m < n) (h : ReflTransGen edge s m) :
    Within edge (n - 1) s m := by
  classical
  -- Let `k` be the length of a shortest path.
  have hex := exists_within h
  have hk := Nat.find_spec hex
  have hmin : ∀ j < Nat.find hex, ¬ Within edge j s m := fun j hj => Nat.find_min hex hj
  generalize Nat.find hex = k at hk hmin
  refine Within.mono ?_ hk
  rcases Nat.eq_zero_or_pos k with rfl | hpos
  · exact Nat.zero_le _
  · have hs : s < n := by
      rcases ReflTransGen.cases_head h with rfl | ⟨u, hsu, -⟩
      · exact absurd rfl (hmin 0 hpos)
      · exact (hlt _ _ hsu).1
    -- The nodes at the distances from `0` to `k` are different, and all below `n`.
    choose! f hf hfmin using exists_at_distance hk hmin
    have hcard : (Finset.range (k + 1)).card ≤ (Finset.range n).card := by
      refine Finset.card_le_card_of_injOn f (fun i hi => ?_) (fun i hi j hj hij => ?_)
      · rw [Finset.coe_range, Set.mem_Iio] at hi
        rw [Finset.coe_range, Set.mem_Iio]
        exact (hf i (by omega)).lt hlt hs
      · rw [Finset.coe_range, Set.mem_Iio] at hi hj
        rcases Nat.lt_trichotomy i j with hlt' | rfl | hlt'
        · exact absurd (hij ▸ hf i (by omega)) (hfmin j (by omega) i hlt')
        · rfl
        · exact absurd (hij ▸ hf j (by omega)) (hfmin i (by omega) j hlt')
    rw [Finset.card_range, Finset.card_range] at hcard
    omega

/-! ## The closed form -/

/-- The nodes that have to be shared: the least set that contains the shared ones and every master
one of whose slaves is not local, is in the set, or has a part that the master lacks. -/
inductive MustShare (edge : ℕ → ℕ → Prop) (σ : ℕ → Access) : ℕ → Prop where
  /-- It is shared already. -/
  | shared {m : ℕ} (h : (σ m).status = .shared) : MustShare edge σ m
  /-- It has a slave that is not local. -/
  | called {s m : ℕ} (hsm : edge s m) (h : (σ s).status ≠ .localOnly) : MustShare edge σ m
  /-- It has a slave that has to be shared. -/
  | passed {s m : ℕ} (hsm : edge s m) (h : MustShare edge σ s) : MustShare edge σ m
  /-- It has a slave with a part of which it has nothing yet. -/
  | lacking {s m : ℕ} (hsm : edge s m) (h : ¬ (σ s).partitions ⊆ (σ m).partitions) :
    MustShare edge σ m

/-- What closing over the edges, from slave to master, makes of the accesses of all nodes. -/
structure IsClosure (edge : ℕ → ℕ → Prop) (before after : ℕ → Access) : Prop where
  /-- A node has the parts of all nodes from which it is reached, itself included. -/
  mem_partitions : ∀ m x, x ∈ (after m).partitions ↔
    ∃ s, ReflTransGen edge s m ∧ x ∈ (before s).partitions
  /-- A node is shared exactly if it has to be. -/
  shared_iff : ∀ m, (after m).status = .shared ↔ MustShare edge before m
  /-- The other nodes keep their status. -/
  status_eq : ∀ m, ¬ MustShare edge before m → (after m).status = (before m).status

/-- The closed form determines the accesses. -/
theorem IsClosure.unique (h : IsClosure edge σ τ) (h' : IsClosure edge σ τ') : τ = τ' := by
  funext m
  have hparts : (τ m).partitions = (τ' m).partitions :=
    IndexSet.ext fun x => (h.mem_partitions m x).trans (h'.mem_partitions m x).symm
  have hstatus : (τ m).status = (τ' m).status := by
    by_cases hm : MustShare edge σ m
    · rw [(h.shared_iff m).2 hm, (h'.shared_iff m).2 hm]
    · rw [h.status_eq m hm, h'.status_eq m hm]
  calc τ m = ⟨(τ m).status, (τ m).partitions⟩ := rfl
    _ = ⟨(τ' m).status, (τ' m).partitions⟩ := by rw [hstatus, hparts]
    _ = τ' m := rfl

/-! ## Nothing wrong is added -/

/-- What visits have made of the accesses so far is within the closed form. -/
structure Justified (edge : ℕ → ℕ → Prop) (before now : ℕ → Access) : Prop where
  /-- Accesses have only grown. -/
  le : before ≤ now
  /-- The parts of a node come from nodes from which it is reached. -/
  reached : ∀ m x, x ∈ (now m).partitions → ∃ s, ReflTransGen edge s m ∧ x ∈ (before s).partitions
  /-- Shared nodes have to be. -/
  mustShare : ∀ m, (now m).status = .shared → MustShare edge before m

/-- The start is justified. -/
theorem Justified.refl (edge : ℕ → ℕ → Prop) (σ : ℕ → Access) : Justified edge σ σ where
  le := le_refl σ
  reached m _ hx := ⟨m, ReflTransGen.refl, hx⟩
  mustShare _ hm := MustShare.shared hm

/-- If a visit changes the master, the master has to be shared. A slave that is still local has its
first set, and the master has at least its first one, so a part that is missing now was missing at
the start. -/
theorem Justified.mustShare_master (h : Justified edge σ τ) (hsm : edge s m)
    (hc : (τ s).status ≠ .localOnly ∨ ¬ (τ s).partitions ⊆ (τ m).partitions) :
    MustShare edge σ m := by
  by_cases hs : (τ s).status = .localOnly
  · have hss : σ s = τ s := Access.eq_of_le_of_local (h.le s) hs
    refine MustShare.lacking hsm fun hsub => hc.resolve_left (not_not_intro hs) ?_
    rw [← hss]
    exact IndexSet.subset_trans hsub (Access.partitions_subset (h.le m))
  · by_cases hs' : (τ s).status = .shared
    · exact MustShare.passed hsm (h.mustShare s hs')
    · have hss : σ s = τ s := Access.eq_of_le (h.le s) hs'
      exact MustShare.called hsm (by rwa [hss])

/-- A visit along an edge keeps the accesses justified. -/
theorem Justified.step {l : Link} (h : Justified edge σ τ) (hl : edge l.slave l.master) :
    Justified edge σ (step τ l) where
  le := h.le.trans (le_step τ l)
  reached m x hx := by
    by_cases hm : m = l.master
    · subst hm
      rw [step_master] at hx
      rcases mem_pull hx with hx | hx
      · exact h.reached _ x hx
      · -- The part is the slave's, and comes from where the slave has it.
        obtain ⟨s, hs, hxs⟩ := h.reached _ x hx
        exact ⟨s, hs.tail hl, hxs⟩
    · rw [step_of_ne hm] at hx
      exact h.reached m x hx
  mustShare m hm := by
    by_cases hml : m = l.master
    · subst hml
      rcases pull_cases (τ l.slave) (τ l.master) with ⟨hs, hsub⟩ | hc
      · rw [step_master, pull_eq_self hs hsub] at hm
        exact h.mustShare _ hm
      · exact h.mustShare_master hl hc
    · rw [step_of_ne hml] at hm
      exact h.mustShare m hm

/-- Accesses that are justified and miss nothing are in closed form. -/
theorem Justified.isClosure (h : Justified edge σ τ)
    (hreach : ∀ s m, ReflTransGen edge s m → (σ s).partitions ⊆ (τ m).partitions)
    (hshare : ∀ m, MustShare edge σ m → (τ m).status = .shared) : IsClosure edge σ τ where
  mem_partitions m x := ⟨h.reached m x, fun ⟨s, hs, hx⟩ => hreach s m hs x hx⟩
  shared_iff m := ⟨h.mustShare m, hshare m⟩
  status_eq m hm := by
    rw [Access.eq_of_le (h.le m) fun hs => hm (h.mustShare m hs)]

/-! ## Nothing stays missing -/

/-- After `k` sweeps the parts of a node are at all nodes within `k` edges. -/
theorem partitions_subset_iterate (σ : ℕ → Access) (h : Within (Linked links) k s m) :
    (σ s).partitions ⊆ ((sweep links)^[k] σ m).partitions := by
  induction k generalizing m with
  | zero =>
    rw [show s = m from h]
    exact IndexSet.subset_refl _
  | succ k ih =>
    obtain ⟨u, hu, hum⟩ := h
    rw [Function.iterate_succ_apply']
    generalize hρ : (sweep links)^[k] σ = ρ at ih ⊢
    rcases hum with rfl | hum
    · exact IndexSet.subset_trans (ih hu) (Access.partitions_subset (le_sweep links ρ u))
    · -- The last sweep visits the last edge, whose slave has the parts by then.
      calc (σ s).partitions ⊆ (ρ u).partitions := ih hu
        _ ⊆ (pull (ρ u) (ρ m)).partitions := partitions_subset_pull _ _
        _ ⊆ (sweep links ρ m).partitions := Access.partitions_subset (pull_le_sweep hum ρ)

/-- After `k` sweeps the nodes within `k` edges of a shared node are shared. -/
theorem shared_iterate (h : Within (Linked links) k s m) (hs : (σ s).status = .shared) :
    ((sweep links)^[k] σ m).status = .shared := by
  induction k generalizing m with
  | zero => rwa [← show s = m from h]
  | succ k ih =>
    obtain ⟨u, hu, hum⟩ := h
    rw [Function.iterate_succ_apply']
    generalize hρ : (sweep links)^[k] σ = ρ at ih ⊢
    rcases hum with rfl | hum
    · exact Access.shared_of_le (le_sweep links ρ u) (ih hu)
    · -- A slave that is shared makes its master shared whenever it is visited.
      have hu' : (ρ u).status ≠ .localOnly := by rw [ih hu]; decide
      have hpull : (pull (ρ u) (ρ m)).status = .shared := by rw [pull_eq_union (Or.inl hu')]
      exact Access.shared_of_le (pull_le_sweep hum ρ) hpull

/-- A node has to be shared because of a node from which it is reached, and which is shared already
or becomes so with the first visit of one of its slaves. -/
theorem MustShare.origin (h : MustShare edge σ m) :
    ∃ u, ReflTransGen edge u m ∧ ((σ u).status = .shared ∨
      ∃ s, edge s u ∧ (pull (σ s) (σ u)).status = .shared) := by
  induction h with
  | @shared m h => exact ⟨m, ReflTransGen.refl, Or.inl h⟩
  | @called s m hsm h =>
    exact ⟨m, ReflTransGen.refl, Or.inr ⟨s, hsm, by rw [pull_eq_union (Or.inl h)]⟩⟩
  | passed hsm _ ih =>
    -- What makes the slave shared makes the master shared, one edge further.
    obtain ⟨u, hu, hshared⟩ := ih
    exact ⟨u, hu.tail hsm, hshared⟩
  | @lacking s m hsm h =>
    exact ⟨m, ReflTransGen.refl, Or.inr ⟨s, hsm, by rw [pull_eq_union (Or.inr h)]⟩⟩

/-- As many sweeps as there are nodes reach the closed form, and so do more. -/
theorem isClosure_iterate_sweep (hfit : Fits links n) (hk : n ≤ k)
    (σ : ℕ → Access) : IsClosure (Linked links) σ ((sweep links)^[k] σ) := by
  have hedge : ∀ s m, Linked links s m → s < n ∧ m < n := fun s m h => hfit ⟨s, m⟩ h
  have hjust : Justified (Linked links) σ ((sweep links)^[k] σ) :=
    iterate_sweep_induction (fun _ h l hl => h.step hl) k (Justified.refl _ σ)
  refine hjust.isClosure (fun s m hsm => ?_) (fun m hm => ?_)
  · -- Parts need a sweep for each edge of a shortest path.
    exact partitions_subset_iterate σ ((within_of_reaches hedge hsm).mono (by omega))
  · obtain ⟨u, hum, hu | ⟨s, hsu, hu⟩⟩ := hm.origin
    · exact shared_iterate ((within_of_reaches hedge hum).mono (by omega)) hu
    · -- The first sweep makes `u` shared; the others have to go along fewer than `n` edges.
      have hpos : 0 < n := Nat.zero_lt_of_lt (hedge s u hsu).1
      obtain ⟨j, rfl⟩ : ∃ j, k = j + 1 := ⟨k - 1, by omega⟩
      rw [Function.iterate_succ_apply]
      refine shared_iterate ((within_of_reaches hedge hum).mono (by omega)) ?_
      exact Access.shared_of_le (pull_le_sweep hsu σ) hu

/-- After as many sweeps as there are nodes another sweep changes nothing. -/
theorem sweep_iterate_eq (hfit : Fits links n) (σ : ℕ → Access) :
    sweep links ((sweep links)^[n] σ) = (sweep links)^[n] σ := by
  -- Both sides are in closed form, which they share.
  rw [← Function.iterate_succ_apply' (sweep links)]
  exact (isClosure_iterate_sweep hfit (Nat.le_succ n) σ).unique
    (isClosure_iterate_sweep hfit (Nat.le_refl n) σ)

end MeshPartition.Closure
