import MeshPartition.Proofs.Closure.SinglePass
import Mathlib.Data.List.Chain

/-!
# Passes are bounded by the depth of the dependencies

If dependencies form no ring, closing to a fixed point takes no more passes than a longest chain of
slaves and masters has links, and one to see that nothing is left to do
(`Classification.propagate_fixedPoint_passes_le`). Neither the number of the nodes matters nor the
order in which they are numbered.

The proof goes along the chains from their beginning. A node at whose end only chains of at most `k`
links arrive (`Closure.DepthAtMost`) is settled after `k` sweeps, its set and its status at once: by
then its slaves are settled, so it is visited once more by what they finally are, and after that
they only ask for what they have asked for already (`Closure.iterate_sweep_settled`). This has to be
said of all starts, so that a slave is settled during the next sweep as well, and not only before
and after it.
-/

namespace MeshPartition

open Relation (TransGen)

namespace Closure

variable {edge : ℕ → ℕ → Prop} {links : List Link} {k m : ℕ}

/-! ## Depth -/

/-- No chain of more than `k` edges arrives at a node. -/
def DepthAtMost (edge : ℕ → ℕ → Prop) : ℕ → ℕ → Prop
  | 0, m => ∀ s, ¬ edge s m
  | k + 1, m => ∀ s, edge s m → DepthAtMost edge k s

/-- Where the depth is larger a longer chain arrives. -/
theorem exists_chain_of_not_depthAtMost (h : ¬ DepthAtMost edge k m) :
    ∃ chain : List ℕ, chain.length = k + 1 ∧ (chain ++ [m]).IsChain edge := by
  induction k generalizing m with
  | zero =>
    rw [DepthAtMost] at h
    push Not at h
    obtain ⟨s, hsm⟩ := h
    exact ⟨[s], rfl, List.isChain_pair.2 hsm⟩
  | succ k ih =>
    rw [DepthAtMost] at h
    push Not at h
    obtain ⟨s, hsm, hs⟩ := h
    obtain ⟨chain, hlength, hchain⟩ := ih hs
    refine ⟨chain ++ [s], by simp [hlength], ?_⟩
    rw [List.isChain_append]
    exact ⟨hchain, List.isChain_singleton m, by simpa using hsm⟩

/-- Where no node reaches itself a chain has no repeats. -/
theorem nodup_of_isChain (hacyclic : ∀ n, ¬ TransGen edge n n) {chain : List ℕ}
    (h : chain.IsChain edge) : chain.Nodup := by
  have hreach : chain.IsChain (TransGen edge) := h.imp fun _ _ => TransGen.single
  rw [List.isChain_iff_pairwise] at hreach
  refine hreach.imp fun {s m} hsm heq => ?_
  subst heq
  exact hacyclic s hsm

/-! ## Settled nodes -/

/-- A sweep keeps a master alone if its slaves keep what they are and have asked for all of it
already. -/
theorem sweep_eq_self_at {σ : ℕ → Access}
    (hslaves : ∀ l ∈ links, l.master = m → sweep links σ l.slave = σ l.slave)
    (hpull : ∀ l ∈ links, l.master = m → pull (σ l.slave) (σ m) = σ m) :
    sweep links σ m = σ m := by
  induction links generalizing σ with
  | nil => rfl
  | cons l links ih =>
    -- The first visit leaves the master alone.
    have hmaster : step σ l m = σ m := by
      by_cases hl : l.master = m
      · subst hl
        rw [step_master, hpull l List.mem_cons_self rfl]
      · exact step_of_ne (Ne.symm hl)
    -- It leaves the slaves alone as well, since what it added would still be there at the end.
    have hslave : ∀ l' ∈ links, l'.master = m → step σ l l'.slave = σ l'.slave := by
      intro l' hl' hm
      refine le_antisymm ?_ (le_step σ l l'.slave)
      calc step σ l l'.slave ≤ sweep links (step σ l) l'.slave := le_sweep links _ _
        _ = σ l'.slave := hslaves l' (List.mem_cons_of_mem l hl') hm
    rw [sweep_cons, ih, hmaster]
    · intro l' hl' hm
      rw [hslave l' hl' hm]
      exact hslaves l' (List.mem_cons_of_mem l hl') hm
    · intro l' hl' hm
      rw [hslave l' hl' hm, hmaster]
      exact hpull l' (List.mem_cons_of_mem l hl') hm

/-- A node of depth at most `k` is settled after `k` sweeps. -/
theorem iterate_sweep_settled (h : DepthAtMost (Linked links) k m) (σ : ℕ → Access) :
    (sweep links)^[k + 1] σ m = (sweep links)^[k] σ m := by
  induction k generalizing σ m with
  | zero =>
    refine sweep_of_ne (fun l hl hm => ?_) σ
    subst hm
    exact h l.slave hl
  | succ k ih =>
    have hdepth : ∀ l ∈ links, l.master = m → DepthAtMost (Linked links) k l.slave :=
      fun l hl hm => h l.slave (hm ▸ hl)
    rw [Function.iterate_succ_apply']
    refine sweep_eq_self_at (fun l hl hm => ?_) fun l hl hm => ?_
    · -- The slaves are settled one sweep earlier, whatever the sweeps start with.
      rw [← Function.iterate_succ_apply' (sweep links), Function.iterate_succ_apply,
        Function.iterate_succ_apply (sweep links) k]
      exact ih (hdepth l hl hm) (sweep links σ)
    · -- The last sweep has visited the link with the slave as it still is.
      have hvisited := pull_le_sweep hl ((sweep links)^[k] σ)
      rw [hm, ← Function.iterate_succ_apply' (sweep links)] at hvisited
      rw [ih (hdepth l hl hm) σ]
      exact pull_eq_self_of_pull_le hvisited

end Closure

/-- Dependencies form no ring, and no chain of them has more than `bound` links. -/
structure DependencyTable.Shallow (t : DependencyTable) (bound : ℕ) : Prop where
  /-- No node is its own master, be it through others. -/
  acyclic : ∀ n, ¬ TransGen (fun s m => m ∈ t.mastersOf s) n n
  /-- A chain has one node more than links, and each is a slave of the next. -/
  length_le : ∀ chain : List ℕ, chain.Nodup → chain.IsChain (fun s m => m ∈ t.mastersOf s) →
    chain.length ≤ bound + 1

namespace DependencyTable

variable {t : DependencyTable} {bound : ℕ}

/-- In shallow dependencies every node has at most the depth of the longest chain. -/
theorem Shallow.depthAtMost (h : t.Shallow bound) (m : ℕ) :
    Closure.DepthAtMost (Closure.Linked t.links) bound m := by
  rw [t.linked_links]
  by_contra hdeep
  obtain ⟨chain, hlength, hchain⟩ := Closure.exists_chain_of_not_depthAtMost hdeep
  have hle := h.length_le _ (Closure.nodup_of_isChain h.acyclic hchain) hchain
  rw [List.length_append, List.length_singleton] at hle
  omega

/-- After as many sweeps as a longest chain has links nothing is left to do. -/
theorem Shallow.sweep_iterate_eq (h : t.Shallow bound) (σ : ℕ → Access) :
    Closure.sweep t.links ((Closure.sweep t.links)^[bound] σ) =
      (Closure.sweep t.links)^[bound] σ := by
  funext m
  rw [← Function.iterate_succ_apply' (Closure.sweep t.links)]
  exact Closure.iterate_sweep_settled (h.depthAtMost m) σ

/-- Dependencies are shallow if nodes can be ranked such that masters have smaller ranks than their
slaves. -/
theorem shallow_of_rank (rank : ℕ → ℕ) (hrank : ∀ s, ∀ m ∈ t.mastersOf s, rank m < rank s)
    (hbound : ∀ n, rank n ≤ bound) : t.Shallow bound where
  acyclic n hn := by
    have hlt : ∀ {s m}, TransGen (fun s m => m ∈ t.mastersOf s) s m → rank m < rank s := by
      intro s m hsm
      induction hsm with
      | single h => exact hrank _ _ h
      | tail _ h ih => exact (hrank _ _ h).trans ih
    exact Nat.lt_irrefl _ (hlt hn)
  length_le chain _ hchain := by
    -- A chain has at most as many nodes as there are ranks from the one of its first node on.
    have hlength : ∀ (rest : List ℕ) (n : ℕ),
        (n :: rest).IsChain (fun s m => m ∈ t.mastersOf s) → rest.length ≤ rank n := by
      intro rest
      induction rest with
      | nil => exact fun n _ => Nat.zero_le _
      | cons m rest ih =>
        intro n hn
        rw [List.isChain_cons_cons] at hn
        have hm := ih m hn.2
        have hlt := hrank n m hn.1
        rw [List.length_cons]
        omega
    cases chain with
    | nil => exact Nat.zero_le _
    | cons n rest => exact Nat.succ_le_succ ((hlength rest n hchain).trans (hbound n))

end DependencyTable

namespace Classification

variable {c : Classification} {deps : DependencyTable}

/-- If dependencies form no ring and no chain of them has more than `bound` links, closing to a
fixed point settles within `bound + 1` passes, however the nodes are numbered and whatever their
statuses and sets are at the start. -/
theorem propagate_fixedPoint_passes_le {bound : ℕ} (hshallow : deps.Shallow bound)
    (hdeps : deps.size = c.size) (hsets : c.partitions.length = c.size) :
    ∃ report closed, c.propagate deps .fixedPoint = .ok (report, closed) ∧
      report.converged = true ∧ 1 ≤ report.passes ∧ report.passes ≤ bound + 1 := by
  have hfit := fits_accesses hdeps hsets
  rcases Nat.lt_or_ge c.size bound with hlt | hle
  · -- The bound on the passes is larger than the one that always holds.
    obtain ⟨s, hs, hconverged, hpos, hpasses, -⟩ := exists_settled hfit hsets
    exact ⟨_, _, propagate_fixedPoint_eq hdeps hsets hs, hconverged, hpos, hpasses.trans (by omega)⟩
  · obtain ⟨s, hs, hconverged, hpos, hpasses, -⟩ :=
      Closure.settle_eq_ok hfit (hshallow.sweep_iterate_eq _) (Nat.lt_succ_of_le hle)
    exact ⟨_, _, propagate_fixedPoint_eq hdeps hsets hs, hconverged, hpos, hpasses⟩

/-- A chain of two links that is numbered against the order of its visits, and a node apart with two
slaves. -/
def uphillDependencies : DependencyTable where
  entries := [none, some ⟨.rigidArm, [0]⟩, some ⟨.rigidArm, [1]⟩, none, some ⟨.rigidArm, [3]⟩,
    some ⟨.rigidArm, [3]⟩]
  master_lt := by simp

/-- Six local nodes, of which the first slave of the chain alone has part `1`. -/
def uphillClassification : Classification :=
  ⟨List.replicate 6 .localOnly, [IndexSet.ofList [0], IndexSet.ofList [0], IndexSet.ofList [1],
    IndexSet.ofList [0], IndexSet.ofList [0], IndexSet.ofList [0]]⟩

/-- The bound is attained: part `1` goes one link uphill in each of two passes, and the third finds
nothing left to do. -/
theorem propagate_fixedPoint_passes_le_uphill :
    uphillDependencies.Shallow 2 ∧ uphillDependencies.size = uphillClassification.size ∧
      uphillClassification.partitions.length = uphillClassification.size ∧
      ∃ report closed,
        uphillClassification.propagate uphillDependencies .fixedPoint = .ok (report, closed) ∧
        report.converged = true ∧ report.passes ≤ 3 ∧ report.passes = 3 := by
  have hbelow : ∀ s < 6, ∀ m ∈ uphillDependencies.mastersOf s,
      [0, 1, 2, 0, 1, 1].getD m 0 < [0, 1, 2, 0, 1, 1].getD s 0 := by decide
  have hshallow : uphillDependencies.Shallow 2 := by
    refine DependencyTable.shallow_of_rank (fun n => [0, 1, 2, 0, 1, 1].getD n 0)
      (fun s m hm => ?_) fun n => ?_
    · exact hbelow s (uphillDependencies.fits_links ⟨s, m⟩ (DependencyTable.mem_links.2 hm)).1 m hm
    · match n with
      | 0 | 1 | 2 | 3 | 4 | 5 => decide
      | n + 6 => exact Nat.zero_le 2
  obtain ⟨report, closed, h, hconverged, -, hpasses⟩ :=
    propagate_fixedPoint_passes_le (c := uphillClassification) hshallow rfl rfl
  have hrun : uphillClassification.propagate uphillDependencies .fixedPoint =
      .ok (⟨.fixedPoint, 3, true⟩, ⟨[.shared, .shared, .localOnly, .localOnly, .localOnly,
        .localOnly], [IndexSet.ofList [0, 1], IndexSet.ofList [0, 1], IndexSet.ofList [1],
        IndexSet.ofList [0], IndexSet.ofList [0], IndexSet.ofList [0]]⟩) := by rfl
  have hreport := Except.ok.inj (h.symm.trans hrun)
  rw [Prod.mk.injEq] at hreport
  exact ⟨hshallow, rfl, rfl, report, closed, h, hconverged, hpasses, by rw [hreport.1]⟩

end Classification

end MeshPartition
