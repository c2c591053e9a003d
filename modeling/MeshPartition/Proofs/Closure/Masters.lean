import MeshPartition.Proofs.Closure.OpenLinks

/-!
# A pass depends on the sets of masters alone, and grows with them

A pass follows the links of a dependency table, which list the masters of each slave in the order in
which they are declared. That order does not matter, nor would repeats: what the visits of one slave
do together is `Closure.serve`, which asks for each node only whether it is a master. Serving is
monotone both in the accesses and in the set of masters, and so is a whole sweep
(`DependencyTable.sweep_links_le`).

Two things follow. With more masters no node is reached from fewer parts
(`Classification.entry_le_of_propagate`), in either mode. With the same sets of masters closing is
the same, down to the number of passes (`Classification.propagate_congr`).
-/

namespace MeshPartition

namespace Closure

variable {σ τ : ℕ → Access} {masters masters' : List ℕ}

/-- A second visit of the same slave adds nothing. -/
theorem pull_pull (s m : Access) : pull s (pull s m) = pull s m :=
  pull_eq_self_of_pull_le (le_refl _)

/-- A slave that has visited itself asks for what it asked for before. -/
theorem pull_pull_self (s m : Access) : pull (pull s s) m = pull s m := by
  by_cases hs : s.status = .localOnly
  · rw [pull_eq_self hs (IndexSet.subset_refl _)]
  · have hunion : s.partitions ∪ s.partitions = s.partitions :=
      IndexSet.ext fun x => by simp
    rw [pull_eq_union (Or.inl hs), pull_eq_union (Or.inl hs), hunion]
    exact pull_eq_union (Or.inl nofun)

/-- What the visits of one slave to all its masters do together. -/
def serve (masters : List ℕ) (s : ℕ) (σ : ℕ → Access) (n : ℕ) : Access :=
  if n ∈ masters then pull (σ s) (σ n) else σ n

/-- The links of one slave are visited as if all at once: the slave asks every master for the same,
even if it is one of them, and asking twice adds nothing. -/
theorem sweep_masters (masters : List ℕ) (s : ℕ) (σ : ℕ → Access) :
    sweep (masters.map (Link.mk s)) σ = serve masters s σ := by
  induction masters generalizing σ with
  | nil => rfl
  | cons k masters ih =>
    rw [List.map_cons, sweep_cons, ih]
    funext n
    -- The slave asks after the first visit for what it asked for before.
    have hslave : ∀ a, pull (step σ ⟨s, k⟩ s) a = pull (σ s) a := by
      intro a
      by_cases hs : s = k
      · subst hs
        rw [show step σ ⟨s, s⟩ s = _ from step_master σ ⟨s, s⟩, pull_pull_self]
      · rw [step_of_ne hs]
    rw [serve, serve, hslave]
    by_cases hn : n = k
    · subst hn
      rw [show step σ ⟨s, n⟩ n = _ from step_master σ ⟨s, n⟩, pull_pull, ite_self,
        if_pos List.mem_cons_self]
    · rw [step_of_ne hn]
      simp only [List.mem_cons, hn, false_or]

/-- Serving more masters, with more known of all nodes, leaves more. -/
theorem serve_le_serve (hsub : masters ⊆ masters') (s : ℕ) (h : σ ≤ τ) :
    serve masters s σ ≤ serve masters' s τ := by
  intro n
  rw [serve, serve]
  by_cases hn : n ∈ masters
  · rw [if_pos hn, if_pos (hsub hn)]
    exact pull_mono (h s) (h n)
  · rw [if_neg hn]
    -- A node that is a master now may only have gained.
    split_ifs
    · exact (h n).trans (le_pull _ _)
    · exact h n

end Closure

namespace DependencyTable

open Closure (serve sweep)

variable {t t' : DependencyTable} {σ τ : ℕ → Access}

/-- The links of a table, slave by slave; a node that is not constrained has none. -/
theorem links_eq_flatMap (t : DependencyTable) :
    t.links = (List.range t.size).flatMap fun s => (t.mastersOf s).map (Link.mk s) := by
  have hentries : t.entries.zipIdx = (List.range t.size).map fun s => (t.find? s, s) := by
    apply List.ext_getElem?
    intro s
    rw [List.getElem?_zipIdx, List.getElem?_map, Nat.zero_add]
    rcases Nat.lt_or_ge s t.size with hs | hs
    · have hs' : s < t.entries.length := hs
      rw [List.getElem?_range hs, List.getElem?_eq_getElem hs', Option.map_some, Option.map_some,
        find?, List.getElem?_eq_getElem hs']
      rfl
    · rw [List.getElem?_eq_none (show t.entries.length ≤ s from hs),
        List.getElem?_eq_none (List.length_range.trans_le hs)]
      rfl
  rw [links, constrained, hentries, List.filterMap_map, List.filterMap_eq_flatMap_toList,
    List.flatMap_assoc]
  refine List.flatMap_congr fun s _ => ?_
  simp only [Function.comp_apply, mastersOf]
  cases t.find? s with
  | none => rfl
  | some d => exact List.append_nil _

/-- A sweep over the links of a table serves one slave after the other. -/
theorem sweep_links (t : DependencyTable) (σ : ℕ → Access) : sweep t.links σ =
    (List.range t.size).foldl (fun σ s => serve (t.mastersOf s) s σ) σ := by
  rw [links_eq_flatMap, sweep, List.foldl_flatMap]
  simp only [← Closure.sweep_masters]
  rfl

/-- A sweep over more masters, with more known of all nodes, leaves more. -/
theorem sweep_links_le (hsize : t.size = t'.size) (hsub : ∀ s, t.mastersOf s ⊆ t'.mastersOf s)
    (h : σ ≤ τ) : sweep t.links σ ≤ sweep t'.links τ := by
  rw [sweep_links, sweep_links, hsize]
  induction List.range t'.size generalizing σ τ with
  | nil => exact h
  | cons s slaves ih => exact ih (Closure.serve_le_serve (hsub s) s h)

/-- Repeated sweeps over more masters leave more. -/
theorem iterate_sweep_links_le (hsize : t.size = t'.size)
    (hsub : ∀ s, t.mastersOf s ⊆ t'.mastersOf s) (k : ℕ) (σ : ℕ → Access) :
    (sweep t.links)^[k] σ ≤ (sweep t'.links)^[k] σ := by
  induction k with
  | zero => exact le_refl σ
  | succ k ih =>
    rw [Function.iterate_succ_apply', Function.iterate_succ_apply']
    exact sweep_links_le hsize hsub ih

/-- Two tables have the same sets of masters. -/
structure SameMasters (t t' : DependencyTable) : Prop where
  size_eq : t.size = t'.size
  mem_iff : ∀ s k, k ∈ t.mastersOf s ↔ k ∈ t'.mastersOf s

/-- Sweeps over the same masters are the same. -/
theorem SameMasters.sweep_links_eq (h : t.SameMasters t') (σ : ℕ → Access) :
    sweep t.links σ = sweep t'.links σ :=
  le_antisymm (sweep_links_le h.size_eq (fun s k => (h.mem_iff s k).1) (le_refl σ))
    (sweep_links_le h.size_eq.symm (fun s k => (h.mem_iff s k).2) (le_refl σ))

/-- Over the same masters the same links are open. -/
theorem SameMasters.closed_iff (h : t.SameMasters t') :
    Closure.Closed t.links σ ↔ Closure.Closed t'.links σ := by
  simp only [Closure.Closed, mem_links, h.mem_iff]

end DependencyTable

namespace Closure

variable {links links' : List Link} {t : List Access}

/-- Passes over links with the same sweeps are the same. -/
theorem pass_congr (hfit : Fits links t.length) (hfit' : Fits links' t.length)
    (hsweep : ∀ σ, sweep links σ = sweep links' σ) : pass links t = pass links' t := by
  obtain ⟨u, hu, hlen, hentry⟩ := pass_eq_ok hfit
  obtain ⟨u', hu', hlen', hentry'⟩ := pass_eq_ok hfit'
  have heq : u = u' := eq_of_entry_eq (hlen.trans hlen'.symm) (by rw [hentry, hentry', hsweep])
  rw [hu, hu', heq]

/-- Repeated passes over links with the same sweeps settle in the same way, after equally many
passes. -/
theorem settle_congr (hfit : Fits links t.length) (hfit' : Fits links' t.length)
    (hsweep : ∀ σ, sweep links σ = sweep links' σ) (budget : ℕ) :
    settle links budget t = settle links' budget t := by
  induction budget generalizing t with
  | zero => rfl
  | succ budget ih =>
    obtain ⟨next, hnext, hlen, -⟩ := pass_eq_ok hfit
    rw [settle, settle, ← pass_congr hfit hfit' hsweep, hnext]
    show (if next = t then _ else settle links budget next >>= _) =
      if next = t then _ else settle links' budget next >>= _
    rw [ih (hlen ▸ hfit) (hlen ▸ hfit')]

end Closure

namespace Classification

variable {c : Classification} {deps deps' : DependencyTable}

/-- Closing over the same masters is the same, and takes the same number of passes. -/
theorem propagate_congr (h : deps.SameMasters deps') (c : Classification) (mode : ClosureMode) :
    c.propagate deps mode = c.propagate deps' mode := by
  by_cases hsizes : deps.size = c.size ∧ c.partitions.length = c.size
  · obtain ⟨hdeps, hsets⟩ := hsizes
    have hdeps' : deps'.size = c.size := h.size_eq.symm.trans hdeps
    have hfit := fits_accesses hdeps hsets
    have hfit' := fits_accesses hdeps' hsets
    cases mode with
    | singlePass =>
      obtain ⟨t, left, ht, -, heq⟩ := propagate_singlePass_eq hdeps hsets
      obtain ⟨t', left', ht', -, heq'⟩ := propagate_singlePass_eq hdeps' hsets
      rw [← Closure.pass_congr hfit hfit' h.sweep_links_eq, ht, Except.ok.injEq] at ht'
      subst ht'
      have hconverged := converged_iff_of_propagate heq
      rw [h.closed_iff, ← converged_iff_of_propagate heq'] at hconverged
      rw [heq, heq', show left.isEmpty = left'.isEmpty from Bool.eq_iff_iff.2 hconverged]
    | fixedPoint =>
      obtain ⟨s, hs, -⟩ := exists_settled hfit hsets
      rw [propagate_fixedPoint_eq hdeps hsets hs]
      rw [Closure.settle_congr hfit hfit' h.sweep_links_eq] at hs
      rw [propagate_fixedPoint_eq hdeps' hsets hs]
  · -- The sizes are looked at before anything else, and they are the same.
    have hcheck : c.checkSizes deps = c.checkSizes deps' := by
      rw [checkSizes, checkSizes, h.size_eq]
    cases herror : c.checkSizes deps with
    | ok _ => exact absurd (checkSizes_eq_ok_iff.1 herror) hsizes
    | error e =>
      rw [propagate_of_checkSizes herror, propagate_of_checkSizes (hcheck ▸ herror)]

/-- Closing over more masters, in either mode, leaves each node with at least the parts, and shared
if it was. -/
theorem entry_le_of_propagate {mode : ClosureMode} {report report' : ClosureReport}
    {closed closed' : Classification} (h : c.propagate deps mode = .ok (report, closed))
    (h' : c.propagate deps' mode = .ok (report', closed'))
    (hsub : ∀ s, deps.mastersOf s ⊆ deps'.mastersOf s) : closed.entry ≤ closed'.entry := by
  obtain ⟨hdeps, hsets⟩ := sizes_of_propagate h
  obtain ⟨hdeps', -⟩ := sizes_of_propagate h'
  have hsize : deps.size = deps'.size := hdeps.trans hdeps'.symm
  cases mode with
  | singlePass =>
    obtain ⟨_, _, heq, -, -, hentry, -⟩ := exists_singlePass hdeps hsets
    obtain ⟨_, _, heq', -, -, hentry', -⟩ := exists_singlePass hdeps' hsets
    obtain ⟨rfl, rfl⟩ := Prod.mk.inj (Except.ok.inj (h.symm.trans heq))
    obtain ⟨rfl, rfl⟩ := Prod.mk.inj (Except.ok.inj (h'.symm.trans heq'))
    rw [hentry, hentry']
    exact DependencyTable.sweep_links_le hsize hsub (le_refl _)
  | fixedPoint =>
    obtain ⟨-, -, ⟨j, hj⟩, hfixed⟩ := propagate_eq_ok h
    obtain ⟨-, -, ⟨k, hk⟩, hfixed'⟩ := propagate_eq_ok h'
    -- Both closures may go on for as long as the other one has taken.
    have hmore : closed.entry = (Closure.sweep deps.links)^[k + 1 + (j + 1)] c.entry := by
      rw [Function.iterate_add_apply, ← hj, Function.iterate_fixed (hfixed rfl).2]
    have hmore' : closed'.entry = (Closure.sweep deps'.links)^[j + 1 + (k + 1)] c.entry := by
      rw [Function.iterate_add_apply, ← hk, Function.iterate_fixed (hfixed' rfl).2]
    rw [hmore, hmore', Nat.add_comm (k + 1)]
    exact DependencyTable.iterate_sweep_links_le hsize hsub _ _

end Classification

end MeshPartition
