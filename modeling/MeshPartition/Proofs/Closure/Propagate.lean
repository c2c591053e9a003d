import MeshPartition.Proofs.Closure.ClosedForm
import MeshPartition.Proofs.Closure.Table

/-!
# What closing a classification computes

`propagate_fixedPoint_isClosure` is the closed form of the closure to a fixed point: the sets and
statuses it leaves satisfy `IsClosure` over the edges from slaves to masters, and visiting the same
links in another order, or some of them repeatedly, leaves the same.

Closing succeeds once the sizes fit (`exists_propagate`), and `propagate_eq_ok` is what both modes
have in common, in the form in which it is used for runs: a successful closure is at least one
sweep, and after a closure to a fixed point another sweep changes nothing.
-/

namespace MeshPartition

namespace Classification

open Closure (sweep settle Fits IsClosure)

variable {c : Classification} {deps : DependencyTable}

/-- Repeated passes over links between the nodes of a classification settle within one pass more
than there are nodes, on what as many sweeps as there are nodes make of it. -/
theorem exists_settled {links : List Link} (hfit : Fits links c.accesses.length)
    (hsets : c.partitions.length = c.size) :
    ∃ s, settle links (c.size + 1) c.accesses = .ok s ∧ s.converged = true ∧ 1 ≤ s.passes ∧
      s.passes ≤ c.size + 1 ∧ s.table.length = c.size ∧
      Closure.entry s.table = (sweep links)^[c.size] c.entry := by
  have hlen := length_accesses hsets
  have hfix := Closure.sweep_iterate_eq (hlen ▸ hfit) c.entry
  obtain ⟨s, hs, hconv, hpos, hpasses, hslen, hentry⟩ :=
    Closure.settle_eq_ok hfit hfix (Nat.lt_succ_self c.size)
  exact ⟨s, hs, hconv, hpos, hpasses, hslen.trans hlen, hentry⟩

/-- A single pass is one sweep, and it reports convergence exactly if it leaves no link open. -/
theorem exists_singlePass (hdeps : deps.size = c.size) (hsets : c.partitions.length = c.size) :
    ∃ report once, c.propagate deps .singlePass = .ok (report, once) ∧
      once.size = c.size ∧ once.partitions.length = c.size ∧
      once.entry = Closure.sweep deps.links c.entry ∧
      (report.converged = true ↔ once.unsatisfied deps = .ok []) := by
  obtain ⟨t, left, ht, hleft, heq⟩ := propagate_singlePass_eq hdeps hsets
  obtain ⟨t', ht', htlen, htentry⟩ := Closure.pass_eq_ok (fits_accesses hdeps hsets)
  rw [ht, Except.ok.injEq] at ht'
  subst ht'
  obtain ⟨hsize, hparts⟩ := length_ofAccesses t
  rw [length_accesses hsets] at htlen
  refine ⟨_, _, heq, hsize.trans htlen, hparts.trans htlen, ?_, ?_⟩
  · rw [entry_ofAccesses]
    exact htentry
  · rw [hleft, Except.ok.injEq]
    exact List.isEmpty_iff

/-- A classification of the size of the dependencies can be closed over them. -/
theorem exists_propagate (hdeps : deps.size = c.size) (hsets : c.partitions.length = c.size)
    (mode : ClosureMode) :
    ∃ report closed, c.propagate deps mode = .ok (report, closed) := by
  cases mode with
  | singlePass =>
    obtain ⟨report, once, heq, -⟩ := exists_singlePass hdeps hsets
    exact ⟨report, once, heq⟩
  | fixedPoint =>
    obtain ⟨s, hs, -⟩ := exists_settled (fits_accesses hdeps hsets) hsets
    exact ⟨_, _, propagate_fixedPoint_eq hdeps hsets hs⟩

/-- A successful closure keeps the sizes and is at least one sweep; a closure to a fixed point ends
where another sweep changes nothing, and knows it. -/
theorem propagate_eq_ok {mode : ClosureMode} {report : ClosureReport} {closed : Classification}
    (h : c.propagate deps mode = .ok (report, closed)) :
    closed.size = c.size ∧ closed.partitions.length = c.size ∧
      (∃ k, closed.entry = (sweep deps.links)^[k + 1] c.entry) ∧
      (mode = .fixedPoint →
        report.converged = true ∧ sweep deps.links closed.entry = closed.entry) := by
  obtain ⟨hdeps, hsets⟩ := sizes_of_propagate h
  have hlen := length_accesses hsets
  have hfit := fits_accesses hdeps hsets
  cases mode with
  | singlePass =>
    obtain ⟨_, once, heq, hsize, hparts, hentry, -⟩ := exists_singlePass hdeps hsets
    rw [heq, Except.ok.injEq, Prod.mk.injEq] at h
    obtain ⟨-, rfl⟩ := h
    exact ⟨hsize, hparts, ⟨0, hentry⟩, fun hmode => by cases hmode⟩
  | fixedPoint =>
    obtain ⟨s, hs, hconv, -, -, hslen, hentry⟩ := exists_settled hfit hsets
    rw [propagate_fixedPoint_eq hdeps hsets hs, Except.ok.injEq, Prod.mk.injEq] at h
    obtain ⟨rfl, rfl⟩ := h
    obtain ⟨hsize, hparts⟩ := length_ofAccesses s.table
    have hfix := Closure.sweep_iterate_eq (hlen ▸ hfit) c.entry
    rw [entry_ofAccesses, hentry]
    -- One sweep more leaves the same, so a mesh without nodes is no exception.
    refine ⟨by omega, by omega, ⟨c.size, ?_⟩, fun _ => ⟨hconv, hfix⟩⟩
    rw [Function.iterate_succ_apply']
    exact hfix.symm

/-- A closure to a fixed point ends in the closed form over the edges from slaves to masters: once a
sweep changes nothing, as many more as there are nodes change nothing either. -/
theorem isClosure_of_propagate {report : ClosureReport} {closed : Classification}
    (h : c.propagate deps .fixedPoint = .ok (report, closed)) :
    IsClosure (fun s m => m ∈ deps.mastersOf s) c.entry closed.entry := by
  obtain ⟨hdeps, -⟩ := sizes_of_propagate h
  obtain ⟨-, -, ⟨k, hk⟩, hfix⟩ := propagate_eq_ok h
  have hmore : closed.entry = (sweep deps.links)^[c.size + (k + 1)] c.entry := by
    rw [Function.iterate_add_apply, ← hk, Function.iterate_fixed (hfix rfl).2]
  rw [hmore, ← deps.linked_links]
  exact Closure.isClosure_iterate_sweep (hdeps ▸ deps.fits_links) (Nat.le_add_right _ _) _

/-- Closing to a fixed point computes the closed form over the edges from slaves to masters: each
node gets the parts of all nodes from which it is reached, and exactly the nodes that have to be
shared become so. Any other list of the same links settles on the same classification, so neither
the order of the slaves nor that of their masters matters. -/
theorem propagate_fixedPoint_isClosure (c : Classification) (deps : DependencyTable)
    (hdeps : deps.size = c.size) (hsets : c.partitions.length = c.size) :
    ∃ report closed, c.propagate deps .fixedPoint = .ok (report, closed) ∧
      closed.size = c.size ∧ closed.partitions.length = c.size ∧
      IsClosure (fun s m => m ∈ deps.mastersOf s) c.entry closed.entry ∧
      ∀ links : List Link, (∀ l, l ∈ links ↔ l.master ∈ deps.mastersOf l.slave) →
        ∃ settled, settle links (c.size + 1) c.accesses = .ok settled ∧
          settled.converged = true ∧ ofAccesses settled.table = closed := by
  have hfit := fits_accesses hdeps hsets
  have hlen := length_accesses hsets
  obtain ⟨s, hs, -, -, -, hslen, hentry⟩ := exists_settled hfit hsets
  obtain ⟨hsize, hparts⟩ := length_ofAccesses s.table
  have hclosure : IsClosure (Closure.Linked deps.links) c.entry (Closure.entry s.table) := by
    rw [hentry]
    exact Closure.isClosure_iterate_sweep (hlen ▸ hfit) (Nat.le_refl _) _
  refine ⟨_, ofAccesses s.table, propagate_fixedPoint_eq hdeps hsets hs, hsize.trans hslen,
    hparts.trans hslen, ?_, fun links hlinks => ?_⟩
  · rw [entry_ofAccesses, ← deps.linked_links]
    exact hclosure
  · -- The other list has the same edges, hence the same closed form.
    have hsame : ∀ l, l ∈ links ↔ l ∈ deps.links := fun l =>
      (hlinks l).trans DependencyTable.mem_links.symm
    have hfit' : Fits links c.accesses.length := fun l hl => hfit l ((hsame l).1 hl)
    obtain ⟨s', hs', hconv, -, -, hslen', hentry'⟩ := exists_settled hfit' hsets
    have hclosure' : IsClosure (Closure.Linked links) c.entry (Closure.entry s'.table) := by
      rw [hentry']
      exact Closure.isClosure_iterate_sweep (hlen ▸ hfit') (Nat.le_refl _) _
    have hedges : Closure.Linked links = Closure.Linked deps.links := by
      funext s m
      exact propext (hsame ⟨s, m⟩)
    rw [hedges] at hclosure'
    have htable : s'.table = s.table :=
      Closure.eq_of_entry_eq (hslen'.trans hslen.symm) (hclosure'.unique hclosure)
    exact ⟨s', hs', hconv, by rw [htable]⟩

/-- Two nodes that depend on each other. -/
def mutualDependencies : DependencyTable where
  entries := [some ⟨.rigidArm, [1]⟩, some ⟨.rigidArm, [0]⟩]
  master_lt := by simp

/-- Two local nodes, of which the second has a part that the first lacks. -/
def unevenPair : Classification :=
  ⟨[.localOnly, .localOnly], [IndexSet.ofList [0], IndexSet.ofList [0, 1]]⟩

/-- On a ring of two nodes both end shared, with the parts of both. -/
theorem propagate_fixedPoint_isClosure_ring :
    mutualDependencies.size = unevenPair.size ∧ unevenPair.partitions.length = unevenPair.size ∧
      ∃ report closed, unevenPair.propagate mutualDependencies .fixedPoint = .ok (report, closed) ∧
        IsClosure (fun s m => m ∈ mutualDependencies.mastersOf s) unevenPair.entry closed.entry ∧
        closed = ⟨[.shared, .shared], [IndexSet.ofList [0, 1], IndexSet.ofList [0, 1]]⟩ := by
  obtain ⟨report, closed, h, -, -, hclosure, -⟩ :=
    propagate_fixedPoint_isClosure unevenPair mutualDependencies rfl rfl
  have hrun : unevenPair.propagate mutualDependencies .fixedPoint = .ok (⟨.fixedPoint, 3, true⟩,
      ⟨[.shared, .shared], [IndexSet.ofList [0, 1], IndexSet.ofList [0, 1]]⟩) := by rfl
  have hclosed := Except.ok.inj (h.symm.trans hrun)
  rw [Prod.mk.injEq] at hclosed
  exact ⟨rfl, rfl, report, closed, h, hclosure, hclosed.2⟩

end Classification

end MeshPartition
