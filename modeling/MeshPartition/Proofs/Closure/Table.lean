import MeshPartition.Proofs.Closure.Order

/-!
# Passes over tables are sweeps

The closure runs on a list of accesses and looks nodes up by their position. `entry` reads such a
list as an assignment of accesses to nodes. As long as the ends of all links are positions of the
list (`Fits`), which holds of the links of a dependency table (`fits_links`), no look-up fails, and
what a pass does to a list is what `sweep` does to the assignment (`pass_eq_ok`).

`settle_eq_ok` turns a bound on the number of sweeps that still change something into a bound on the
passes of `settle`. For classifications, `propagate_singlePass_eq` and `propagate_fixedPoint_eq` say
what closing does once the sizes fit.
-/

namespace MeshPartition

namespace Closure

variable {t t' : List Access} {links : List Link} {n : ℕ}

/-- The access of a node in a table. A node past its end is local and in no part, so that it asks
for nothing. -/
def entry (t : List Access) (n : ℕ) : Access := t[n]?.getD ⟨.localOnly, ∅⟩

/-- Looking up a position of a table. -/
theorem getElem?_eq_entry (h : n < t.length) : t[n]? = some (entry t n) := by
  rw [entry, List.getElem?_eq_getElem h]
  rfl

/-- Writing an entry updates the assignment. -/
theorem entry_set {m : ℕ} (h : m < t.length) (a : Access) :
    entry (t.set m a) = Function.update (entry t) m a := by
  funext n
  by_cases hn : n = m
  · subst hn
    rw [Function.update_self, entry, List.getElem?_set_self h]
    rfl
  · rw [Function.update_of_ne hn, entry, List.getElem?_set_ne (Ne.symm hn)]
    rfl

/-- Tables of one length are equal if they assign the same accesses. -/
theorem eq_of_entry_eq (hlen : t.length = t'.length) (h : entry t = entry t') : t = t' := by
  apply List.ext_getElem?
  intro n
  rcases Nat.lt_or_ge n t.length with hn | hn
  · rw [getElem?_eq_entry hn, getElem?_eq_entry (hlen ▸ hn), h]
  · rw [List.getElem?_eq_none hn, List.getElem?_eq_none (hlen ▸ hn)]

/-- A visit between positions of the table succeeds. -/
theorem visit_eq_ok {l : Link} (hs : l.slave < t.length) (hm : l.master < t.length) :
    ∃ t', visit t l = .ok t' ∧ t'.length = t.length ∧ entry t' = step (entry t) l := by
  have hslave : entryAt t l.slave = .ok (entry t l.slave) :=
    entryAt_eq_ok_iff.2 (getElem?_eq_entry hs)
  have hmaster : entryAt t l.master = .ok (entry t l.master) :=
    entryAt_eq_ok_iff.2 (getElem?_eq_entry hm)
  refine ⟨t.set l.master (pull (entry t l.slave) (entry t l.master)), ?_, List.length_set, ?_⟩
  · rw [visit, hslave, hmaster]
    rfl
  · exact entry_set hm _

/-- A pass over links between positions of the table succeeds, and it is a sweep. -/
theorem pass_eq_ok (h : Fits links t.length) :
    ∃ t', pass links t = .ok t' ∧ t'.length = t.length ∧ entry t' = sweep links (entry t) := by
  induction links generalizing t with
  | nil => exact ⟨t, rfl, rfl, rfl⟩
  | cons l links ih =>
    obtain ⟨hs, hm⟩ := h l List.mem_cons_self
    obtain ⟨u, hu, hulen, huentry⟩ := visit_eq_ok hs hm
    -- A visit keeps the length, so the remaining links fit the table that it leaves.
    have hfit : Fits links u.length := by
      rw [hulen]
      exact fun l' hl' => h l' (List.mem_cons_of_mem l hl')
    obtain ⟨t', ht', hlen, hentry⟩ := ih hfit
    refine ⟨t', ?_, hlen.trans hulen, ?_⟩
    · rw [pass, List.foldlM_cons, hu]
      exact ht'
    · rw [hentry, huentry, sweep_cons]

/-- A pass changes nothing exactly if the sweep does not. -/
theorem pass_eq_self_iff (h : Fits links t.length) :
    pass links t = .ok t ↔ sweep links (entry t) = entry t := by
  obtain ⟨t', ht', hlen, hentry⟩ := pass_eq_ok h
  rw [ht', Except.ok.injEq, ← hentry]
  exact ⟨fun h => by rw [h], eq_of_entry_eq hlen⟩

/-- If the sweep after the first `k` changes nothing and the budget is larger than `k`, repeated
passes settle within `k + 1` passes on what the first `k` sweeps have made. -/
theorem settle_eq_ok {k budget : ℕ} (hfit : Fits links t.length)
    (hfix : sweep links ((sweep links)^[k] (entry t)) = (sweep links)^[k] (entry t))
    (hk : k < budget) :
    ∃ s, settle links budget t = .ok s ∧ s.converged = true ∧ 1 ≤ s.passes ∧ s.passes ≤ k + 1 ∧
      s.table.length = t.length ∧ entry s.table = (sweep links)^[k] (entry t) := by
  induction budget generalizing t k with
  | zero => exact absurd hk (Nat.not_lt_zero k)
  | succ budget ih =>
    obtain ⟨next, hnext, hlen, hentry⟩ := pass_eq_ok hfit
    by_cases hsame : next = t
    · -- The first pass changes nothing, so no sweep does.
      subst hsame
      refine ⟨⟨next, 1, true⟩, ?_, rfl, le_refl 1, Nat.le_add_left 1 k, rfl, ?_⟩
      · rw [settle, hnext]
        exact if_pos rfl
      · exact (Function.iterate_fixed hentry.symm k).symm
    · -- The first pass is the first of the `k` sweeps, and the induction is for the others.
      cases k with
      | zero => exact absurd (eq_of_entry_eq hlen (hentry.trans hfix)) hsame
      | succ k =>
        rw [Function.iterate_succ_apply, ← hentry] at hfix
        obtain ⟨s, hs, hconv, -, hpasses, hslen, hsentry⟩ := ih (hlen ▸ hfit) hfix (by omega)
        refine ⟨{ s with passes := s.passes + 1 }, ?_, hconv, Nat.le_add_left 1 _,
          Nat.succ_le_succ hpasses, hslen.trans hlen, ?_⟩
        · rw [settle, hnext]
          show (if next = t then _ else _) = _
          rw [if_neg hsame, hs]
          rfl
        · rw [hsentry, hentry, Function.iterate_succ_apply]

/-- The open links, with look-ups that cannot fail. -/
theorem openLinks_eq_filter {sets : List IndexSet} (h : Fits links sets.length) :
    openLinks sets links = .ok (links.filter fun l =>
      ¬ sets[l.slave]?.getD ∅ ⊆ sets[l.master]?.getD ∅) := by
  induction links with
  | nil => rfl
  | cons l links ih =>
    obtain ⟨hs, hm⟩ := h l List.mem_cons_self
    have hrest := ih fun l' hl' => h l' (List.mem_cons_of_mem l hl')
    rw [openLinks, entryAt_of_lt hs, entryAt_of_lt hm, hrest, List.filter_cons,
      List.getElem?_eq_getElem hs, List.getElem?_eq_getElem hm]
    by_cases hsub : sets[l.slave] ⊆ sets[l.master] <;> simp [hsub, bind, Except.bind, pure,
      Except.pure]

end Closure

namespace DependencyTable

/-- The links of a dependency table join each node with its masters. -/
theorem mem_links {t : DependencyTable} {l : Link} :
    l ∈ t.links ↔ l.master ∈ t.mastersOf l.slave := by
  obtain ⟨s, m⟩ := l
  simp only [links, constrained, mastersOf, find?, List.mem_flatMap, List.mem_filterMap,
    List.mem_map, Prod.exists, List.mem_zipIdx_iff_getElem?, Link.mk.injEq]
  constructor
  · -- A link comes from the entry of its slave, which then holds a dependency.
    rintro ⟨s', d, ⟨e, i, hi, he⟩, m', hm, rfl, rfl⟩
    obtain ⟨d', rfl, hd⟩ := Option.map_eq_some_iff.1 he
    rw [Prod.mk.injEq] at hd
    obtain ⟨rfl, rfl⟩ := hd
    rw [hi]
    exact hm
  · intro hm
    cases hs : t.entries[s]? with
    | none => rw [hs] at hm; exact absurd hm List.not_mem_nil
    | some e =>
      rw [hs] at hm
      cases e with
      | none => exact absurd hm List.not_mem_nil
      | some d => exact ⟨s, d, ⟨some d, s, hs, rfl⟩, m, hm, rfl, rfl⟩

/-- The ends of the links are nodes. -/
theorem fits_links (t : DependencyTable) : Closure.Fits t.links t.size := by
  intro l hl
  have hm := mem_links.1 hl
  rw [mastersOf, find?] at hm
  cases hs : t.entries[l.slave]? with
  | none => rw [hs] at hm; exact absurd hm List.not_mem_nil
  | some e =>
    rw [hs] at hm
    cases e with
    | none => exact absurd hm List.not_mem_nil
    | some d =>
      exact ⟨(List.getElem?_eq_some_iff.1 hs).1, t.master_lt d (List.mem_of_getElem? hs) _ hm⟩

/-- The links of a dependency table, as edges. -/
theorem linked_links (t : DependencyTable) :
    Closure.Linked t.links = fun s m => m ∈ t.mastersOf s := by
  funext s m
  exact propext mem_links

end DependencyTable

namespace Classification

variable {c : Classification} {deps : DependencyTable}

/-- What a classification says of a node. -/
def entry (c : Classification) : ℕ → Access := Closure.entry c.accesses

/-- The table of a classification whose halves are equally long. -/
theorem length_accesses (h : c.partitions.length = c.size) : c.accesses.length = c.size := by
  rw [accesses, List.length_zipWith, h]
  exact Nat.min_self _

/-- A table is the table of the classification that it holds. -/
theorem accesses_ofAccesses (t : List Access) : (ofAccesses t).accesses = t := by
  rw [accesses, ofAccesses, List.zipWith_map, List.zipWith_self]
  exact List.map_id t

/-- A classification whose halves are equally long is the one that its table holds. -/
theorem ofAccesses_accesses (h : c.partitions.length = c.size) : ofAccesses c.accesses = c := by
  have hstatus : c.accesses.map Access.status = c.status := by
    apply List.ext_getElem
    · rw [List.length_map, length_accesses h]
      rfl
    · intro n _ _
      simp [accesses]
  have hparts : c.accesses.map Access.partitions = c.partitions := by
    apply List.ext_getElem
    · rw [List.length_map, length_accesses h, h]
    · intro n _ _
      simp [accesses]
  rw [ofAccesses, hstatus, hparts]

/-- Classifications of one size are equal if they say the same of every node. -/
theorem eq_of_entry_eq {c' : Classification} (hsize : c.size = c'.size)
    (h : c.partitions.length = c.size) (h' : c'.partitions.length = c'.size)
    (hentry : c.entry = c'.entry) : c = c' := by
  have hlen : c.accesses.length = c'.accesses.length := by
    rw [length_accesses h, length_accesses h', hsize]
  rw [← ofAccesses_accesses h, ← ofAccesses_accesses h', Closure.eq_of_entry_eq hlen hentry]

/-- The set of a node. -/
theorem getD_partitions (h : c.partitions.length = c.size) (n : ℕ) :
    c.partitions[n]?.getD ∅ = (c.entry n).partitions := by
  rw [entry, Closure.entry, accesses, List.getElem?_zipWith]
  rcases Nat.lt_or_ge n c.size with hn | hn
  · rw [List.getElem?_eq_getElem (h ▸ hn),
      List.getElem?_eq_getElem (show n < c.status.length from hn)]
    rfl
  · rw [List.getElem?_eq_none (h ▸ hn),
      List.getElem?_eq_none (show c.status.length ≤ n from hn)]
    rfl

/-- The sizes that a closure needs. -/
theorem checkSizes_eq_ok_iff :
    c.checkSizes deps = .ok () ↔ deps.size = c.size ∧ c.partitions.length = c.size := by
  unfold checkSizes
  by_cases hd : deps.size = c.size <;> by_cases hp : c.partitions.length = c.size <;>
    simp [hd, hp, throw, throwThe, MonadExceptOf.throw, bind, Except.bind, pure, Except.pure]

/-- A closure fails as the comparison of the sizes does. -/
theorem propagate_of_checkSizes {e : Error} (h : c.checkSizes deps = .error e)
    (mode : ClosureMode) : c.propagate deps mode = .error e := by
  unfold propagate
  rw [h]
  rfl

/-- The assignment that a table makes, seen through the classification that holds it. -/
theorem entry_ofAccesses (t : List Access) : (ofAccesses t).entry = Closure.entry t := by
  rw [entry, accesses_ofAccesses]

/-- The statuses and the sets of the classification that a table holds are equally many. -/
theorem length_ofAccesses (t : List Access) :
    (ofAccesses t).size = t.length ∧ (ofAccesses t).partitions.length = t.length :=
  ⟨List.length_map _, List.length_map _⟩

/-- The links of the dependencies fit the table of a classification of the same size. -/
theorem fits_accesses (hdeps : deps.size = c.size) (hsets : c.partitions.length = c.size) :
    Closure.Fits deps.links c.accesses.length := by
  rw [length_accesses hsets, ← hdeps]
  exact deps.fits_links

/-- The open links of a classification, with look-ups that cannot fail. -/
theorem unsatisfied_eq_filter (hdeps : deps.size = c.size)
    (hsets : c.partitions.length = c.size) :
    c.unsatisfied deps = .ok (deps.links.filter fun l =>
      ¬ (c.entry l.slave).partitions ⊆ (c.entry l.master).partitions) := by
  have hfit : Closure.Fits deps.links c.partitions.length := by
    rw [hsets, ← hdeps]
    exact deps.fits_links
  rw [unsatisfied, checkSizes_eq_ok_iff.2 ⟨hdeps, hsets⟩]
  show Closure.openLinks c.partitions deps.links = _
  simp only [Closure.openLinks_eq_filter hfit, getD_partitions hsets]

/-- No links are reported if none is open. -/
theorem unsatisfied_eq_nil_iff (hdeps : deps.size = c.size) (hsets : c.partitions.length = c.size) :
    c.unsatisfied deps = .ok [] ↔ Closure.Closed deps.links c.entry := by
  rw [unsatisfied_eq_filter hdeps hsets, Except.ok.injEq, List.filter_eq_nil_iff]
  simp only [decide_eq_true_eq, not_not]
  rfl

/-- A single pass on a classification that fits the dependencies. -/
theorem propagate_singlePass_eq (hdeps : deps.size = c.size)
    (hsets : c.partitions.length = c.size) :
    ∃ t left, Closure.pass deps.links c.accesses = .ok t ∧
      (ofAccesses t).unsatisfied deps = .ok left ∧
      c.propagate deps .singlePass = .ok (⟨.singlePass, 1, left.isEmpty⟩, ofAccesses t) := by
  obtain ⟨t, ht, hlen, -⟩ := Closure.pass_eq_ok (fits_accesses hdeps hsets)
  rw [length_accesses hsets] at hlen
  obtain ⟨hsize, hparts⟩ := length_ofAccesses t
  have hdeps' : deps.size = (ofAccesses t).size := by rw [hsize, hlen, hdeps]
  have hsets' : (ofAccesses t).partitions.length = (ofAccesses t).size := by rw [hsize, hparts]
  have hopen := unsatisfied_eq_filter hdeps' hsets'
  refine ⟨t, _, ht, hopen, ?_⟩
  rw [unsatisfied, checkSizes_eq_ok_iff.2 ⟨hdeps', hsets'⟩] at hopen
  rw [propagate, checkSizes_eq_ok_iff.2 ⟨hdeps, hsets⟩]
  show (Closure.pass deps.links c.accesses >>= fun t => _) = _
  rw [ht]
  show (Closure.openLinks (ofAccesses t).partitions deps.links >>= fun left => _) = _
  rw [show Closure.openLinks (ofAccesses t).partitions deps.links = _ from hopen]
  rfl

/-- Closing a classification that fits the dependencies to a fixed point. -/
theorem propagate_fixedPoint_eq (hdeps : deps.size = c.size)
    (hsets : c.partitions.length = c.size) {s : Closure.Settled}
    (hs : Closure.settle deps.links (c.size + 1) c.accesses = .ok s) :
    c.propagate deps .fixedPoint =
      .ok (⟨.fixedPoint, s.passes, s.converged⟩, ofAccesses s.table) := by
  rw [propagate, checkSizes_eq_ok_iff.2 ⟨hdeps, hsets⟩]
  show (Closure.settle deps.links (c.size + 1) c.accesses >>= fun s => _) = _
  rw [hs]
  rfl

/-- A closure succeeds only on a classification that fits the dependencies. -/
theorem sizes_of_propagate {mode : ClosureMode} {r : ClosureReport × Classification}
    (h : c.propagate deps mode = .ok r) :
    deps.size = c.size ∧ c.partitions.length = c.size := by
  cases hc : c.checkSizes deps with
  | error e => rw [propagate_of_checkSizes hc] at h; cases h
  | ok _ => exact checkSizes_eq_ok_iff.1 hc

end Classification

end MeshPartition
