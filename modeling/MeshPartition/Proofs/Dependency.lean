import MeshPartition.Dependency
import Mathlib.Data.List.Basic

/-!
# Which dependencies resolve

All dependencies of a mesh can be resolved if each of them can (`exists_resolveAll_iff`), and
otherwise the first node that cannot be resolved decides the error (`resolveAll_eq_error_iff`).
-/

namespace MeshPartition.Mesh

variable {m : Mesh} {is : List ℕ} {i n : ℕ} {e : Error}

/-- Resolving some nodes succeeds if it does for each of them. -/
theorem exists_resolveEach_iff :
    (∃ ds, m.resolveEach is = .ok ds) ↔ ∀ i ∈ is, ∃ d, m.resolve i = .ok d := by
  induction is with
  | nil => exact ⟨fun _ i hi => absurd hi List.not_mem_nil, fun _ => ⟨[], rfl⟩⟩
  | cons i is ih =>
    rw [List.forall_mem_cons, ← ih]
    constructor
    · rintro ⟨ds, h⟩
      obtain ⟨d, rest, hi, hrest, -⟩ := resolveEach_cons_eq_ok_iff.1 h
      exact ⟨⟨d, hi⟩, rest, hrest⟩
    · rintro ⟨⟨d, hi⟩, rest, hrest⟩
      exact ⟨d :: rest, resolveEach_cons_eq_ok_iff.2 ⟨d, rest, hi, hrest, rfl⟩⟩

/-- After a node that resolves, the others decide whether resolving fails. -/
theorem resolveEach_cons_eq_error_iff {d : Option Dependency} (hi : m.resolve i = .ok d) :
    m.resolveEach (i :: is) = .error e ↔ m.resolveEach is = .error e := by
  rw [resolveEach, hi]
  cases m.resolveEach is with
  | error e' => rfl
  | ok ds => exact ⟨fun h => (by cases h), fun h => (by cases h)⟩

/-- The first of some nodes that cannot be resolved decides the error. -/
theorem resolveEach_eq_error_iff : m.resolveEach is = .error e ↔
    ∃ before i after, is = before ++ i :: after ∧ (∀ k ∈ before, ∃ d, m.resolve k = .ok d) ∧
      m.resolve i = .error e := by
  induction is with
  | nil =>
    refine ⟨fun h => (by cases h), ?_⟩
    rintro ⟨before, i, after, h, -⟩
    simp at h
  | cons j js ih =>
    simp only [List.cons_eq_append_iff]
    cases hj : m.resolve j with
    | error e' =>
      have hcons : m.resolveEach (j :: js) = .error e' := by
        rw [resolveEach, hj]
        rfl
      rw [hcons, Except.error.injEq]
      constructor
      · rintro rfl
        exact ⟨[], j, js, Or.inl ⟨rfl, rfl⟩, fun k hk => absurd hk List.not_mem_nil, hj⟩
      · rintro ⟨before, i, after, ⟨rfl, hsplit⟩ | ⟨tail, rfl, -⟩, hbefore, hi⟩
        · obtain ⟨rfl, -⟩ := List.cons.inj hsplit
          exact Except.error.inj (hj.symm.trans hi)
        · obtain ⟨d, hd⟩ := hbefore j List.mem_cons_self
          rw [hj] at hd
          cases hd
    | ok d =>
      rw [resolveEach_cons_eq_error_iff hj, ih]
      constructor
      · rintro ⟨before, i, after, rfl, hbefore, hi⟩
        exact ⟨j :: before, i, after, Or.inr ⟨before, rfl, rfl⟩,
          List.forall_mem_cons.2 ⟨⟨d, hj⟩, hbefore⟩, hi⟩
      · rintro ⟨before, i, after, ⟨rfl, hsplit⟩ | ⟨tail, rfl, hsplit⟩, hbefore, hi⟩
        · obtain ⟨rfl, -⟩ := List.cons.inj hsplit
          rw [hj] at hi
          cases hi
        · exact ⟨tail, i, after, hsplit, (List.forall_mem_cons.1 hbefore).2, hi⟩

/-- The dependencies of a mesh can be resolved if each of them can. -/
theorem exists_resolveAll_iff :
    (∃ deps, m.resolveAll = .ok deps) ↔ ∀ n < m.nodeCount, ∃ d, m.resolve n = .ok d := by
  have heach := @exists_resolveEach_iff m (List.range m.nodeCount)
  simp only [List.mem_range] at heach
  rw [← heach]
  constructor
  · rintro ⟨deps, h⟩
    exact ⟨deps.entries, resolveAll_eq_ok_iff.1 h⟩
  · rintro ⟨ds, h⟩
    have hlt : ∀ d, some d ∈ ds → ∀ j ∈ d.masters, j < ds.length := by
      rw [length_of_resolveEach h, List.length_range]
      exact lt_of_mem_resolveEach h
    exact ⟨⟨ds, hlt⟩, resolveAll_eq_ok_iff.2 h⟩

/-- The table of a mesh has an entry for each node. -/
theorem size_of_resolveAll {deps : DependencyTable} (h : m.resolveAll = .ok deps) :
    deps.size = m.nodeCount :=
  (length_of_resolveEach (resolveAll_eq_ok_iff.1 h)).trans List.length_range

/-- The first node whose constraint does not resolve decides the error. -/
theorem resolveAll_eq_error_iff : m.resolveAll = .error e ↔
    ∃ n < m.nodeCount, (∀ k < n, ∃ d, m.resolve k = .ok d) ∧ m.resolve n = .error e := by
  have heach : m.resolveAll = .error e ↔ m.resolveEach (List.range m.nodeCount) = .error e := by
    unfold resolveAll
    split
    · rename_i e' h
      rw [h, Except.error.injEq, Except.error.injEq]
    · rename_i ds h
      exact ⟨fun h' => (by cases h'), fun h' => (by cases h.symm.trans h')⟩
  rw [heach, resolveEach_eq_error_iff]
  constructor
  · rintro ⟨before, n, after, hsplit, hbefore, hn⟩
    -- What precedes a number in the range are the numbers below it.
    rw [List.range_eq_range', List.range'_eq_append_iff] at hsplit
    obtain ⟨k, -, rfl, hrest⟩ := hsplit
    obtain ⟨hkn, hlt, -⟩ := List.range'_eq_cons_iff.1 hrest.symm
    have hk : k = n := by omega
    subst hk
    exact ⟨k, by omega, fun j hj => hbefore j (by simpa using hj), hn⟩
  · rintro ⟨n, hlt, hbefore, hn⟩
    have hsplit : List.range m.nodeCount =
        List.range n ++ n :: List.range' (n + 1) (m.nodeCount - n - 1) := by
      rw [List.range_eq_range', List.range_eq_range', List.range'_eq_append_iff]
      exact ⟨n, Nat.le_of_lt hlt, rfl, (List.range'_eq_cons_iff.2 ⟨by omega, by omega, rfl⟩).symm⟩
    exact ⟨_, n, _, hsplit, fun k hk => hbefore k (List.mem_range.1 hk), hn⟩

end MeshPartition.Mesh
