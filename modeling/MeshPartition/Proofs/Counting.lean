import MeshPartition.IndexSet
import Mathlib.Data.List.Nodup
import Mathlib.Data.Set.Card

/-!
# Counting what lists hold

A list without repeats is as long as the set of its members is large (`ncard_setOf_mem`), so that
the sizes of tables can be compared with sets that are described without them. Lists that hold
disjoint sets have the lengths of these sets together (`sum_length_eq_ncard`), and lists that hold
what is related to their positions have one entry for each related pair
(`sum_length_eq_ncard_pairs`). If the relation is symmetric these are twice as many as the pairs in
ascending order (`ncard_symmetric_pairs`).
-/

namespace MeshPartition

/-- A list without repeats has as many entries as members. -/
theorem ncard_setOf_mem {α : Type} {as : List α} (h : as.Nodup) :
    {x | x ∈ as}.ncard = as.length := by
  classical
  rw [← List.coe_toFinset, Set.ncard_coe_finset, List.toFinset_card_of_nodup h]

/-- If the list at each position holds what belongs to the position, each thing once, and nothing
belongs to two positions, then the lengths of the lists add up to the number of things that belong
to a position. -/
theorem sum_length_eq_ncard {α : Type} {ls : List (List α)} (belongs : ℕ → α → Prop)
    (hlists : ∀ p as, ls[p]? = some as → as.Nodup ∧ ∀ x, x ∈ as ↔ belongs p x)
    (hunique : ∀ p q x, belongs p x → belongs q x → p = q) :
    (ls.map List.length).sum = {x | ∃ p < ls.length, belongs p x}.ncard := by
  have hnodup : ls.flatten.Nodup := by
    rw [List.nodup_flatten]
    constructor
    · intro as has
      obtain ⟨p, hp⟩ := List.getElem?_of_mem has
      exact (hlists p as hp).1
    · rw [List.pairwise_iff_getElem]
      intro p q hp hq hpq x hxp hxq
      have hbelongsp := ((hlists p _ (List.getElem?_eq_getElem hp)).2 x).1 hxp
      have hbelongsq := ((hlists q _ (List.getElem?_eq_getElem hq)).2 x).1 hxq
      exact absurd (hunique p q x hbelongsp hbelongsq) (Nat.ne_of_lt hpq)
  have hmem : {x | ∃ p < ls.length, belongs p x} = {x | x ∈ ls.flatten} := by
    ext x
    show (∃ p < ls.length, belongs p x) ↔ x ∈ ls.flatten
    rw [List.mem_flatten]
    constructor
    · rintro ⟨p, hp, hx⟩
      exact ⟨ls[p], List.getElem_mem hp, ((hlists p _ (List.getElem?_eq_getElem hp)).2 x).2 hx⟩
    · rintro ⟨as, has, hx⟩
      obtain ⟨p, hp⟩ := List.getElem?_of_mem has
      exact ⟨p, (List.getElem?_eq_some_iff.1 hp).1, ((hlists p as hp).2 x).1 hx⟩
  rw [hmem, ncard_setOf_mem hnodup, List.length_flatten]

/-- If the list at each position holds what is related to the position, each thing once, and nothing
else is related, then the lengths of the lists add up to the number of related pairs. -/
theorem sum_length_eq_ncard_pairs {ls : List (List ℕ)} {related : ℕ → ℕ → Prop}
    (hlists : ∀ p as, ls[p]? = some as → as.Nodup ∧ ∀ x, x ∈ as ↔ related p x)
    (hlt : ∀ p x, related p x → p < ls.length) :
    (ls.map List.length).sum = {x : ℕ × ℕ | related x.1 x.2}.ncard := by
  -- With its position each entry is a pair, and no pair stands in two lists.
  let pairs := ls.mapIdx fun p as => as.map (p, ·)
  have hlength : pairs.length = ls.length := List.length_mapIdx
  have hsame : pairs.map List.length = ls.map List.length := by
    apply List.ext_getElem?
    intro p
    simp only [pairs, List.getElem?_map, List.getElem?_mapIdx]
    cases ls[p]? with
    | none => rfl
    | some as => exact congrArg some (List.length_map _)
  have hset : {x : ℕ × ℕ | related x.1 x.2} =
      {x | ∃ p < pairs.length, x.1 = p ∧ related p x.2} := by
    ext ⟨p, x⟩
    rw [hlength]
    exact ⟨fun hx => ⟨p, hlt p x hx, rfl, hx⟩, fun ⟨_, _, rfl, hx⟩ => hx⟩
  rw [← hsame, hset]
  refine sum_length_eq_ncard (fun p (x : ℕ × ℕ) => x.1 = p ∧ related p x.2)
    (fun p as has => ?_) fun p q x hp hq => hp.1.symm.trans hq.1
  rw [List.getElem?_mapIdx, Option.map_eq_some_iff] at has
  obtain ⟨bs, hbs, rfl⟩ := has
  obtain ⟨hnodup, hmem⟩ := hlists p bs hbs
  refine ⟨hnodup.map fun _ _ heq => (Prod.mk.inj heq).2, fun ⟨q, x⟩ => ?_⟩
  rw [List.mem_map]
  constructor
  · rintro ⟨y, hy, heq⟩
    cases heq
    exact ⟨rfl, (hmem _).1 hy⟩
  · rintro ⟨rfl, hx⟩
    exact ⟨x, (hmem x).2 hx, rfl⟩

/-- The pairs of a symmetric relation that relates nothing to itself are twice as many as those in
ascending order. -/
theorem ncard_symmetric_pairs {related : ℕ → ℕ → Prop}
    (hsymm : ∀ x y, related x y → related y x) (hirrefl : ∀ x, ¬ related x x)
    (hfinite : {x : ℕ × ℕ | x.1 < x.2 ∧ related x.1 x.2}.Finite) :
    {x : ℕ × ℕ | related x.1 x.2}.ncard =
      2 * {x : ℕ × ℕ | x.1 < x.2 ∧ related x.1 x.2}.ncard := by
  -- The others are the same pairs read the other way round.
  have hsplit : {x : ℕ × ℕ | related x.1 x.2} = {x | x.1 < x.2 ∧ related x.1 x.2} ∪
      Prod.swap '' {x | x.1 < x.2 ∧ related x.1 x.2} := by
    rw [Set.image_swap_eq_preimage_swap]
    ext ⟨x, y⟩
    constructor
    · intro hxy
      rcases Nat.lt_trichotomy x y with hlt | rfl | hgt
      · exact Or.inl ⟨hlt, hxy⟩
      · exact absurd hxy (hirrefl x)
      · exact Or.inr ⟨hgt, hsymm x y hxy⟩
    · rintro (⟨-, hxy⟩ | ⟨-, hyx⟩)
      · exact hxy
      · exact hsymm y x hyx
  have hdisjoint : Disjoint {x : ℕ × ℕ | x.1 < x.2 ∧ related x.1 x.2}
      (Prod.swap '' {x | x.1 < x.2 ∧ related x.1 x.2}) := by
    rw [Set.image_swap_eq_preimage_swap, Set.disjoint_left]
    rintro ⟨x, y⟩ ⟨hlt, -⟩ ⟨hgt, -⟩
    exact Nat.lt_asymm hlt hgt
  rw [hsplit, Set.ncard_union_eq hdisjoint hfinite (hfinite.image _),
    Set.ncard_image_of_injective _ Prod.swap_injective, two_mul]

namespace IndexSet

variable {s : IndexSet}

/-- No member is listed twice. -/
theorem nodup_toList (s : IndexSet) : s.toList.Nodup := s.sorted.imp Nat.ne_of_lt

/-- The size of a set is the number of its members. -/
theorem size_eq_ncard (s : IndexSet) : s.size = {q | q ∈ s}.ncard :=
  (ncard_setOf_mem s.nodup_toList).symm

/-- A set of size one has a single member. -/
theorem size_eq_one_iff : s.size = 1 ↔ ∃ p, {q | q ∈ s} = {p} := by
  rw [size_eq_ncard, Set.ncard_eq_one]

/-- A set of size two or more has different members. -/
theorem one_lt_size_iff : 1 < s.size ↔ ∃ p q, p ∈ s ∧ q ∈ s ∧ p ≠ q := by
  have hfinite : {q | q ∈ s}.Finite := List.finite_toSet s.toList
  rw [size_eq_ncard, Set.one_lt_ncard_iff hfinite]
  rfl

end IndexSet

end MeshPartition
