import MeshPartition.NodeList
import MeshPartition.Proofs.Partitioner
import Mathlib.Data.Fin.Basic
import Mathlib.Data.List.Nodup
import Mathlib.Logic.Equiv.Basic

/-!
# Renaming the parts

The numbers of the parts are names. This module says what another choice of names does to the sets
of parts, to the assignment of the elements and to all that holds such sets, and that the stages up
to the classification go along: the renamed assignment cuts the same edges (`edgeCut_relabel`), and
the classification by it is the renamed classification (`ofAssignment_relabel`).

The new names come from a permutation of all numbers. `newName` makes one of a permutation of the
parts, which leaves the numbers that name no part where they are.
-/

namespace MeshPartition

variable {π : Equiv.Perm ℕ}

/-- A permutation of the first `k` numbers, on all numbers. -/
def newName {k : ℕ} (σ : Equiv.Perm (Fin k)) : Equiv.Perm ℕ := σ.extendDomain Fin.equivSubtype

/-- The permutation of the parts, seen on numbers. -/
theorem newName_apply {k : ℕ} (σ : Equiv.Perm (Fin k)) (p : Fin k) : newName σ p = σ p :=
  σ.extendDomain_apply_image Fin.equivSubtype p

/-- Numbers that name no part stay. -/
theorem newName_eq_self {k p : ℕ} (σ : Equiv.Perm (Fin k)) (hp : k ≤ p) : newName σ p = p :=
  σ.extendDomain_apply_not_subtype Fin.equivSubtype (Nat.not_lt.2 hp)

/-- Numbers that name no part are no new names. -/
theorem le_newName_iff {k p : ℕ} (σ : Equiv.Perm (Fin k)) : k ≤ newName σ p ↔ k ≤ p := by
  rcases Nat.lt_or_ge p k with hp | hp
  · have hpart : newName σ p < k := (newName_apply σ ⟨p, hp⟩).trans_lt (σ ⟨p, hp⟩).isLt
    exact iff_of_false (Nat.not_le.2 hpart) (Nat.not_le.2 hp)
  · rw [newName_eq_self σ hp]

/-- The new name of a part is one of a part. -/
theorem newName_lt_iff {k p : ℕ} (σ : Equiv.Perm (Fin k)) : newName σ p < k ↔ p < k := by
  rw [← Nat.not_le, ← Nat.not_le, le_newName_iff]

namespace IndexSet

variable {s t : IndexSet} {x : ℕ}

/-- The set of the renamed members. -/
def relabel (π : Equiv.Perm ℕ) (s : IndexSet) : IndexSet := ofList (s.toList.map π)

/-- A renamed set holds a number if the set holds what the number is the new name of. -/
@[simp] theorem mem_relabel : x ∈ s.relabel π ↔ π.symm x ∈ s := by
  rw [relabel, mem_ofList, List.mem_map]
  constructor
  · rintro ⟨a, ha, rfl⟩
    rwa [π.symm_apply_apply]
  · exact fun hx => ⟨_, hx, π.apply_symm_apply x⟩

/-- The renamed set holds the new name of a member. -/
theorem apply_mem_relabel : π x ∈ s.relabel π ↔ x ∈ s := by rw [mem_relabel, π.symm_apply_apply]

/-- Renaming keeps inclusions. -/
theorem relabel_subset_iff : s.relabel π ⊆ t.relabel π ↔ s ⊆ t := by
  constructor
  · exact fun h x hx => apply_mem_relabel.1 (h _ (apply_mem_relabel.2 hx))
  · exact fun h x hx => mem_relabel.2 (h _ (mem_relabel.1 hx))

/-- No two sets are renamed to the same. -/
theorem relabel_injective : Function.Injective (relabel π) := fun s t h =>
  ext fun x => by rw [← apply_mem_relabel (s := s), h, apply_mem_relabel]

/-- The members of either set, renamed. -/
theorem relabel_union : (s ∪ t).relabel π = s.relabel π ∪ t.relabel π := ext fun x => by simp

/-- A set without a member, renamed. -/
theorem relabel_erase : (s.erase x).relabel π = (s.relabel π).erase (π x) :=
  ext fun y => by simp [Equiv.symm_apply_eq]

/-- Only the empty set is renamed to the empty set. -/
theorem relabel_eq_empty_iff : s.relabel π = ∅ ↔ s = ∅ :=
  relabel_injective.eq_iff' (by rfl)

/-- Renaming keeps the number of members. -/
theorem size_relabel (s : IndexSet) : (s.relabel π).size = s.size := by
  -- The names of the members are as many, and they stand in another order.
  have hnames : (s.toList.map π).Nodup := List.Nodup.map π.injective (s.sorted.imp Nat.ne_of_lt)
  have hperm : (s.relabel π).toList.Perm (s.toList.map π) :=
    (List.perm_ext_iff_of_nodup ((s.relabel π).sorted.imp Nat.ne_of_lt) hnames).2
      fun x => mem_ofList
  exact hperm.length_eq.trans (List.length_map π)

end IndexSet

namespace IndexMap

variable {β γ : Type} {f : β → γ}

/-- The map with other values at the same keys. -/
def map (f : β → γ) (m : IndexMap β) : IndexMap γ where
  entries := m.entries.map fun e => (e.1, f e.2)
  sorted := by
    rw [List.map_map]
    exact m.sorted

/-- The value at a key in a list of changed entries. -/
theorem lookup_map (f : β → γ) (k : ℕ) (es : List (ℕ × β)) :
    lookup k (es.map fun e => (e.1, f e.2)) = (lookup k es).map f := by
  induction es with
  | nil => rfl
  | cons e es ih =>
    rw [List.map_cons, lookup, lookup, ih]
    split_ifs <;> rfl

/-- The value at a key is the changed value. -/
theorem find?_map (f : β → γ) (m : IndexMap β) (k : ℕ) : (m.map f).find? k = (m.find? k).map f :=
  lookup_map f k m.entries

/-- The keys stay. -/
theorem keys_map (f : β → γ) (m : IndexMap β) : (m.map f).keys = m.keys :=
  IndexSet.ext fun k => by rw [mem_keys, mem_keys, find?_map, Option.isSome_map]

end IndexMap

/-- The assignment to the renamed parts. -/
def Assignment.relabel (π : Equiv.Perm ℕ) (a : Assignment) : Assignment :=
  ⟨a.parts.map π, a.partCount⟩

/-- The outcome with renamed parts. -/
def Outcome.relabel (π : Equiv.Perm ℕ) (o : Outcome) : Outcome :=
  ⟨o.edgeCut, o.assignment.relabel π⟩

/-- The access from the renamed parts. -/
def Access.relabel (π : Equiv.Perm ℕ) (a : Access) : Access := ⟨a.status, a.partitions.relabel π⟩

/-- The classification with renamed parts; statuses stay. -/
def Classification.relabel (π : Equiv.Perm ℕ) (c : Classification) : Classification :=
  ⟨c.status, c.partitions.map (IndexSet.relabel π)⟩

/-- The list of the same elements and nodes for the renamed part, with renamed parts at the shared
nodes. -/
def NodeList.relabel (π : Equiv.Perm ℕ) (l : NodeList) : NodeList :=
  ⟨π l.partition, l.elements, l.localNodes, l.sharedNodes.map (IndexSet.relabel π)⟩

/-- Reading an entry of a table whose entries have been changed. -/
theorem entryAt_map {α β : Type} (f : α → β) (table : List α) (i : ℕ) :
    entryAt (table.map f) i = f <$> entryAt table i := by
  rw [entryAt, entryAt, List.getElem?_map]
  cases table[i]? <;> rfl

namespace Assignment

variable {a : Assignment} {p e n : ℕ}

/-- The renamed part of an element. -/
theorem partOf_relabel (a : Assignment) (e : ℕ) : (a.relabel π).partOf e = π <$> a.partOf e :=
  entryAt_map π a.parts e

/-- The renamed part owns an element if the part does. -/
theorem getElem?_relabel : (a.relabel π).parts[e]? = some (π p) ↔ a.parts[e]? = some p := by
  rw [relabel, List.getElem?_map, Option.map_eq_some_iff]
  simp only [π.injective.eq_iff, exists_eq_right]

/-- The renamed part has the same elements. -/
theorem elementsOf_relabel (a : Assignment) (p : ℕ) :
    (a.relabel π).elementsOf (π p) = a.elementsOf p := by
  rw [elementsOf, elementsOf, relabel, List.zipIdx_map, List.filter_map, List.map_map]
  simp only [Function.comp_def, Prod.map_fst, Prod.map_snd, π.injective.eq_iff, id_eq]

/-- The renamed part meets at the same nodes. -/
theorem apply_mem_incidentParts_relabel {m : Mesh} :
    π p ∈ m.incidentParts (a.relabel π) n ↔ p ∈ m.incidentParts a n := by
  simp only [Mesh.incidentParts, Set.mem_ofPred_eq, getElem?_relabel]

/-- The renamed parts meet at a node. -/
theorem partSet_relabel (inc : Incidence) (a : Assignment) (n : ℕ) :
    inc.partSet (a.relabel π) n = (inc.partSet a n).relabel π := by
  refine IndexSet.ext fun q => ?_
  obtain ⟨p, rfl⟩ := π.surjective q
  simp only [IndexSet.apply_mem_relabel, Incidence.mem_partSet, getElem?_relabel]

/-- Entries can be wrapped if the renamed ones can. A number that names no part keeps its name, so
that it is objected to in the same words. -/
theorem ofParts_relabel {k : ℕ} (σ : Equiv.Perm (Fin k)) (parts : List ℕ) :
    ofParts (parts.map (newName σ)) k = relabel (newName σ) <$> ofParts parts k := by
  have hfind : (parts.map (newName σ)).zipIdx.find? (k ≤ ·.1) =
      (parts.zipIdx.find? (k ≤ ·.1)).map (Prod.map (newName σ) id) := by
    rw [List.zipIdx_map, List.find?_map]
    simp only [Function.comp_def, Prod.map_fst, le_newName_iff]
  rw [ofParts, ofParts, hfind]
  split_ifs
  · rfl
  · cases hbad : parts.zipIdx.find? (k ≤ ·.1) with
    | none => rfl
    | some bad =>
      have hpart : k ≤ bad.1 := by simpa using List.find?_some hbad
      simp only [Option.map_some, Prod.map, newName_eq_self σ hpart]
      rfl

end Assignment

namespace DualGraph

/-- The ends of an edge lie in different parts if they do so after renaming. -/
theorem countCut_relabel (a : Assignment) (es : List (ℕ × ℕ)) :
    countCut (a.relabel π) es = countCut a es := by
  induction es with
  | nil => rfl
  | cons e es ih =>
    obtain ⟨u, v⟩ := e
    simp only [countCut, Assignment.partOf_relabel, ih, bind_map_left, π.injective.eq_iff]

/-- Renaming the parts keeps the number of edges that are cut. -/
theorem edgeCut_relabel (g : DualGraph) (a : Assignment) :
    g.edgeCut (a.relabel π) = g.edgeCut a := by
  simp only [edgeCut, countCut_relabel]

end DualGraph

namespace Partitioner

variable {k : ℕ}

/-- The outcome for renamed entries is the renamed outcome. -/
theorem outcomeOf_relabel (σ : Equiv.Perm (Fin k)) (g : DualGraph) (parts : List ℕ) :
    outcomeOf g (parts.map (newName σ)) k =
      Outcome.relabel (newName σ) <$> outcomeOf g parts k := by
  simp only [outcomeOf, Assignment.ofParts_relabel, bind_map_left, map_bind,
    DualGraph.edgeCut_relabel, map_pure]
  rfl

/-- The partitioner for a renamed list answers with the renamed outcome. -/
theorem partition_manual_relabel (σ : Equiv.Perm (Fin k)) (parts : List ℕ) (g : DualGraph) :
    (manual (parts.map (newName σ))).partition g k =
      Outcome.relabel (newName σ) <$> (manual parts).partition g k := by
  show (if k = 0 then throw _ else if (parts.map _).length ≠ _ then throw _ else _) =
    Outcome.relabel _ <$> (if k = 0 then throw _ else if parts.length ≠ _ then throw _ else _)
  rw [List.length_map]
  split_ifs
  · rfl
  · rfl
  · exact outcomeOf_relabel σ g parts

end Partitioner

namespace Classification

/-- A node belongs to as many parts after renaming. -/
theorem statusOf_relabel (parts : IndexSet) : statusOf (parts.relabel π) = statusOf parts := by
  rw [statusOf, statusOf, IndexSet.size_relabel]

/-- The classification by the renamed assignment is the renamed classification. -/
theorem ofAssignment_relabel {inc : Incidence} {a : Assignment} {c : Classification}
    (h : ofAssignment inc a = .ok c) : ofAssignment inc (a.relabel π) = .ok (c.relabel π) := by
  obtain ⟨hsize, rfl⟩ := ofAssignment_eq_ok_iff.1 h
  have hsets : inc.partSet (a.relabel π) = fun n => (inc.partSet a n).relabel π :=
    funext (Assignment.partSet_relabel inc a)
  refine ofAssignment_eq_ok_iff.2 ⟨(List.length_map π).trans hsize, ?_⟩
  simp only [relabel, hsets, List.map_map, Function.comp_def, statusOf_relabel]

end Classification

end MeshPartition
