import MeshPartition.Proofs.DualGraph
import Mathlib.Tactic.SplitIfs

/-!
# Partitioners on the graph of a mesh

A partitioner that answers with an entry for each element of a mesh can count the edges it cuts
(`Partitioner.outcomeOf_ne_indexOutOfRange`), and succeeds if the entries name parts that exist
(`Partitioner.exists_outcomeOf`). The partitioners of the library check the number of entries before
they count, so that none of them asks for a position past the end of a table
(`Partitioner.BuiltIn.partition_ne_indexOutOfRange`).
-/

namespace MeshPartition

/-- Wrapping entries as an assignment reads no table. -/
theorem Assignment.ofParts_ne_indexOutOfRange (parts : List ℕ) (k : ℕ) :
    ofParts parts k ≠ .error .indexOutOfRange := by
  rw [ofParts]
  split_ifs
  · exact nofun
  · split <;> exact nofun

/-- Every element is given to a part that exists. Assignments that are read from elsewhere need not
be so. -/
def Assignment.InRange (a : Assignment) : Prop := ∀ q ∈ a.parts, q < a.partCount

/-- Entries are wrapped as they are if there are parts and each entry names one of them. -/
theorem Assignment.ofParts_eq_ok_iff {parts : List ℕ} {k : ℕ} {a : Assignment} :
    ofParts parts k = .ok a ↔ 0 < k ∧ a.InRange ∧ a = ⟨parts, k⟩ := by
  rw [ofParts, Nat.pos_iff_ne_zero]
  split_ifs with hk
  · exact ⟨nofun, fun h => absurd hk h.1⟩
  · split
    · rename_i part element hfind
      -- The entry that was found is past the last part.
      refine ⟨nofun, fun ⟨_, hrange, ha⟩ => ?_⟩
      subst ha
      have hmem := List.fst_mem_of_mem_zipIdx (List.mem_of_find?_eq_some hfind)
      have hle := List.find?_some hfind
      exact absurd (hrange part hmem) (Nat.not_lt.2 (of_decide_eq_true hle))
    · rename_i hfind
      have hrange : InRange ⟨parts, k⟩ := by
        intro q hq
        obtain ⟨e, he⟩ := List.getElem?_of_mem hq
        have hnone := List.find?_eq_none.1 hfind (q, e) (List.mem_zipIdx_iff_getElem?.2 he)
        exact Nat.lt_of_not_le fun hle => hnone (decide_eq_true hle)
      rw [Except.ok.injEq, eq_comm]
      exact ⟨fun h => ⟨hk, h ▸ hrange, h⟩, fun h => h.2.2⟩

/-- Entries that are wrapped are kept. -/
theorem Assignment.eq_of_ofParts {parts : List ℕ} {k : ℕ} {a : Assignment}
    (h : ofParts parts k = .ok a) : a = ⟨parts, k⟩ := (ofParts_eq_ok_iff.1 h).2.2

namespace Partitioner

/-- The partitioners of the library. What is said of all of them is said of the formula of `block`,
also where the loop that computes the blocks in 64 bits would overflow. -/
inductive BuiltIn : Partitioner → Prop where
  | manual (parts : List ℕ) : BuiltIn (.manual parts)
  | block : BuiltIn .block
  | metis : BuiltIn .metis

/-- An outcome with given entries has these as its assignment and their cut edges as its count. -/
theorem outcomeOf_eq_ok_iff {g : DualGraph} {parts : List ℕ} {k : ℕ} {outcome : Outcome} :
    outcomeOf g parts k = .ok outcome ↔ Assignment.ofParts parts k = .ok outcome.assignment ∧
      g.edgeCut outcome.assignment = .ok outcome.edgeCut := by
  rw [outcomeOf, bind_eq_ok_iff]
  constructor
  · rintro ⟨a, ha, h⟩
    obtain ⟨cut, hcut, h⟩ := bind_eq_ok_iff.1 h
    cases h
    exact ⟨ha, hcut⟩
  · rintro ⟨ha, hcut⟩
    exact ⟨_, ha, bind_eq_ok_iff.2 ⟨_, hcut, rfl⟩⟩

/-- If a partitioner of the library succeeds it has wrapped an entry for each vertex. It has counted
the edges that these cut, unless there is only one part. -/
theorem BuiltIn.exists_parts {partitioner : Partitioner} (h : BuiltIn partitioner) {g : DualGraph}
    {k : ℕ} {outcome : Outcome} (hok : partitioner.partition g k = .ok outcome) :
    ∃ parts, parts.length = g.vertexCount ∧
      Assignment.ofParts parts k = .ok outcome.assignment ∧
      (g.edgeCut outcome.assignment = .ok outcome.edgeCut ∨ k = 1 ∧ outcome.edgeCut = 0) := by
  cases h with
  | manual parts =>
    change (if k = 0 then throw _ else if _ then throw _ else outcomeOf g parts k) = _ at hok
    split_ifs at hok with hk hlength
    obtain ⟨hparts, hcut⟩ := outcomeOf_eq_ok_iff.1 hok
    exact ⟨parts, not_not.1 hlength, hparts, Or.inl hcut⟩
  | block =>
    change (if k = 0 then throw _ else outcomeOf g _ k) = _ at hok
    split_ifs at hok with hk
    obtain ⟨hparts, hcut⟩ := outcomeOf_eq_ok_iff.1 hok
    exact ⟨_, by rw [List.length_map, List.length_range], hparts, Or.inl hcut⟩
  | metis =>
    change (if k = 0 then throw _ else if k = 1 then
      Assignment.ofParts (List.replicate g.vertexCount 0) 1 >>= fun a => pure (Outcome.mk 0 a)
      else throw _) = _ at hok
    split_ifs at hok with hk hone
    subst hone
    obtain ⟨a, ha, h⟩ := bind_eq_ok_iff.1 hok
    cases h
    exact ⟨_, List.length_replicate, ha, Or.inr ⟨rfl, rfl⟩⟩

/-- Entries for all elements of a mesh are wrapped and their cut edges counted without a position
past the end of a table. -/
theorem outcomeOf_ne_indexOutOfRange {m : Mesh} {parts : List ℕ}
    (hparts : parts.length = m.elementCount) (k : ℕ) :
    outcomeOf (.ofRows (DualGraph.rowsOf m)) parts k ≠ .error .indexOutOfRange := by
  rw [outcomeOf]
  cases ha : Assignment.ofParts parts k with
  | error e =>
    intro h
    cases h
    exact Assignment.ofParts_ne_indexOutOfRange parts k ha
  | ok a =>
    have hsize : a.size = m.elementCount := by
      rw [Assignment.eq_of_ofParts ha]
      exact hparts
    show (DualGraph.edgeCut _ a >>= fun edgeCut => _) ≠ _
    rw [DualGraph.edgeCut_rowsOf_eq_countP hsize]
    exact nofun

/-- Entries for all elements of a mesh that name parts which exist are an outcome. -/
theorem exists_outcomeOf {m : Mesh} {parts : List ℕ} {k : ℕ} (hk : 0 < k)
    (hparts : parts.length = m.elementCount) (hrange : ∀ q ∈ parts, q < k) :
    ∃ edgeCut, outcomeOf (.ofRows (DualGraph.rowsOf m)) parts k = .ok ⟨edgeCut, ⟨parts, k⟩⟩ := by
  have hwrapped : Assignment.ofParts parts k = .ok ⟨parts, k⟩ :=
    Assignment.ofParts_eq_ok_iff.2 ⟨hk, hrange, rfl⟩
  have hsize : Assignment.size ⟨parts, k⟩ = m.elementCount := hparts
  exact ⟨_, outcomeOf_eq_ok_iff.2 ⟨hwrapped, DualGraph.edgeCut_rowsOf_eq_countP hsize⟩⟩

/-- The partitioners of the library ask the graph of a mesh for no position past the end of a
table. -/
theorem BuiltIn.partition_ne_indexOutOfRange {partitioner : Partitioner}
    (h : BuiltIn partitioner) (m : Mesh) (k : ℕ) :
    partitioner.partition (.ofRows (DualGraph.rowsOf m)) k ≠ .error .indexOutOfRange := by
  cases h with
  | manual parts =>
    show (if k = 0 then throw _ else if _ then throw _ else _) ≠ _
    split_ifs with hk hparts
    · exact nofun
    · exact nofun
    · rw [not_not, DualGraph.vertexCount_ofRows, DualGraph.length_rowsOf] at hparts
      exact outcomeOf_ne_indexOutOfRange hparts k
  | block =>
    show (if k = 0 then throw _ else outcomeOf _ _ _) ≠ _
    split_ifs with hk
    · exact nofun
    · refine outcomeOf_ne_indexOutOfRange ?_ k
      rw [List.length_map, List.length_range, DualGraph.vertexCount_ofRows,
        DualGraph.length_rowsOf]
  | metis =>
    show (if k = 0 then throw _ else if k = 1 then Assignment.ofParts _ 1 >>= _ else throw _) ≠ _
    split_ifs with hk hone
    · exact nofun
    · rw [DualGraph.vertexCount_ofRows]
      cases ha : Assignment.ofParts (List.replicate (DualGraph.rowsOf m).length 0) 1 with
      | error e =>
        intro h
        cases h
        exact Assignment.ofParts_ne_indexOutOfRange _ 1 ha
      | ok a => exact nofun
    · exact nofun

end Partitioner

end MeshPartition
