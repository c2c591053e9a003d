import MeshPartition.Proofs.Counting
import MeshPartition.Proofs.Shape

/-!
# Incidence tables that are filled in place

A program that fills the rows of an incidence table looks at a row only where it ends. That this
leaves no element out and enters none twice is due to the order of the elements: up to an element
all rows are ascending and go no further than this element (`Incidence.Below`), so that appending it
is inserting it (`IndexSet.insertSorted_of_le`). One entry, the nodes of one element and then all
elements take the rows of the sets to those of the sets with the entries made
(`Incidence.fill_eq_ok`).
-/

namespace MeshPartition

/-- To insert a number that no member exceeds is to append it, unless it stands at the end. -/
theorem IndexSet.insertSorted_of_le {row : List ℕ} {e : ℕ} (hsorted : row.Pairwise (· < ·))
    (hle : ∀ x ∈ row, x ≤ e) :
    insertSorted e row = if row.getLast? = some e then row else row ++ [e] := by
  split
  · rename_i hlast
    have hmem : e ∈ row := List.mem_of_getLast? hlast
    refine eq_of_mem_iff_of_sorted (sorted_insertSorted hsorted) hsorted fun x => ?_
    rw [mem_insertSorted]
    exact ⟨fun h => h.elim (fun hx => hx ▸ hmem) id, Or.inr⟩
  · rename_i hlast
    have hlt : ∀ x ∈ row, x < e := by
      intro x hx
      refine Nat.lt_of_le_of_ne (hle x hx) fun hxe => hlast ?_
      -- A member that no other exceeds stands at the end.
      rcases List.eq_nil_or_concat' row with rfl | ⟨front, last, rfl⟩
      · cases hx
      · rw [List.getLast?_concat, Option.some.injEq]
        rcases List.mem_append.1 hx with hfront | hend
        · have hbefore := (List.pairwise_append.1 hsorted).2.2 x hfront last (by simp)
          have hbound := hle last (by simp)
          omega
        · rw [← List.mem_singleton.1 hend, hxe]
    have happend : (row ++ [e]).Pairwise (· < ·) := by
      refine List.pairwise_append.2 ⟨hsorted, by simp, fun x hx y hy => ?_⟩
      rw [List.mem_singleton.1 hy]
      exact hlt x hx
    refine eq_of_mem_iff_of_sorted (sorted_insertSorted hsorted) happend fun x => ?_
    rw [mem_insertSorted, List.mem_append, List.mem_singleton, or_comm]

namespace Incidence

variable {m : Mesh} {sets : List IndexSet} {e k n : ℕ} {nodes : List ℕ}

/-- Only elements before a given one have been entered. -/
def Below (k : ℕ) (sets : List IndexSet) : Prop := ∀ s ∈ sets, ∀ x ∈ s, x < k

/-- Entering an element keeps within a bound past it. -/
theorem Below.enter (h : Below (e + 1) sets) (nodes : List ℕ) :
    Below (e + 1) (enter sets e nodes) := by
  intro s hs x hx
  obtain ⟨n, hn⟩ := List.getElem?_of_mem hs
  obtain ⟨s', hs', hx | ⟨rfl, -⟩⟩ := mem_enter.1 ⟨s, hn, hx⟩
  · exact h s' (List.mem_of_getElem? hs') x hx
  · exact Nat.lt_succ_self x

/-- One entry at the end of a row is one insertion. -/
theorem enterLast_eq_ok (h : Below (e + 1) sets) (hn : n < sets.length) :
    enterLast e (sets.map IndexSet.toList) n =
      .ok ((sets.modify n (·.insert e)).map IndexSet.toList) := by
  have hrow : (sets.map IndexSet.toList)[n]? = some sets[n].toList := by
    rw [List.getElem?_map, List.getElem?_eq_getElem hn, Option.map_some]
  have hinsert := IndexSet.insertSorted_of_le sets[n].sorted
    fun x hx => Nat.le_of_lt_succ (h _ (List.getElem_mem hn) x hx)
  have hset : (if sets[n].toList.getLast? = some e then sets.map IndexSet.toList
      else (sets.map IndexSet.toList).set n (sets[n].toList ++ [e])) =
      (sets.map IndexSet.toList).set n (sets[n].insert e).toList := by
    show _ = (sets.map IndexSet.toList).set n (IndexSet.insertSorted e sets[n].toList)
    rw [hinsert]
    split
    · obtain ⟨_, hself⟩ := List.getElem?_eq_some_iff.1 hrow
      rw [← hself, List.set_getElem_self]
    · rfl
  have hmodify : sets.modify n (·.insert e) = sets.set n (sets[n].insert e) := by
    apply List.ext_getElem?
    intro j
    rw [List.getElem?_modify, List.getElem?_set]
    by_cases hj : n = j
    · subst hj
      simp [hn]
    · simp [hj]
  rw [enterLast, entryAt_eq_ok_iff.2 hrow]
  show Except.ok (if _ then _ else _) = _
  rw [hset, hmodify, List.map_set]

/-- The entries at the nodes of one element. -/
theorem foldlM_enterLast_eq_ok (h : Below (e + 1) sets) (hnodes : ∀ n ∈ nodes, n < sets.length) :
    nodes.foldlM (enterLast e) (sets.map IndexSet.toList) =
      .ok ((enter sets e nodes).map IndexSet.toList) := by
  induction nodes generalizing sets with
  | nil => rfl
  | cons n nodes ih =>
    obtain ⟨hn, hrest⟩ := List.forall_mem_cons.1 hnodes
    have hone : Below (e + 1) (sets.modify n (·.insert e)) := h.enter [n]
    rw [List.foldlM_cons, enterLast_eq_ok h hn]
    exact ih hone (by simpa using hrest)

/-- The entries of all elements, of which the first has the given position. -/
theorem foldlM_foldlM_enterLast_eq_ok {elements : List Element} (h : Below k sets)
    (hnodes : ∀ el ∈ elements, ∀ n ∈ el.nodes, n < sets.length) :
    (elements.zipIdx k).foldlM (fun rows x => x.1.nodes.foldlM (enterLast x.2) rows)
        (sets.map IndexSet.toList) =
      .ok ((enterAll sets (elements.zipIdx k)).map IndexSet.toList) := by
  induction elements generalizing sets k with
  | nil => rfl
  | cons el elements ih =>
    obtain ⟨hel, hrest⟩ := List.forall_mem_cons.1 hnodes
    have hwithin : Below (k + 1) sets := fun s hs x hx => Nat.lt_succ_of_lt (h s hs x hx)
    rw [List.zipIdx_cons, List.foldlM_cons, foldlM_enterLast_eq_ok hwithin hel]
    exact ih (hwithin.enter el.nodes) (by simpa using hrest)

/-- Filling the rows of a mesh in place gives those of its incidence table. -/
theorem fill_eq_ok (m : Mesh) : fill m = .ok ((ofMesh m).incident.map IndexSet.toList) := by
  have hempty : Below 0 (List.replicate m.nodeCount ∅) := by
    intro s hs x hx
    rw [List.eq_of_mem_replicate hs] at hx
    exact absurd hx (IndexSet.not_mem_empty x)
  have hrows : List.replicate m.nodeCount [] =
      (List.replicate m.nodeCount (∅ : IndexSet)).map IndexSet.toList := by
    rw [List.map_replicate]
    rfl
  rw [fill, hrows]
  exact foldlM_foldlM_enterLast_eq_ok hempty (by simpa [Mesh.nodeCount] using m.node_lt)

end Incidence

end MeshPartition
