import MeshPartition.Assignment
import MeshPartition.IndexSet
import MeshPartition.Mesh

/-!
# Which elements contain a node

`Incidence.ofMesh` turns the element lists of a mesh around: for each node it holds the set of
elements that contain it; `Incidence.fill` is the same as it is done in place, with plain lists.
Through an assignment this gives the parts that meet at a node, on which the classification of nodes
and the node lists of the parts rest.
-/

namespace MeshPartition

/-- The elements at each node. -/
structure Incidence where
  /-- For each node, the elements that contain it. -/
  incident : List IndexSet
  /-- The number of elements of the mesh. -/
  elementCount : Nat
  /-- Only elements of the mesh are listed. -/
  element_lt : ∀ s ∈ incident, ∀ e ∈ s, e < elementCount
deriving DecidableEq

namespace Incidence

/-- Enters one element at each of its nodes. -/
def enter (rows : List IndexSet) (e : Nat) (nodes : List Nat) : List IndexSet :=
  nodes.foldl (fun rows n => rows.modify n (·.insert e)) rows

/-- Enters a list of elements with their positions. -/
def enterAll (rows : List IndexSet) (elements : List (Element × Nat)) : List IndexSet :=
  elements.foldl (fun rows x => enter rows x.2 x.1.nodes) rows

@[simp] theorem length_enter (rows : List IndexSet) (e : Nat) (nodes : List Nat) :
    (enter rows e nodes).length = rows.length := by
  induction nodes generalizing rows with
  | nil => rfl
  | cons n ns ih => exact (ih _).trans (by simp)

@[simp] theorem length_enterAll (rows : List IndexSet) (elements : List (Element × Nat)) :
    (enterAll rows elements).length = rows.length := by
  induction elements generalizing rows with
  | nil => rfl
  | cons x xs ih => exact (ih _).trans (by simp)

theorem mem_enter {rows : List IndexSet} {e : Nat} {nodes : List Nat} {n x : Nat} :
    (∃ s, (enter rows e nodes)[n]? = some s ∧ x ∈ s) ↔
      (∃ s, rows[n]? = some s ∧ (x ∈ s ∨ x = e ∧ n ∈ nodes)) := by
  induction nodes generalizing rows with
  | nil => simp [enter]
  | cons m ms ih =>
    show (∃ s, (enter (rows.modify m (·.insert e)) e ms)[n]? = some s ∧ x ∈ s) ↔ _
    rw [ih]
    simp only [List.getElem?_modify, List.mem_cons]
    cases rows[n]? with
    | none => simp
    | some s => by_cases h : m = n <;> simp [h] <;> grind

theorem mem_enterAll {rows : List IndexSet} {elements : List (Element × Nat)} {n x : Nat} :
    (∃ s, (enterAll rows elements)[n]? = some s ∧ x ∈ s) ↔
      (∃ s, rows[n]? = some s ∧ (x ∈ s ∨ ∃ el, (el, x) ∈ elements ∧ n ∈ el.nodes)) := by
  induction elements generalizing rows with
  | nil => simp [enterAll]
  | cons y ys ih =>
    show (∃ s, (enterAll (enter rows y.2 y.1.nodes) ys)[n]? = some s ∧ x ∈ s) ↔ _
    rw [ih]
    have hstep := @mem_enter rows y.2 y.1.nodes n x
    -- Entering an element adds no rows, so a row that is there afterwards was there before.
    have hlen : ∀ s, (enter rows y.2 y.1.nodes)[n]? = some s → ∃ s', rows[n]? = some s' := by
      intro s hs
      have := (List.getElem?_eq_some_iff.1 hs).1
      rw [length_enter] at this
      exact ⟨_, List.getElem?_eq_getElem this⟩
    constructor
    · rintro ⟨s, hs, hx | ⟨el, hel, hn⟩⟩
      · -- The member was there before, or it is the element just entered.
        obtain ⟨s', hs', hx'⟩ := hstep.1 ⟨s, hs, hx⟩
        refine ⟨s', hs', ?_⟩
        rcases hx' with hx' | ⟨rfl, hn⟩
        · exact Or.inl hx'
        · exact Or.inr ⟨y.1, by simp, hn⟩
      · obtain ⟨s', hs'⟩ := hlen s hs
        exact ⟨s', hs', Or.inr ⟨el, by simp [hel], hn⟩⟩
    · rintro ⟨s', hs', hx⟩
      have hlt := (List.getElem?_eq_some_iff.1 hs').1
      have hlt' : n < (enter rows y.2 y.1.nodes).length := by simpa using hlt
      rcases hx with hx | ⟨el, hel, hn⟩
      · obtain ⟨s, hs, hxs⟩ := hstep.2 ⟨s', hs', Or.inl hx⟩
        exact ⟨s, hs, Or.inl hxs⟩
      · rcases List.mem_cons.1 hel with rfl | hel
        · obtain ⟨s, hs, hxs⟩ := hstep.2 ⟨s', hs', Or.inr ⟨rfl, hn⟩⟩
          exact ⟨s, hs, Or.inl hxs⟩
        · exact ⟨_, List.getElem?_eq_getElem hlt', Or.inr ⟨el, hel, hn⟩⟩

/-- For each node of a mesh, the elements that contain it. -/
def rows (m : Mesh) : List IndexSet :=
  enterAll (List.replicate m.nodeCount ∅) m.elements.zipIdx

@[simp] theorem length_rows (m : Mesh) : (rows m).length = m.nodeCount := by simp [rows]

/-- An element is listed at a node exactly if it contains the node. -/
theorem mem_rows {m : Mesh} {n e : Nat} :
    (∃ s, (rows m)[n]? = some s ∧ e ∈ s) ↔ ∃ el, m.elements[e]? = some el ∧ n ∈ el.nodes := by
  rw [rows, mem_enterAll]
  constructor
  · rintro ⟨s, hs, hx | ⟨el, hel, hn⟩⟩
    · rw [List.getElem?_replicate] at hs
      split at hs
      · cases hs; simp at hx
      · cases hs
    · exact ⟨el, List.mem_zipIdx_iff_getElem?.1 hel, hn⟩
  · rintro ⟨el, hel, hn⟩
    have hlt : n < m.nodeCount := m.node_lt el (List.mem_of_getElem? hel) n hn
    exact ⟨∅, by simp [hlt], Or.inr ⟨el, List.mem_zipIdx_iff_getElem?.2 hel, hn⟩⟩

/-- The incidence table of a mesh. -/
def ofMesh (m : Mesh) : Incidence where
  incident := rows m
  elementCount := m.elementCount
  element_lt s hs e he := by
    obtain ⟨n, hn⟩ := List.getElem?_of_mem hs
    obtain ⟨el, hel, -⟩ := mem_rows.1 ⟨s, hn, he⟩
    exact (List.getElem?_eq_some_iff.1 hel).1

/-- Enters an element at the end of the row of a node, unless it stands there. -/
def enterLast (e : Nat) (rows : List (List Nat)) (n : Nat) : Except Error (List (List Nat)) := do
  let row ← entryAt rows n
  return if row.getLast? = some e then rows else rows.set n (row ++ [e])

/-- The rows of a mesh as a program fills them, element by element. It looks at a row only where it
ends: elements come in ascending order, so that one which stands in the row stands there. -/
def fill (m : Mesh) : Except Error (List (List Nat)) :=
  m.elements.zipIdx.foldlM (fun rows x => x.1.nodes.foldlM (enterLast x.2) rows)
    (List.replicate m.nodeCount [])

/-- The number of nodes. -/
def size (inc : Incidence) : Nat := inc.incident.length

/-- The elements that contain a node, ascending. -/
def elementsAt (inc : Incidence) (n : Nat) : Except Error IndexSet := entryAt inc.incident n

/-- The number of pairs of a node and an element that contains it. -/
def incidenceCount (inc : Incidence) : Nat := (inc.incident.flatMap IndexSet.toList).length

/-- The parts of the elements that contain a node. -/
def partsAt (inc : Incidence) (a : Assignment) (n : Nat) : Except Error IndexSet := do
  let elements ← inc.elementsAt n
  let parts ← elements.toList.mapM a.partOf
  return IndexSet.ofList parts

end Incidence

end MeshPartition
