import MeshPartition.Mesh

/-!
# Resolved dependencies

A constraint names its masters by global ids, or by an element that carries them. Resolving it gives
the positions of the masters: ids looked up in the mesh, the node itself left out, each master once,
in the order in which they are declared. A `DependencyTable` holds this for all nodes of a mesh, and
its links, from slave to master, are what the closure of partition sets follows.
-/

namespace MeshPartition

/-- What a constrained node depends on. -/
structure Dependency where
  kind : ConstraintKind
  /-- The positions of the masters. -/
  masters : List Nat
deriving DecidableEq

/-- The first occurrence of each entry of a list, in order. -/
def distinct {α : Type} [DecidableEq α] : List α → List α
  | [] => []
  | a :: as => a :: (distinct as).filter (· ≠ a)

@[simp] theorem mem_distinct {α : Type} [DecidableEq α] {as : List α} {x : α} :
    x ∈ distinct as ↔ x ∈ as := by
  induction as with
  | nil => simp [distinct]
  | cons a as ih =>
    rw [distinct, List.mem_cons, List.mem_filter, ih, List.mem_cons]
    by_cases h : x = a <;> simp [h]

/-- A list without repeats is left as it is. -/
theorem distinct_eq_self {α : Type} [DecidableEq α] {as : List α} (h : as.Nodup) :
    distinct as = as := by
  induction as with
  | nil => rfl
  | cons a as ih =>
    rw [List.nodup_cons] at h
    have hkept : as.filter (· ≠ a) = as :=
      List.filter_eq_self.2 fun b hb => by simpa using fun hba : b = a => h.1 (hba ▸ hb)
    rw [distinct, ih h.2, hkept]

namespace Mesh

/-- The positions that a constraint of the given node names, as declared. -/
def declaredMasters (m : Mesh) (id : GlobalId) : Constraint → Except Error (List Nat)
  | .explicitMasters ids => m.positions (.slave id) ids
  | .rigidArm ids => m.positions (.slave id) ids
  | .hangingOnElement none => .error (.unsupportedConstraint id)
  | .hangingOnElement (some host) =>
    match m.elementIndex? host with
    | none => .error (.unknownElement host (.hanging id))
    | some e => (m.element e).map Element.nodes

/-- The dependency of the node at a position, if the node is constrained. -/
def resolve (m : Mesh) (i : Nat) : Except Error (Option Dependency) := do
  let node ← m.node i
  match node.constraint with
  | none => return none
  | some constraint =>
    let declared ← m.declaredMasters node.id constraint
    return some ⟨constraint.kind, distinct (declared.filter (· ≠ i))⟩

/-- The masters of the node at a position; an unconstrained node has none. -/
def mastersOf (m : Mesh) (i : Nat) : Except Error (List Nat) := do
  match ← m.resolve i with
  | some d => return d.masters
  | none => return []

theorem lt_of_mem_declaredMasters {m : Mesh} {id : GlobalId} {c : Constraint} {is : List Nat}
    (h : m.declaredMasters id c = .ok is) : ∀ i ∈ is, i < m.nodeCount := by
  unfold declaredMasters at h
  split at h
  · exact lt_of_mem_positions h
  · exact lt_of_mem_positions h
  · cases h
  · split at h
    · cases h
    · rename_i e _
      unfold element entryAt at h
      split at h
      · rename_i el hel
        cases h
        exact m.node_lt el (List.mem_of_getElem? hel)
      · cases h

theorem lt_of_mem_resolve {m : Mesh} {i : Nat} {d : Dependency} (h : m.resolve i = .ok (some d)) :
    ∀ j ∈ d.masters, j < m.nodeCount := by
  unfold resolve at h
  cases hn : m.node i with
  | error e => rw [hn] at h; cases h
  | ok node =>
    rw [hn] at h
    simp only [bind, Except.bind] at h
    split at h
    · cases h
    · rename_i c _
      split at h
      · cases h
      · rename_i declared hd
        cases h
        intro j hj
        rw [mem_distinct, List.mem_filter] at hj
        exact lt_of_mem_declaredMasters hd j hj.1

end Mesh

/-- The dependencies of all nodes of a mesh. -/
structure DependencyTable where
  /-- For each node its dependency, if the node is constrained. -/
  entries : List (Option Dependency)
  /-- Masters are nodes of the same mesh. -/
  master_lt : ∀ d, some d ∈ entries → ∀ m ∈ d.masters, m < entries.length
deriving DecidableEq

/-- A slave and one of its masters. -/
structure Link where
  slave : Nat
  master : Nat
deriving DecidableEq

namespace Mesh

/-- The dependencies of the nodes at the given positions. -/
def resolveEach (m : Mesh) : List Nat → Except Error (List (Option Dependency))
  | [] => .ok []
  | i :: is => do
    let d ← m.resolve i
    let ds ← m.resolveEach is
    return d :: ds

theorem resolveEach_cons_eq_ok_iff {m : Mesh} {i : Nat} {is : List Nat}
    {ds : List (Option Dependency)} :
    m.resolveEach (i :: is) = .ok ds ↔
      ∃ d rest, m.resolve i = .ok d ∧ m.resolveEach is = .ok rest ∧ ds = d :: rest := by
  rw [resolveEach]
  cases m.resolve i with
  | error e => simp [bind, Except.bind]
  | ok d =>
    cases m.resolveEach is with
    | error e => simp [bind, Except.bind]
    | ok rest => simp [bind, Except.bind, pure, Except.pure, eq_comm]

theorem length_of_resolveEach {m : Mesh} {is : List Nat} {ds : List (Option Dependency)}
    (h : m.resolveEach is = .ok ds) : ds.length = is.length := by
  induction is generalizing ds with
  | nil => cases h; rfl
  | cons i is ih =>
    obtain ⟨d, rest, -, hr, rfl⟩ := resolveEach_cons_eq_ok_iff.1 h
    simp [ih hr]

theorem lt_of_mem_resolveEach {m : Mesh} {is : List Nat} {ds : List (Option Dependency)}
    (h : m.resolveEach is = .ok ds) (d : Dependency) (hd : some d ∈ ds) :
    ∀ j ∈ d.masters, j < m.nodeCount := by
  induction is generalizing ds with
  | nil => cases h; simp at hd
  | cons i is ih =>
    obtain ⟨d', rest, hi, hr, rfl⟩ := resolveEach_cons_eq_ok_iff.1 h
    rcases List.mem_cons.1 hd with rfl | hd
    · exact lt_of_mem_resolve hi
    · exact ih hr hd

/-- The dependencies of all nodes; the first node whose constraint does not resolve decides the
error. -/
def resolveAll (m : Mesh) : Except Error DependencyTable :=
  match h : m.resolveEach (List.range m.nodeCount) with
  | .error e => .error e
  | .ok entries => .ok ⟨entries, fun d hd j hj => by
      rw [length_of_resolveEach h, List.length_range]
      exact lt_of_mem_resolveEach h d hd j hj⟩

theorem resolveAll_eq_ok_iff {m : Mesh} {t : DependencyTable} :
    m.resolveAll = .ok t ↔ m.resolveEach (List.range m.nodeCount) = .ok t.entries := by
  unfold resolveAll
  split
  · rename_i e h
    simp [h]
  · rename_i entries h
    obtain ⟨te, ht⟩ := t
    simp [h]

end Mesh

namespace DependencyTable

/-- The number of nodes. -/
def size (t : DependencyTable) : Nat := t.entries.length

/-- The dependency of a node; a position past the table has none. -/
def find? (t : DependencyTable) (i : Nat) : Option Dependency := t.entries[i]?.join

/-- The masters of a node; a node without a dependency has none. -/
def mastersOf (t : DependencyTable) (i : Nat) : List Nat :=
  match t.find? i with
  | some d => d.masters
  | none => []

/-- The constrained nodes with their dependencies, in order. -/
def constrained (t : DependencyTable) : List (Nat × Dependency) :=
  t.entries.zipIdx.filterMap fun x => x.1.map (x.2, ·)

/-- The number of constrained nodes. -/
def constrainedCount (t : DependencyTable) : Nat := t.constrained.length

/-- The links, by slave and then in the order of its masters. -/
def links (t : DependencyTable) : List Link :=
  t.constrained.flatMap fun x => x.2.masters.map (⟨x.1, ·⟩)

end DependencyTable

end MeshPartition
