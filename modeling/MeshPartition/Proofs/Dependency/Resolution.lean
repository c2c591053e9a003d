import MeshPartition.Proofs.Dependency
import MeshPartition.Proofs.Mesh

/-!
# What constraints resolve to

Resolving the constraints of a mesh succeeds exactly if the mesh has all that they name and no
hanging node leaves its element open. The table then holds for each node what its constraint
declares, and otherwise the error is that of the first node whose constraint cannot be resolved
(`Mesh.resolveAll_outcome`). Nothing depends on where in the mesh a node stands: the masters of a
node may have been added before it or after it.

What a constraint declares is said by `Mesh.Declares`, and what is wrong with it by `Mesh.Fault`;
the two exclude each other because looking up ids stops at the first that names nothing. The order
of the masters is that in which they are declared first (`FirstOccurrences`), which together with
their number fixes the list (`FirstOccurrences.unique`).
-/

namespace MeshPartition

/-! ## First occurrences -/

/-- The entries of a list other than `i`, each once, in the order of their first occurrences. -/
structure FirstOccurrences (i : ℕ) (declared masters : List ℕ) : Prop where
  /-- Nothing but `i` is left out, and nothing is added. -/
  mem_iff : ∀ j, j ∈ masters ↔ j ∈ declared ∧ j ≠ i
  /-- What is declared first stands first. -/
  ordered : masters.Pairwise fun j k => declared.idxOf j < declared.idxOf k

namespace FirstOccurrences

variable {i : ℕ} {declared masters masters' : List ℕ}

/-- No entry occurs twice. -/
theorem nodup (h : FirstOccurrences i declared masters) : masters.Nodup :=
  h.ordered.imp fun hlt heq => absurd hlt (by rw [heq]; exact Nat.lt_irrefl _)

/-- The description fits one list only. -/
theorem unique (h : FirstOccurrences i declared masters)
    (h' : FirstOccurrences i declared masters') : masters = masters' := by
  have hperm : masters.Perm masters' :=
    (List.perm_ext_iff_of_nodup h.nodup h'.nodup).2 fun j => (h.mem_iff j).trans (h'.mem_iff j).symm
  exact hperm.eq_of_pairwise (fun _ _ _ _ hlt hgt => absurd hlt (Nat.lt_asymm hgt))
    h.ordered h'.ordered

end FirstOccurrences

/-- Leaving out an entry and then all repetitions keeps the order of the first occurrences. -/
theorem firstOccurrences_distinct (i : ℕ) (declared : List ℕ) :
    FirstOccurrences i declared (distinct (declared.filter (· ≠ i))) := by
  refine ⟨fun j => by simp, ?_⟩
  induction declared with
  | nil => exact List.Pairwise.nil
  | cons a declared ih =>
    -- Behind an entry in front all others occur one position later.
    have hlater : ∀ masters : List ℕ, a ∉ masters →
        masters.Pairwise (fun j k => declared.idxOf j < declared.idxOf k) →
        masters.Pairwise fun j k => (a :: declared).idxOf j < (a :: declared).idxOf k := by
      intro masters ha hordered
      refine hordered.imp_of_mem fun {j k} hj hk hlt => ?_
      have hja : a ≠ j := fun h => ha (h ▸ hj)
      have hka : a ≠ k := fun h => ha (h ▸ hk)
      rw [List.idxOf_cons_ne _ hja, List.idxOf_cons_ne _ hka]
      exact Nat.succ_lt_succ hlt
    by_cases hai : a = i
    · have hskip : (a :: declared).filter (· ≠ i) = declared.filter (· ≠ i) :=
        List.filter_cons_of_neg (by simp [hai])
      rw [hskip]
      exact hlater _ (by simp [hai]) ih
    · have hkeep : (a :: declared).filter (· ≠ i) = a :: declared.filter (· ≠ i) :=
        List.filter_cons_of_pos (by simp [hai])
      rw [hkeep, distinct, List.pairwise_cons]
      constructor
      · intro k hk
        have hka : a ≠ k := fun h => by simp [h] at hk
        rw [List.idxOf_cons_self, List.idxOf_cons_ne _ hka]
        exact Nat.succ_pos _
      · exact hlater _ (by simp) (ih.filter _)

/-! ## What a constraint declares -/

/-- The ids of the masters, if a constraint lists them. -/
def Constraint.masterIds? : Constraint → Option (List GlobalId)
  | explicitMasters ids => some ids
  | rigidArm ids => some ids
  | hangingOnElement _ => none

/-- A constraint that does not list its masters is about an element. -/
theorem Constraint.masterIds?_eq_none_iff {c : Constraint} :
    c.masterIds? = none ↔ ∃ host, c = .hangingOnElement host := by
  cases c <;> simp [masterIds?]

namespace Mesh

variable {m : Mesh} {id : GlobalId} {c : Constraint} {ids : List GlobalId} {declared : List ℕ}
  {i : ℕ} {node : Node} {d : Option Dependency} {e : Error}

/-- The mesh has all that a constraint names, and the constraint leaves nothing open. -/
def Supports (m : Mesh) : Constraint → Prop
  | .explicitMasters ids => ∀ id ∈ ids, id ∈ m.nodes.map Node.id
  | .rigidArm ids => ∀ id ∈ ids, id ∈ m.nodes.map Node.id
  | .hangingOnElement none => False
  | .hangingOnElement (some host) => host ∈ m.elements.map Element.id

/-- If a node has a constraint, the mesh supports it. -/
def Resolvable (m : Mesh) (node : Node) : Prop := ∀ c, node.constraint = some c → m.Supports c

/-- The positions that a constraint names, in the order in which it does. -/
inductive Declares (m : Mesh) : Constraint → List ℕ → Prop where
  /-- A listed id stands for the position of the node that has it. -/
  | listed (c : Constraint) (ids : List GlobalId) (declared : List ℕ)
      (lists : c.masterIds? = some ids)
      (translated : List.Forall₂ (fun id j => (m.nodes.map Node.id)[j]? = some id) ids declared) :
      Declares m c declared
  /-- An element stands for its nodes. -/
  | host (position : ℕ) (el : Element) (found : m.elements[position]? = some el) :
      Declares m (.hangingOnElement (some el.id)) el.nodes

/-- What is wrong with the constraint of the node with a given id. Of several ids that no node has
the first one counts. -/
inductive Fault (m : Mesh) (id : GlobalId) : Constraint → Error → Prop where
  /-- The constraint lists a master that does not exist. -/
  | master (c : Constraint) (known : List GlobalId) (bad : GlobalId) (after : List GlobalId)
      (lists : c.masterIds? = some (known ++ bad :: after))
      (found : ∀ id ∈ known, id ∈ m.nodes.map Node.id) (missing : bad ∉ m.nodes.map Node.id) :
      Fault m id c (.unknownNode bad (.slave id))
  /-- The node hangs on an element that does not exist. -/
  | host (host : GlobalId) (missing : host ∉ m.elements.map Element.id) :
      Fault m id (.hangingOnElement (some host)) (.unknownElement host (.hanging id))
  /-- The node hangs on an element that is left open. -/
  | openHost : Fault m id (.hangingOnElement none) (.unsupportedConstraint id)

/-- A constraint that lists masters has their ids looked up. -/
theorem declaredMasters_of_masterIds? (h : c.masterIds? = some ids) :
    m.declaredMasters id c = m.positions (.slave id) ids := by
  cases c <;> cases h <;> rfl

/-- An element on which a node hangs is looked up, and its nodes are read. -/
theorem declaredMasters_host {host : GlobalId} {position : ℕ} {el : Element}
    (h : m.elements[position]? = some el) (hid : el.id = host) :
    m.declaredMasters id (.hangingOnElement (some host)) = .ok el.nodes := by
  have hfound : m.elementIndex? host = some position :=
    elementIndex?_eq_some_iff.2 (by rw [List.getElem?_map, h, Option.map_some, hid])
  have hel : m.element position = .ok el := entryAt_eq_ok_iff.2 h
  rw [declaredMasters, hfound]
  show (m.element position).map Element.nodes = _
  rw [hel]
  rfl

/-- What a constraint declares is found. -/
theorem declaredMasters_of_declares (h : m.Declares c declared) :
    m.declaredMasters id c = .ok declared := by
  cases h with
  | listed c ids declared lists translated =>
    rw [declaredMasters_of_masterIds? lists, positions_eq_ok_iff]
    exact translated.imp fun _ _ hid => nodeIndex?_eq_some_iff.2 hid
  | host position el found => exact declaredMasters_host found rfl

/-- A fault is reported. -/
theorem declaredMasters_of_fault (h : m.Fault id c e) : m.declaredMasters id c = .error e := by
  cases h with
  | master c known bad after lists found missing =>
    rw [declaredMasters_of_masterIds? lists, positions_eq_error_iff]
    exact ⟨known, bad, after, rfl, found, missing, rfl⟩
  | host host missing => rw [declaredMasters, elementIndex?_eq_none_iff.2 missing]
  | openHost => rfl

/-- A constraint declares something, or it has a fault. -/
theorem exists_declares_or_fault (m : Mesh) (id : GlobalId) (c : Constraint) :
    (∃ declared, m.Declares c declared) ∨ ∃ e, m.Fault id c e := by
  cases hlists : c.masterIds? with
  | some ids =>
    cases hpositions : m.positions (.slave id) ids with
    | ok declared =>
      have htranslated := (positions_eq_ok_iff.1 hpositions).imp
        fun _ _ hid => nodeIndex?_eq_some_iff.1 hid
      exact Or.inl ⟨declared, .listed c ids declared hlists htranslated⟩
    | error e =>
      obtain ⟨known, bad, after, rfl, hknown, hbad, -⟩ := positions_eq_error_iff.1 hpositions
      exact Or.inr ⟨_, .master c known bad after hlists hknown hbad⟩
  | none =>
    obtain ⟨host, rfl⟩ := Constraint.masterIds?_eq_none_iff.1 hlists
    cases host with
    | none => exact Or.inr ⟨_, .openHost⟩
    | some host =>
      by_cases hhost : host ∈ m.elements.map Element.id
      · obtain ⟨el, hel, rfl⟩ := List.mem_map.1 hhost
        obtain ⟨position, hposition⟩ := List.getElem?_of_mem hel
        exact Or.inl ⟨_, .host position el hposition⟩
      · exact Or.inr ⟨_, .host host hhost⟩

/-- Declared masters are found exactly as they are declared. -/
theorem declaredMasters_eq_ok_iff :
    m.declaredMasters id c = .ok declared ↔ m.Declares c declared := by
  refine ⟨fun h => ?_, declaredMasters_of_declares⟩
  rcases exists_declares_or_fault m id c with ⟨declared', hdeclares⟩ | ⟨e, hfault⟩
  · cases h.symm.trans (declaredMasters_of_declares hdeclares)
    exact hdeclares
  · cases h.symm.trans (declaredMasters_of_fault hfault)

/-- They are not found exactly if the constraint has a fault, which is then reported. -/
theorem declaredMasters_eq_error_iff : m.declaredMasters id c = .error e ↔ m.Fault id c e := by
  refine ⟨fun h => ?_, declaredMasters_of_fault⟩
  rcases exists_declares_or_fault m id c with ⟨declared, hdeclares⟩ | ⟨e', hfault⟩
  · cases h.symm.trans (declaredMasters_of_declares hdeclares)
  · cases h.symm.trans (declaredMasters_of_fault hfault)
    exact hfault

/-- The mesh supports a constraint that lists masters if it has all of them. -/
theorem supports_iff_of_masterIds? (h : c.masterIds? = some ids) :
    m.Supports c ↔ ∀ id ∈ ids, id ∈ m.nodes.map Node.id := by
  cases c <;> cases h <;> rfl

/-- A constraint declares something exactly if the mesh has all that it names. -/
theorem exists_declares_iff : (∃ declared, m.Declares c declared) ↔ m.Supports c := by
  constructor
  · rintro ⟨_, ⟨_, ids, declared, hlists, htranslated⟩ | ⟨position, el, hel⟩⟩
    · have hknown := htranslated.imp fun id j hid => And.intro (List.mem_of_getElem? hid) hid
      exact (supports_iff_of_masterIds? hlists).2 ((List.forall₂_and_left _ _).1 hknown).1
    · exact List.mem_map_of_mem (List.mem_of_getElem? hel)
  · intro h
    rcases exists_declares_or_fault m (.nth 0) c with hdeclares | ⟨e, hfault⟩
    · exact hdeclares
    · -- Each fault names something that the mesh does not have.
      cases hfault with
      | master c known bad after lists found missing =>
        have hall := (supports_iff_of_masterIds? lists).1 h
        exact absurd (hall bad (by simp)) missing
      | host host missing => exact absurd h missing
      | openHost => exact absurd h not_false

/-! ## What a node depends on -/

/-- What the node at a position depends on. -/
inductive DependsOn (m : Mesh) (i : ℕ) (node : Node) : Option Dependency → Prop where
  /-- A node without a constraint depends on nothing. -/
  | free (unconstrained : node.constraint = none) : DependsOn m i node none
  /-- A constrained node depends on what its constraint declares, itself left out. -/
  | bound (c : Constraint) (declared masters : List ℕ) (constrained : node.constraint = some c)
      (declares : m.Declares c declared) (order : FirstOccurrences i declared masters) :
      DependsOn m i node (some ⟨c.kind, masters⟩)

/-- A node is resolved by its constraint. -/
theorem resolve_eq (hnode : m.nodes[i]? = some node) : m.resolve i = match node.constraint with
    | none => .ok none
    | some c => (m.declaredMasters node.id c).map fun declared =>
      some ⟨c.kind, distinct (declared.filter (· ≠ i))⟩ := by
  have hread : m.node i = .ok node := entryAt_eq_ok_iff.2 hnode
  rw [resolve, hread]
  show (match node.constraint with | none => _ | some c => _) = _
  cases node.constraint with
  | none => rfl
  | some c => cases m.declaredMasters node.id c <;> rfl

/-- A node resolves to what it depends on. -/
theorem resolve_eq_ok_iff (hnode : m.nodes[i]? = some node) :
    m.resolve i = .ok d ↔ m.DependsOn i node d := by
  rw [resolve_eq hnode]
  cases hconstraint : node.constraint with
  | none =>
    constructor
    · intro h
      cases h
      exact .free hconstraint
    · rintro (_ | ⟨c, _, _, hc, _⟩)
      · rfl
      · cases hconstraint.symm.trans hc
  | some c =>
    show (m.declaredMasters node.id c).map _ = _ ↔ _
    rw [map_eq_ok_iff]
    constructor
    · rintro ⟨declared, hdeclared, rfl⟩
      exact .bound c declared _ hconstraint (declaredMasters_eq_ok_iff.1 hdeclared)
        (firstOccurrences_distinct i declared)
    · rintro (hc | ⟨c', declared, masters, hc, hdeclares, horder⟩)
      · cases hconstraint.symm.trans hc
      · cases hconstraint.symm.trans hc
        refine ⟨declared, declaredMasters_of_declares hdeclares, ?_⟩
        rw [horder.unique (firstOccurrences_distinct i declared)]

/-- A node does not resolve exactly if its constraint has a fault. -/
theorem resolve_eq_error_iff (hnode : m.nodes[i]? = some node) :
    m.resolve i = .error e ↔ ∃ c, node.constraint = some c ∧ m.Fault node.id c e := by
  rw [resolve_eq hnode]
  cases hconstraint : node.constraint with
  | none => simp
  | some c =>
    have hmap : ((m.declaredMasters node.id c).map fun declared =>
        some (Dependency.mk c.kind (distinct (declared.filter (· ≠ i))))) = .error e ↔
          m.declaredMasters node.id c = .error e := by
      cases m.declaredMasters node.id c <;> simp [Except.map]
    show (m.declaredMasters node.id c).map _ = _ ↔ _
    rw [hmap, declaredMasters_eq_error_iff]
    simp

/-- A node resolves exactly if the mesh has all that its constraint names. -/
theorem exists_resolve_iff (hnode : m.nodes[i]? = some node) :
    (∃ d, m.resolve i = .ok d) ↔ m.Resolvable node := by
  simp only [resolve_eq_ok_iff hnode]
  constructor
  · rintro ⟨_, hc | ⟨c, declared, masters, hc, hdeclares, -⟩⟩ c' hc'
    · cases hc.symm.trans hc'
    · cases hc.symm.trans hc'
      exact exists_declares_iff.1 ⟨declared, hdeclares⟩
  · intro h
    cases hconstraint : node.constraint with
    | none => exact ⟨none, .free hconstraint⟩
    | some c =>
      obtain ⟨declared, hdeclares⟩ := exists_declares_iff.2 (h c hconstraint)
      exact ⟨_, .bound c declared _ hconstraint hdeclares (firstOccurrences_distinct i declared)⟩

/-! ## All nodes -/

/-- Resolving some nodes gives the dependency of each, in order. -/
theorem resolveEach_eq_ok_iff {is : List ℕ} {ds : List (Option Dependency)} :
    m.resolveEach is = .ok ds ↔ List.Forall₂ (fun i d => m.resolve i = .ok d) is ds := by
  induction is generalizing ds with
  | nil => simp [resolveEach, eq_comm]
  | cons i is ih =>
    rw [resolveEach_cons_eq_ok_iff, List.forall₂_cons_left_iff]
    simp only [ih]

/-- A table holds the dependencies of a mesh exactly if it has an entry for each node, which is what
the node depends on. -/
theorem resolveAll_eq_ok_iff_dependsOn {t : DependencyTable} : m.resolveAll = .ok t ↔
    t.size = m.nodeCount ∧
      ∀ i node, m.nodes[i]? = some node → ∃ d, t.entries[i]? = some d ∧ m.DependsOn i node d := by
  rw [resolveAll_eq_ok_iff, resolveEach_eq_ok_iff]
  constructor
  · intro h
    have hsize : t.size = m.nodeCount := h.length_eq.symm.trans List.length_range
    refine ⟨hsize, fun i node hnode => ?_⟩
    have hi : i < m.nodes.length := (List.getElem?_eq_some_iff.1 hnode).1
    have hi' : i < t.entries.length := Nat.lt_of_lt_of_eq hi hsize.symm
    have hresolve := h.get (by rwa [List.length_range]) hi'
    rw [List.get_eq_getElem, List.get_eq_getElem, List.getElem_range] at hresolve
    exact ⟨_, List.getElem?_eq_getElem hi', (resolve_eq_ok_iff hnode).1 hresolve⟩
  · rintro ⟨hsize, h⟩
    refine List.forall₂_of_length_eq_of_get (List.length_range.trans hsize.symm) fun i hi hi' => ?_
    have hnode : m.nodes[i]? = some m.nodes[i] :=
      List.getElem?_eq_getElem (Nat.lt_of_lt_of_eq hi' hsize)
    obtain ⟨d, hd, hdepends⟩ := h i _ hnode
    obtain ⟨_, rfl⟩ := List.getElem?_eq_some_iff.1 hd
    rw [List.get_eq_getElem, List.get_eq_getElem, List.getElem_range]
    exact (resolve_eq_ok_iff hnode).2 hdepends

/-- The masters in the table of a mesh are positions of its nodes. -/
theorem lt_of_mem_mastersOf {t : DependencyTable} (h : m.resolveAll = .ok t) {j : ℕ}
    (hj : j ∈ t.mastersOf i) : j < m.nodeCount := by
  unfold DependencyTable.mastersOf at hj
  split at hj
  · rename_i d hd
    rw [← size_of_resolveAll h]
    exact t.master_lt d (List.mem_of_getElem? (Option.join_eq_some_iff.1 hd)) j hj
  · cases hj

/-- The first node whose constraint has a fault decides the error. -/
theorem resolveAll_eq_error_iff_fault : m.resolveAll = .error e ↔
    ∃ (i : ℕ) (node : Node) (c : Constraint), m.nodes[i]? = some node ∧
      node.constraint = some c ∧ m.Fault node.id c e ∧
        ∀ before ∈ m.nodes.take i, m.Resolvable before := by
  rw [resolveAll_eq_error_iff]
  constructor
  · rintro ⟨i, hi, hbefore, hfail⟩
    have hnode : m.nodes[i]? = some m.nodes[i] := List.getElem?_eq_getElem hi
    obtain ⟨c, hc, hfault⟩ := (resolve_eq_error_iff hnode).1 hfail
    refine ⟨i, _, c, hnode, hc, hfault, fun before hmem => ?_⟩
    obtain ⟨k, hk, rfl⟩ := List.mem_take_iff_getElem.1 hmem
    exact (exists_resolve_iff (List.getElem?_eq_getElem _)).1 (hbefore k (by omega))
  · rintro ⟨i, node, c, hnode, hc, hfault, hbefore⟩
    have hi : i < m.nodes.length := (List.getElem?_eq_some_iff.1 hnode).1
    refine ⟨i, hi, fun k hk => ?_, (resolve_eq_error_iff hnode).2 ⟨c, hc, hfault⟩⟩
    have hmem : m.nodes[k] ∈ m.nodes.take i :=
      List.mem_take_iff_getElem.2 ⟨k, by omega, rfl⟩
    exact (exists_resolve_iff (List.getElem?_eq_getElem _)).2 (hbefore _ hmem)

/-- Resolving the constraints of a mesh succeeds exactly if the mesh has all that they name and none
of them leaves its element open. The table then has one entry for each node: none for a node without
a constraint, and for the others the kind of the constraint and the positions that it declares, the
node itself left out, each once, in the order in which they are declared first. All of them are
positions of nodes. Otherwise the error is that of the first node whose constraint has a fault. -/
theorem resolveAll_outcome (m : Mesh) :
    ((∃ t, m.resolveAll = .ok t) ↔ ∀ node ∈ m.nodes, m.Resolvable node) ∧
    (∀ t : DependencyTable, m.resolveAll = .ok t ↔ t.size = m.nodeCount ∧
      ∀ i node, m.nodes[i]? = some node →
        ∃ d, t.entries[i]? = some d ∧ m.DependsOn i node d) ∧
    (∀ t : DependencyTable, m.resolveAll = .ok t → ∀ i, ∀ j ∈ t.mastersOf i, j < m.nodeCount) ∧
    (∀ e, m.resolveAll = .error e ↔ ∃ (i : ℕ) (node : Node) (c : Constraint),
      m.nodes[i]? = some node ∧ node.constraint = some c ∧ m.Fault node.id c e ∧
        ∀ before ∈ m.nodes.take i, m.Resolvable before) := by
  refine ⟨?_, fun t => resolveAll_eq_ok_iff_dependsOn, fun t h i j hj => lt_of_mem_mastersOf h hj,
    fun e => resolveAll_eq_error_iff_fault⟩
  rw [exists_resolveAll_iff]
  constructor
  · intro h node hmem
    obtain ⟨i, hnode⟩ := List.getElem?_of_mem hmem
    exact (exists_resolve_iff hnode).1 (h i (List.getElem?_eq_some_iff.1 hnode).1)
  · intro h i hi
    have hnode : m.nodes[i]? = some m.nodes[i] := List.getElem?_eq_getElem hi
    exact (exists_resolve_iff hnode).2 (h _ (List.getElem_mem hi))

/-- Three nodes, of which the first two are constrained by what is added after them: the first lists
a later node, itself, the second node and the later node again, and the second hangs on an element
that contains it. -/
def lookahead : Mesh where
  nodes := [⟨.nth 0, some (.explicitMasters [.nth 2, .nth 0, .nth 1, .nth 2])⟩,
    ⟨.nth 1, some (.hangingOnElement (some (.nth 0)))⟩, ⟨.nth 2, none⟩]
  elements := [⟨.nth 0, [2, 1, 0, 2]⟩]
  nodeIds_nodup := by decide
  elementIds_nodup := by decide
  node_lt := by decide

example : lookahead.resolveAll.map DependencyTable.entries =
    .ok [some ⟨.explicitMasters, [2, 1]⟩, some ⟨.hangingOnElement, [2, 0]⟩, none] := by
  rfl

end Mesh

end MeshPartition
