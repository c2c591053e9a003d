import MeshPartition.IndexSet

/-!
# Finite maps from positions

`IndexMap β` keeps a finite map as the list of its entries with ascending keys. `find?` is the view
through which the other operations are described: `find?_insert` says what writing does, and
`mem_keys` ties the set of keys to it.
-/

namespace MeshPartition

/-- A finite map from natural numbers. -/
structure IndexMap (β : Type) where
  /-- The entries, by ascending key. -/
  entries : List (Nat × β)
  /-- No key has two entries, and none is out of order. -/
  sorted : (entries.map Prod.fst).Pairwise (· < ·)
deriving DecidableEq

namespace IndexMap

variable {β : Type}

instance : EmptyCollection (IndexMap β) := ⟨⟨[], IndexSet.sorted_nil⟩⟩

/-- The keys that have an entry. -/
def keys (m : IndexMap β) : IndexSet := ⟨m.entries.map Prod.fst, m.sorted⟩

/-- The number of entries. -/
def size (m : IndexMap β) : Nat := m.entries.length

/-- The value at a key in a list of entries. -/
def lookup (k : Nat) : List (Nat × β) → Option β
  | [] => none
  | (j, b) :: es => if k = j then some b else lookup k es

/-- The value at a key. -/
def find? (m : IndexMap β) (k : Nat) : Option β := lookup k m.entries

theorem lookup_isSome_iff {k : Nat} {es : List (Nat × β)} :
    (lookup k es).isSome = true ↔ k ∈ es.map Prod.fst := by
  induction es with
  | nil => simp [lookup]
  | cons e es ih =>
    rw [lookup]
    split <;> simp_all

theorem mem_keys {m : IndexMap β} {k : Nat} : k ∈ m.keys ↔ (m.find? k).isSome = true :=
  lookup_isSome_iff.symm

/-- Entries with the same ascending keys are equal if they have the same values there. -/
theorem eq_of_lookup_eq {es es' : List (Nat × β)} (hkeys : es.map Prod.fst = es'.map Prod.fst)
    (hsorted : (es.map Prod.fst).Pairwise (· < ·)) (h : ∀ k, lookup k es = lookup k es') :
    es = es' := by
  induction es generalizing es' with
  | nil => exact (List.map_eq_nil_iff.1 hkeys.symm).symm
  | cons e es ih =>
    cases es' with
    | nil => cases hkeys
    | cons e' es' =>
      obtain ⟨k, b⟩ := e
      obtain ⟨k', b'⟩ := e'
      obtain ⟨rfl, htail⟩ := List.cons.inj hkeys
      have hfirst := h k
      rw [lookup, lookup, if_pos rfl, if_pos rfl, Option.some.injEq] at hfirst
      rw [List.map_cons, List.pairwise_cons] at hsorted
      rw [hfirst, ih htail hsorted.2]
      intro j
      by_cases hj : j = k
      · -- The first key is not among the later ones.
        subst hj
        have hlater : ¬ j ∈ es.map Prod.fst := fun hmem => Nat.lt_irrefl j (hsorted.1 j hmem)
        have hlater' : ¬ j ∈ es'.map Prod.fst := htail ▸ hlater
        rw [← lookup_isSome_iff, Bool.not_eq_true, Option.isSome_eq_false_iff,
          Option.isNone_iff_eq_none] at hlater hlater'
        rw [hlater, hlater']
      · have hrest := h j
        rwa [lookup, lookup, if_neg hj, if_neg hj] at hrest

/-- Maps with the same values at all keys are equal. -/
theorem ext {m m' : IndexMap β} (h : ∀ k, m.find? k = m'.find? k) : m = m' := by
  have hkeys : m.keys = m'.keys := IndexSet.ext fun k => by rw [mem_keys, mem_keys, h]
  have hentries : m.entries = m'.entries :=
    eq_of_lookup_eq (congrArg IndexSet.toList hkeys) m.sorted h
  cases m; cases m'; cases hentries; rfl

/-- Writing an entry into a list of entries with ascending keys. -/
def insertEntry (k : Nat) (b : β) : List (Nat × β) → List (Nat × β)
  | [] => [(k, b)]
  | (j, c) :: es =>
    if k < j then (k, b) :: (j, c) :: es
    else if k = j then (k, b) :: es
    else (j, c) :: insertEntry k b es

theorem map_fst_insertEntry (k : Nat) (b : β) (es : List (Nat × β)) :
    (insertEntry k b es).map Prod.fst = IndexSet.insertSorted k (es.map Prod.fst) := by
  induction es with
  | nil => rfl
  | cons e es ih =>
    rw [insertEntry, List.map_cons, IndexSet.insertSorted]
    split
    · simp
    · split
      · simp_all
      · simp [ih]

theorem lookup_insertEntry {k : Nat} {b : β} {es : List (Nat × β)}
    (x : Nat) : lookup x (insertEntry k b es) = if x = k then some b else lookup x es := by
  induction es with
  | nil => simp [insertEntry, lookup]
  | cons e es ih =>
    rw [insertEntry]
    split
    · simp [lookup]
    · split
      · rename_i h
        subst h
        simp only [lookup]
        split <;> rfl
      · rename_i h
        simp only [lookup, ih]
        grind

/-- The map with a value written at a key. -/
def insert (m : IndexMap β) (k : Nat) (b : β) : IndexMap β :=
  ⟨insertEntry k b m.entries, by
    rw [map_fst_insertEntry]; exact IndexSet.sorted_insertSorted m.sorted⟩

theorem find?_insert (m : IndexMap β) (k : Nat) (b : β) (x : Nat) :
    (m.insert k b).find? x = if x = k then some b else m.find? x :=
  lookup_insertEntry x

@[simp] theorem mem_keys_insert {m : IndexMap β} {k : Nat} {b : β} {x : Nat} :
    x ∈ (m.insert k b).keys ↔ x = k ∨ x ∈ m.keys := by
  rw [mem_keys, mem_keys, find?_insert]
  split <;> simp_all

/-- The map of a list of entries, in any order; of two entries for one key the later one counts. -/
def ofList (es : List (Nat × β)) : IndexMap β :=
  es.foldl (fun m e => m.insert e.1 e.2) ∅

/-- Writing entries with distinct keys one after the other. -/
theorem find?_foldl_insert {es : List (Nat × β)} (h : (es.map Prod.fst).Nodup) (m : IndexMap β)
    {k : Nat} {b : β} : (es.foldl (fun m e => m.insert e.1 e.2) m).find? k = some b ↔
      (k, b) ∈ es ∨ k ∉ es.map Prod.fst ∧ m.find? k = some b := by
  induction es generalizing m with
  | nil => simp
  | cons e es ih =>
    rw [List.map_cons, List.nodup_cons] at h
    rw [List.foldl_cons, ih h.2, find?_insert]
    by_cases hk : k = e.1
    · -- The later entries are at other keys, so the first one is read.
      subst hk
      have hlater : (e.1, b) ∉ es := fun hb => h.1 (List.mem_map.2 ⟨_, hb, rfl⟩)
      simp [hlater, h.1, Prod.ext_iff, eq_comm]
    · simp [hk, Prod.ext_iff]

/-- A map made of entries with distinct keys holds exactly these. -/
theorem find?_ofList {es : List (Nat × β)} (h : (es.map Prod.fst).Nodup) {k : Nat} {b : β} :
    (ofList es).find? k = some b ↔ (k, b) ∈ es := by
  rw [ofList, find?_foldl_insert h]
  exact or_iff_left fun hempty => by cases hempty.2

end IndexMap

end MeshPartition
