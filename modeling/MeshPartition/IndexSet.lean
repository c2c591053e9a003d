/-!
# Finite sets of positions

Parts, nodes and elements are numbered from zero, and most tables of the library hold sets of such
numbers. `IndexSet` keeps one as its ascending list, so that two sets with the same members are
equal (`IndexSet.ext`) and listing one is reading its list. Each operation has one lemma that says
what it does to membership; nothing else about the operations is needed elsewhere.
-/

namespace MeshPartition

/-- A finite set of natural numbers. -/
structure IndexSet where
  /-- The members, ascending. -/
  toList : List Nat
  /-- No member is listed twice or out of order. -/
  sorted : toList.Pairwise (· < ·)
deriving DecidableEq

namespace IndexSet

instance : Membership Nat IndexSet := ⟨fun s a => a ∈ s.toList⟩

instance (a : Nat) (s : IndexSet) : Decidable (a ∈ s) :=
  inferInstanceAs (Decidable (a ∈ s.toList))

@[simp] theorem mem_toList {a : Nat} {s : IndexSet} : a ∈ s.toList ↔ a ∈ s := Iff.rfl

/-- Ascending lists with the same members are equal. -/
theorem eq_of_mem_iff_of_sorted {as bs : List Nat} (ha : as.Pairwise (· < ·))
    (hb : bs.Pairwise (· < ·)) (h : ∀ x, x ∈ as ↔ x ∈ bs) : as = bs := by
  induction as generalizing bs with
  | nil =>
    cases bs with
    | nil => rfl
    | cons b bs => exact absurd ((h b).2 (by simp)) (by simp)
  | cons a as ih =>
    cases bs with
    | nil => exact absurd ((h a).1 (by simp)) (by simp)
    | cons b bs =>
      rw [List.pairwise_cons] at ha hb
      have hab : a = b := by
        -- Each head is a member of the other list, so neither is below the other.
        have h₁ := (h a).1 (by simp)
        have h₂ := (h b).2 (by simp)
        rw [List.mem_cons] at h₁ h₂
        rcases h₁ with h₁ | h₁
        · exact h₁
        · rcases h₂ with h₂ | h₂
          · exact h₂.symm
          · have := ha.1 b h₂
            have := hb.1 a h₁
            omega
      subst hab
      congr 1
      refine ih ha.2 hb.2 fun x => ?_
      have hx := h x
      rw [List.mem_cons, List.mem_cons] at hx
      constructor
      · intro hm
        have := ha.1 x hm
        rcases hx.1 (Or.inr hm) with h' | h'
        · omega
        · exact h'
      · intro hm
        have := hb.1 x hm
        rcases hx.2 (Or.inr hm) with h' | h'
        · omega
        · exact h'

/-- Sets with the same members are equal. -/
theorem ext {s t : IndexSet} (h : ∀ x, x ∈ s ↔ x ∈ t) : s = t := by
  have hl : s.toList = t.toList := eq_of_mem_iff_of_sorted s.sorted t.sorted h
  cases s; cases t; cases hl; rfl

theorem sorted_nil : ([] : List Nat).Pairwise (· < ·) := .nil

instance : EmptyCollection IndexSet := ⟨⟨[], sorted_nil⟩⟩

@[simp] theorem not_mem_empty (a : Nat) : a ∉ (∅ : IndexSet) := List.not_mem_nil

/-- The number of members. -/
def size (s : IndexSet) : Nat := s.toList.length

/-- Whether there are no members. -/
def isEmpty (s : IndexSet) : Bool := s.toList.isEmpty

@[simp] theorem isEmpty_iff {s : IndexSet} : s.isEmpty = true ↔ s = ∅ := by
  rw [isEmpty, List.isEmpty_iff]
  constructor
  · intro h
    cases s; cases h; rfl
  · rintro rfl
    rfl

/-- Insertion into an ascending list. -/
def insertSorted (a : Nat) : List Nat → List Nat
  | [] => [a]
  | b :: bs =>
    if a < b then a :: b :: bs
    else if a = b then b :: bs
    else b :: insertSorted a bs

@[simp] theorem mem_insertSorted {a x : Nat} {bs : List Nat} :
    x ∈ insertSorted a bs ↔ x = a ∨ x ∈ bs := by
  induction bs with
  | nil => simp [insertSorted]
  | cons b bs ih =>
    rw [insertSorted]
    split
    · simp
    · split
      · simp_all
      · simp only [List.mem_cons, ih]
        grind

theorem sorted_insertSorted {a : Nat} {bs : List Nat} (h : bs.Pairwise (· < ·)) :
    (insertSorted a bs).Pairwise (· < ·) := by
  induction bs with
  | nil => simp [insertSorted]
  | cons b bs ih =>
    rw [List.pairwise_cons] at h
    rw [insertSorted]
    split
    · rename_i hlt
      refine List.pairwise_cons.2 ⟨fun x hx => ?_, List.pairwise_cons.2 h⟩
      rcases List.mem_cons.1 hx with rfl | hx
      · exact hlt
      · exact Nat.lt_trans hlt (h.1 x hx)
    · split
      · exact List.pairwise_cons.2 h
      · refine List.pairwise_cons.2 ⟨fun x hx => ?_, ih h.2⟩
        rcases mem_insertSorted.1 hx with rfl | hx
        · omega
        · exact h.1 x hx

/-- The set with one more member. -/
def insert (s : IndexSet) (a : Nat) : IndexSet :=
  ⟨insertSorted a s.toList, sorted_insertSorted s.sorted⟩

@[simp] theorem mem_insert {s : IndexSet} {a x : Nat} : x ∈ s.insert a ↔ x = a ∨ x ∈ s :=
  mem_insertSorted

/-- The set of the members of a list. -/
def ofList : List Nat → IndexSet
  | [] => ∅
  | a :: as => (ofList as).insert a

@[simp] theorem mem_ofList {as : List Nat} {x : Nat} : x ∈ ofList as ↔ x ∈ as := by
  induction as with
  | nil => simp [ofList]
  | cons a as ih => simp [ofList, ih]

theorem ofList_toList (s : IndexSet) : ofList s.toList = s := ext fun _ => by simp

/-- All members of the one set, inserted into the other. -/
def insertAll (s : IndexSet) : List Nat → IndexSet
  | [] => s
  | a :: as => (s.insertAll as).insert a

@[simp] theorem mem_insertAll {s : IndexSet} {as : List Nat} {x : Nat} :
    x ∈ s.insertAll as ↔ x ∈ as ∨ x ∈ s := by
  induction as with
  | nil => simp [insertAll]
  | cons a as ih => simp [insertAll, ih, or_assoc]

/-- The members of either set. -/
instance : Union IndexSet := ⟨fun s t => s.insertAll t.toList⟩

@[simp] theorem mem_union {s t : IndexSet} {x : Nat} : x ∈ s ∪ t ↔ x ∈ s ∨ x ∈ t := by
  show x ∈ s.insertAll t.toList ↔ _
  rw [mem_insertAll, mem_toList, or_comm]

/-- The set without one of its members. -/
def erase (s : IndexSet) (a : Nat) : IndexSet :=
  ⟨s.toList.filter (· ≠ a), s.sorted.filter _⟩

@[simp] theorem mem_erase {s : IndexSet} {a x : Nat} : x ∈ s.erase a ↔ x ≠ a ∧ x ∈ s := by
  show x ∈ s.toList.filter (· ≠ a) ↔ _
  simp [and_comm]

instance : HasSubset IndexSet := ⟨fun s t => ∀ a ∈ s.toList, a ∈ t⟩

instance (s t : IndexSet) : Decidable (s ⊆ t) :=
  inferInstanceAs (Decidable (∀ a ∈ s.toList, a ∈ t))

end IndexSet

end MeshPartition
