/-!
# Global ids

Nodes and elements carry an id of their own beside their position in the mesh: a 64-bit number
other than zero, which is what input decks and JSON texts refer to. The bounds are part of the
type, so an id that exists can always be written down and read back.
-/

namespace MeshPartition

/-- The id of a node or an element: a number from `1` to `2 ^ 64 - 1`. -/
structure GlobalId where
  /-- The number itself. -/
  toNat : Nat
  /-- Zero is kept free, as the id of nothing. -/
  pos : 0 < toNat
  /-- Ids fit in 64 bits. -/
  lt : toNat < UInt64.size
deriving DecidableEq

namespace GlobalId

/-- The ids `1` to `256`, counted from zero. -/
def nth (i : UInt8) : GlobalId where
  toNat := i.toNat + 1
  pos := Nat.succ_pos i.toNat
  lt := Nat.lt_of_le_of_lt i.toNat_lt (by decide)

/-- The id with a given number, if there is one. -/
def ofNat? (n : Nat) : Option GlobalId :=
  if h : 0 < n ∧ n < UInt64.size then some ⟨n, h.1, h.2⟩ else none

theorem toNat_injective {a b : GlobalId} (h : a.toNat = b.toNat) : a = b := by
  cases a; cases b; cases h; rfl

@[simp] theorem ofNat?_toNat (id : GlobalId) : ofNat? id.toNat = some id :=
  dif_pos ⟨id.pos, id.lt⟩

theorem toNat_of_ofNat? {n : Nat} {id : GlobalId} (h : ofNat? n = some id) : id.toNat = n := by
  unfold ofNat? at h
  split at h
  · cases h; rfl
  · cases h

/-- An id is written as its number. -/
instance : ToString GlobalId := ⟨fun id => toString id.toNat⟩

/-- The id with its type spelled out, for messages in which a bare number could be misread. -/
def tagged (id : GlobalId) : String := s!"GlobalId({id})"

end GlobalId

end MeshPartition
