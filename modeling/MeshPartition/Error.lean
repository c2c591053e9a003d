import MeshPartition.GlobalId

/-!
# Causes of failure

Every operation of the library that can fail returns one `Error`, a cause with the data that
explains it. The wording is kept apart, in `Error.message`, so that code and theorems speak of
causes and only the outermost layer speaks of texts.
-/

namespace MeshPartition

/-- Who mentions an id that names nothing. -/
inductive Referrer where
  /-- The element with this id, in its node list. -/
  | element (id : GlobalId)
  /-- The node with this id, in its list of masters. -/
  | slave (id : GlobalId)
  /-- The node with this id, as the element it hangs on. -/
  | hanging (id : GlobalId)
deriving DecidableEq

/-- The two kinds of thing that carry global ids. -/
inductive Entity where
  | node
  | element
deriving DecidableEq

/-- What is wrong with an assignment of elements to parts. -/
inductive AssignmentFault where
  /-- An element is given to a part past the last one. -/
  | noSuchPart (element part parts : Nat)
  /-- A list made by hand does not have one entry for each element. -/
  | listLength (listed elements : Nat)
  /-- An assignment does not have one entry for each element of the incidence table. -/
  | entryCount (entries elements : Nat)
  /-- A partitioner answered for another mesh, or for another number of parts. -/
  | wrongShape (partitioner : String) (entries parts elements wanted : Nat)
deriving DecidableEq

/-- The tables whose sizes have to agree before node lists are built. -/
inductive Table where
  | incidence
  | incidenceElements
  | assignment
  | classification
  | partitionSets
  | dependencies
deriving DecidableEq

/-- The sections of a deck whose sizes are announced. -/
inductive DeckSection where
  | nodes
  | elements
deriving DecidableEq

/-- Where in a deck a keyword was looked for. -/
inductive Place where
  /-- In the record on this line. -/
  | line (number : Nat) (text : String)
  /-- In none of the records. -/
  | endOfInput
deriving DecidableEq

/-- Why an operation failed. -/
inductive Error where
  /-- A keyword is absent, or what follows it does not read. -/
  | missingKeyword (keyword : String) (place : Place)
  /-- A hanging node does not say which element it hangs on. -/
  | unsupportedConstraint (node : GlobalId)
  /-- A partitioner cannot do the job. -/
  | partitionerUnavailable (reason : String)
  /-- A mesh cannot be cut into this number of parts. -/
  | invalidPartitionCount (count : Nat)
  /-- A number is no global id. -/
  | invalidGlobalId
  | unknownNode (id : GlobalId) (referrer : Referrer)
  | unknownElement (id : GlobalId) (referrer : Referrer)
  /-- An element names a node position past the nodes of the mesh. -/
  | invalidNodeIndex (element : GlobalId) (index nodeCount : Nat)
  | duplicateId (entity : Entity) (id : GlobalId)
  | invalidAssignment (fault : AssignmentFault)
  /-- A table does not have the size of the tables it is used with. -/
  | sizeMismatch (table : Table) (expected found : Nat)
  /-- A deck ends before the announced number of records. -/
  | truncatedInput (part : DeckSection) (expected found : Nat)
  /-- The source of a deck failed while it was read. -/
  | unreadable (reason : String)
  /-- The bytes of a deck are no UTF-8 text. -/
  | notUtf8
  /-- A position past the end of a table was asked for. -/
  | indexOutOfRange
deriving DecidableEq

/-- How a referrer is named in a message. -/
def Referrer.text : Referrer → String
  | element id => s!"element {id}"
  | slave id => s!"slave node {id}"
  | hanging id => s!"hanging node {id}"

/-- How an entity is named in a message. -/
def Entity.text : Entity → String
  | node => "node"
  | element => "element"

/-- The message of a faulty assignment, without the words that all of them share. -/
def AssignmentFault.text : AssignmentFault → String
  | noSuchPart element part parts =>
    s!"element {element} assigned to partition {part}, but only {parts} partitions exist"
  | listLength listed elements => s!"manual partition lists {listed} elements, mesh has {elements}"
  | entryCount entries elements => s!"{entries} entries for {elements} elements"
  | wrongShape partitioner entries parts elements wanted =>
    s!"{partitioner} returned {entries} entries over {parts} parts, " ++
      s!"expected {elements} over {wanted}"

/-- How a table is named in a message. -/
def Table.text : Table → String
  | incidence => "connectivity index"
  | incidenceElements => "connectivity index elements"
  | assignment => "partition assignment"
  | classification => "node classification"
  | partitionSets => "node partition sets"
  | dependencies => "dependency table"

/-- How a section is named in a message. -/
def DeckSection.text : DeckSection → String
  | nodes => "dof manager"
  | elements => "element"

/-- How a place is named in a message. -/
def Place.text : Place → String
  | line number text => s!"line {number}: {text}"
  | endOfInput => "<end of input>"

/-- The text shown to a user. -/
def Error.message : Error → String
  | missingKeyword keyword place => s!"Missing keyword \"{keyword}\" in\n{place.text}"
  | unsupportedConstraint node =>
    s!"Hanging node {node} has no master element; automatic master lookup is not supported"
  | partitionerUnavailable reason => s!"External partitioner unavailable: {reason}"
  | invalidPartitionCount count =>
    s!"Invalid partition count {count}: at least one partition is required"
  | invalidGlobalId => "Global id must be non-zero"
  | unknownNode id referrer => s!"Unknown node {id} referenced by {referrer.text}"
  | unknownElement id referrer => s!"Unknown element {id} referenced by {referrer.text}"
  | invalidNodeIndex element index nodeCount =>
    s!"Element {element} references node index {index}, but the mesh has {nodeCount} nodes"
  | duplicateId entity id => s!"Duplicate {entity.text} id {id}"
  | invalidAssignment fault => s!"Invalid partition assignment: {fault.text}"
  | sizeMismatch table expected found => s!"{table.text} has {found} entries, expected {expected}"
  | truncatedInput part expected found =>
    s!"Truncated input: expected {expected} {part.text} records, found {found}"
  | unreadable reason => s!"I/O error: {reason}"
  | notUtf8 => "I/O error: stream did not contain valid UTF-8"
  | indexOutOfRange => "Index out of range"

/-- The id with a given number. -/
def GlobalId.ofNat (n : Nat) : Except Error GlobalId :=
  match GlobalId.ofNat? n with
  | some id => .ok id
  | none => .error .invalidGlobalId

theorem GlobalId.ofNat_eq_ok_iff {n : Nat} {id : GlobalId} :
    GlobalId.ofNat n = .ok id ↔ id.toNat = n := by
  unfold GlobalId.ofNat
  constructor
  · intro h
    split at h
    · cases h; exact GlobalId.toNat_of_ofNat? ‹_›
    · cases h
  · rintro rfl
    simp

/-- Two computations in a row succeed if both do. -/
theorem bind_eq_ok_iff {α β : Type} {x : Except Error α} {f : α → Except Error β} {b : β} :
    (x >>= f) = .ok b ↔ ∃ a, x = .ok a ∧ f a = .ok b := by
  cases x with
  | error e => exact ⟨nofun, fun ⟨_, h, _⟩ => nomatch h⟩
  | ok a => exact ⟨fun h => ⟨a, rfl, h⟩, fun ⟨_, h, hf⟩ => by cases h; exact hf⟩

/-- A computation whose result is changed succeeds if it does without the change. -/
theorem map_eq_ok_iff {α β : Type} {x : Except Error α} {f : α → β} {b : β} :
    x.map f = .ok b ↔ ∃ a, x = .ok a ∧ f a = b := by
  cases x with
  | error e => exact ⟨nofun, fun ⟨_, h, _⟩ => nomatch h⟩
  | ok a =>
    exact ⟨fun h => ⟨a, rfl, Except.ok.inj h⟩, fun ⟨_, h, hf⟩ => by cases h; exact congrArg _ hf⟩

/-- The entry of a table at a position. -/
def entryAt {α : Type} (table : List α) (i : Nat) : Except Error α :=
  match table[i]? with
  | some a => .ok a
  | none => .error .indexOutOfRange

theorem entryAt_eq_ok_iff {α : Type} {table : List α} {i : Nat} {a : α} :
    entryAt table i = .ok a ↔ table[i]? = some a := by
  unfold entryAt
  split <;> simp_all

theorem entryAt_of_lt {α : Type} {table : List α} {i : Nat} (h : i < table.length) :
    entryAt table i = .ok table[i] := by
  simp [entryAt_eq_ok_iff, h]

end MeshPartition
