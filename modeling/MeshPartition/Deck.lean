import MeshPartition.Deck.Constraint
import MeshPartition.Run

/-!
# Input decks

A deck is a text of records. Some header records come first, up to the one that announces how many
nodes and elements follow; then come the records of the nodes, those of the elements, and a trailer
that is kept as it is. `Sections` splits the records, `Deck.ofText` builds the mesh.
-/

namespace MeshPartition

namespace Deck

/-- The records of a deck, by section. -/
structure Sections where
  header : List Record
  /-- The record that announces the sizes. -/
  components : Record
  nodes : List Record
  elements : List Record
  trailer : List Record
deriving DecidableEq

/-- The first `count` records of a list and the rest. -/
def takeSection (part : DeckSection) (count : Nat) (records : List Record) :
    Except Error (List Record × List Record) :=
  if records.length < count then
    .error (.truncatedInput part count records.length)
  else
    .ok (records.take count, records.drop count)

/-- Splits the records of a deck. -/
def Sections.ofRecords (records : List Record) : Except Error Sections :=
  let announces (r : Record) := r.has "ndofman"
  let header := records.takeWhile (!announces ·)
  match records.dropWhile (!announces ·) with
  | [] => .error (.missingKeyword "ndofman" .endOfInput)
  | components :: rest => do
    let nodeCount ← components.value Text.unsigned? "ndofman"
    let elementCount ← components.value Text.unsigned? "nelem"
    let (nodes, rest) ← takeSection .nodes nodeCount rest
    let (elements, trailer) ← takeSection .elements elementCount rest
    return ⟨header, components, nodes, elements, trailer⟩

/-- Adds the node that a record describes. -/
def addNode (m : Mesh) (r : Record) : Except Error Mesh := do
  let id ← r.id
  let constraint ← r.constraint
  let (_, m) ← m.addNode id constraint
  return m

/-- Adds the element that a record describes. -/
def addElement (m : Mesh) (r : Record) : Except Error Mesh := do
  let id ← r.id
  let nodes ← r.list Text.unsigned? "nodes"
  let nodeIds ← r.globalIds "nodes" nodes
  let (_, m) ← m.addElement id nodeIds
  return m

/-- The mesh that the records describe. -/
def Sections.mesh (s : Sections) : Except Error Mesh := do
  let nodes ← s.nodes.foldlM addNode Mesh.empty
  s.elements.foldlM addElement nodes

end Deck

/-- A deck that was read: its records and the mesh they describe. -/
structure Deck extends Deck.Sections where
  mesh : Mesh
deriving DecidableEq

/-- What there is to read of a deck: some bytes, and perhaps a failure after them. -/
structure DeckSource where
  bytes : ByteArray
  failure : Option String

/-- The text of a source. A failure to read counts before what the bytes say. -/
def DeckSource.text (s : DeckSource) : Except Error String :=
  match s.failure with
  | some reason => .error (.unreadable reason)
  | none =>
    match String.fromUTF8? s.bytes with
    | some text => .ok text
    | none => .error .notUtf8

namespace Deck

/-- Reads a deck. -/
def ofText (text : String) : Except Error Deck := do
  let sections ← Sections.ofRecords (Record.ofText text)
  let mesh ← sections.mesh
  return { sections with mesh := mesh }

/-- The log entry of a deck that was read. -/
def logEntry (d : Deck) : LogEntry :=
  .deckRead d.mesh.nodeCount d.mesh.elementCount d.trailer.length

end Deck

namespace DeckSource

/-- Reads the deck of a source. -/
def read (source : DeckSource) : Logged Deck := do
  let text ← source.text
  let deck ← Deck.ofText text
  Logged.note deck.logEntry
  return deck

/-- Reads the deck of a source and cuts its mesh into parts. -/
def partition (source : DeckSource) (partitioner : Partitioner) (config : Config) :
    Logged (Deck × Run) := do
  let deck ← source.read
  let run ← deck.mesh.partition partitioner config
  return (deck, run)

end DeckSource

end MeshPartition
