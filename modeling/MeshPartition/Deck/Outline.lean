import MeshPartition.Deck

/-!
# Writing decks

The shortest way to write a mesh down: the line that announces the sizes, a line for each node and a
line for each element, and on a line nothing but what reading asks for. An `Outline` is what can be
written in this way. Its parts carry what a reader takes for granted: ids are distinct, elements
name nodes of the deck, lists of masters name nobody twice, and numbers fit in their types.
-/

namespace MeshPartition.Deck

/-- A line with at most one keyword after its number. -/
structure Line where
  kind : String
  number : Nat
  keyword? : Option String
  /-- The numbers at the end of the line. -/
  values : List Nat

/-- The words of a line. -/
def Line.words (l : Line) : List String :=
  l.kind :: l.number.repr :: (l.keyword?.toList ++ l.values.map Nat.repr)

/-- The text of some lines. Blanks stand between the words of a line, and each line has its end. -/
def textOfLines (lines : List Line) : String :=
  String.join (lines.map fun l => " ".intercalate l.words ++ "\n")

/-- The numbers of a list of ids: how many there are, and the ids. -/
def listNumbers (ids : List GlobalId) : List Nat := ids.length :: ids.map GlobalId.toNat

/-- What is said of the masters of a node. -/
inductive Tie where
  /-- Nothing. -/
  | free
  /-- They are listed, each of them once. -/
  | slave (masters : List GlobalId) (nodup : masters.Nodup)
  /-- The node is the end of a rigid arm. -/
  | rigidArm (master : GlobalId)
  /-- The node hangs on an element, which may be left open. Reading takes the id of the element for
  a signed number. -/
  | hanging (host : Option GlobalId) (host_lt : ∀ id ∈ host, id.toNat < UInt64.size / 2)

/-- The constraint of a node with some tie. -/
def Tie.constraint : Tie → Option Constraint
  | free => none
  | slave masters _ => some (.explicitMasters masters)
  | rigidArm master => some (.rigidArm [master])
  | hanging host _ => some (.hangingOnElement host)

/-- What is said of a node. -/
structure NodeEntry where
  id : GlobalId
  tie : Tie

namespace NodeEntry

/-- The line that says it. -/
def line (n : NodeEntry) : Line :=
  match n.tie with
  | .free => ⟨"node", n.id.toNat, none, []⟩
  | .slave masters _ => ⟨"slavenode", n.id.toNat, some "masterdofman", listNumbers masters⟩
  | .rigidArm master => ⟨"rigidarmnode", n.id.toNat, some "master", [master.toNat]⟩
  | .hanging none _ => ⟨"hangingnode", n.id.toNat, none, []⟩
  | .hanging (some host) _ => ⟨"hangingnode", n.id.toNat, some "masterelement", [host.toNat]⟩

/-- The node of which it is said. -/
def node (n : NodeEntry) : Node := ⟨n.id, n.tie.constraint⟩

end NodeEntry

/-- What is said of an element: the ids of its nodes. -/
structure ElementEntry where
  id : GlobalId
  nodeIds : List GlobalId
  /-- The length of the list is written before it. It is a 64-bit number, as the length of any list
  in memory is. -/
  length_lt : nodeIds.length < UInt64.size

/-- The line that says it. -/
def ElementEntry.line (e : ElementEntry) : Line :=
  ⟨"truss1d", e.id.toNat, some "nodes", listNumbers e.nodeIds⟩

/-- What a deck says that is written in the shortest way. -/
structure Outline where
  nodes : List NodeEntry
  elements : List ElementEntry
  nodeIds_nodup : (nodes.map NodeEntry.id).Nodup
  elementIds_nodup : (elements.map ElementEntry.id).Nodup
  /-- Elements name nodes of the deck. -/
  mem_nodes : ∀ e ∈ elements, ∀ id ∈ e.nodeIds, id ∈ nodes.map NodeEntry.id

namespace Outline

/-- The line that announces the sizes. -/
def announcement (o : Outline) : Line :=
  ⟨"ndofman", o.nodes.length, some "nelem", [o.elements.length]⟩

/-- The lines of the deck. -/
def lines (o : Outline) : List Line :=
  o.announcement :: (o.nodes.map NodeEntry.line ++ o.elements.map ElementEntry.line)

/-- The text of the deck. -/
def text (o : Outline) : String := textOfLines o.lines

/-- The position of the node with a given id. -/
def position (o : Outline) (id : GlobalId) : Nat := o.nodes.findIdx (·.id = id)

/-- The element that an entry is about, over the positions of the nodes that the entry names. -/
def element (o : Outline) (e : ElementEntry) : Element := ⟨e.id, e.nodeIds.map o.position⟩

theorem map_id_node (o : Outline) :
    (o.nodes.map NodeEntry.node).map Node.id = o.nodes.map NodeEntry.id := by
  rw [List.map_map]
  rfl

theorem map_id_element (o : Outline) :
    (o.elements.map o.element).map Element.id = o.elements.map ElementEntry.id := by
  rw [List.map_map]
  rfl

/-- The position of a node has the node with that id. -/
theorem getElem?_position {o : Outline} {id : GlobalId} (h : id ∈ o.nodes.map NodeEntry.id) :
    (o.nodes.map NodeEntry.id)[o.position id]? = some id := by
  obtain ⟨n, hn, rfl⟩ := List.mem_map.1 h
  have hlt : o.position n.id < o.nodes.length :=
    List.findIdx_lt_length_of_exists ⟨n, hn, by simp⟩
  have hid : o.nodes[o.position n.id].id = n.id :=
    of_decide_eq_true (List.findIdx_getElem (w := hlt))
  rw [List.getElem?_map, List.getElem?_eq_getElem hlt, Option.map_some, hid]

/-- The mesh that the deck is about. -/
def mesh (o : Outline) : Mesh where
  nodes := o.nodes.map NodeEntry.node
  elements := o.elements.map o.element
  nodeIds_nodup := by
    rw [map_id_node]
    exact o.nodeIds_nodup
  elementIds_nodup := by
    rw [map_id_element]
    exact o.elementIds_nodup
  node_lt := fun e he n hn => by
    obtain ⟨entry, hentry, rfl⟩ := List.mem_map.1 he
    obtain ⟨id, hid, rfl⟩ := List.mem_map.1 hn
    obtain ⟨hlt, -⟩ := List.getElem?_eq_some_iff.1
      (getElem?_position (o.mem_nodes entry hentry id hid))
    rwa [List.length_map] at hlt ⊢

end Outline

end MeshPartition.Deck
