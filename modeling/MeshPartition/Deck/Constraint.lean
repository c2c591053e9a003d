import MeshPartition.Deck.Record
import MeshPartition.Dependency

/-!
# Constraints in a deck

How the record of a node says what the node depends on. The rules are tried in order and the first
that applies decides: a mask of masters with an entry other than zero (not for rigid arms), a list
of masters, then what the kind of the record asks for. Zero is no id, so a zero that would have to
name a master counts as a missing keyword.
-/

namespace MeshPartition.Deck.Record

/-- The ids with given numbers, which `keyword` asks for. -/
def globalIds (r : Record) (keyword : String) : List Nat → Except Error (List GlobalId)
  | [] => .ok []
  | n :: ns =>
    match GlobalId.ofNat? n with
    | none => .error (r.missing keyword)
    | some id => (r.globalIds keyword ns).map (id :: ·)

/-- The id of what the record describes. -/
def id (r : Record) : Except Error GlobalId := do
  let n ← r.number
  match GlobalId.ofNat? n with
  | some id => return id
  | none => throw (r.missing "record number")

/-- The masters of a mask: the entries other than zero, if there are any. -/
def maskedMasters (r : Record) : Except Error (Option (List Nat)) := do
  match ← r.optionalList Text.unsigned? "mastermask" with
  | none => return none
  | some mask =>
    let masters := distinct (mask.filter (· ≠ 0))
    return if masters.isEmpty then none else some masters

/-- The listed masters. A record of kind slavenode has to list them. -/
def listedMasters (r : Record) : Except Error (Option (List Nat)) := do
  match ← r.optionalList Text.unsigned? "masterdofman" with
  | some masters => return some (distinct masters)
  | none => if r.kind = "slavenode" then throw (r.missing "masterdofman") else return none

/-- The constraint that the kind of the record asks for. -/
def kindConstraint (r : Record) : Except Error (Option Constraint) := do
  if r.kind = "rigidarmnode" then
    let master ← r.value Text.unsigned? "master"
    return some (.rigidArm (← r.globalIds "master" [master]))
  else if r.kind = "hangingnode" then
    let host ← r.optionalValue Text.signed? "masterelement"
    return some (.hangingOnElement (host.bind fun n => GlobalId.ofNat? n.toNat))
  else
    return none

/-- The constraint of the node that the record describes. -/
def constraint (r : Record) : Except Error (Option Constraint) := do
  let masked ← if r.kind = "rigidarmnode" then pure none else r.maskedMasters
  match masked with
  | some masters => return some (.explicitMasters (← r.globalIds "mastermask" masters))
  | none =>
    match ← r.listedMasters with
    | some masters => return some (.explicitMasters (← r.globalIds "masterdofman" masters))
    | none => r.kindConstraint

end MeshPartition.Deck.Record
