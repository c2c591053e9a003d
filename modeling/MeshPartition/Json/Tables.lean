import MeshPartition.Config
import MeshPartition.Json.Form
import MeshPartition.Summary

/-!
# JSON forms of the library's tables

The forms of constraints, settings, reports, classifications, assignments, node lists and summaries.
Reading checks the shape only: an assignment may name parts that do not exist, and the two halves of
a classification may have different lengths.
-/

namespace MeshPartition

open Json

/-- The name of a kind of constraint. -/
def ConstraintKind.name : ConstraintKind → String
  | explicitMasters => "ExplicitMasters"
  | rigidArm => "RigidArm"
  | hangingOnElement => "HangingOnElement"

instance : JsonForm ConstraintKind where
  toJson k := ofString k.name
  ofJson? := choice? ConstraintKind.name [.explicitMasters, .rigidArm, .hangingOnElement]

/-- A constraint is an object with one member, whose key is the kind. -/
instance : JsonForm Constraint where
  toJson c := ofMembers [(c.kind.name,
    match c with
    | .explicitMasters masters => toJson masters
    | .rigidArm masters => toJson masters
    | .hangingOnElement element => toJson element)]
  ofJson?
    | object [(key, v)] => do
      let kind : ConstraintKind ← ofJson? (text key)
      match kind with
      | .explicitMasters => return .explicitMasters (← ofJson? v)
      | .rigidArm => return .rigidArm (← ofJson? v)
      | .hangingOnElement => return .hangingOnElement (← ofJson? v)
    | _ => none

/-- The name of a status. -/
def NodeStatus.name : NodeStatus → String
  | undefined => "Undefined"
  | localOnly => "Local"
  | shared => "Shared"

instance : JsonForm NodeStatus where
  toJson s := ofString s.name
  ofJson? := choice? NodeStatus.name [.undefined, .localOnly, .shared]

/-- The name of a closure mode. -/
def ClosureMode.name : ClosureMode → String
  | singlePass => "single-pass"
  | fixedPoint => "fixed-point"

/-- The closure mode with a given name. -/
def ClosureMode.ofName? : String → Option ClosureMode :=
  named? ClosureMode.name [.singlePass, .fixedPoint]

instance : JsonForm ClosureMode where
  toJson m := ofString m.name
  ofJson? := choice? ClosureMode.name [.singlePass, .fixedPoint]

instance : JsonForm Classification where
  toJson c := ofMembers [("status", toJson c.status), ("partitions", toJson c.partitions)]
  ofJson? v := do
    match ← members? ["status", "partitions"] v with
    | [status, partitions] => return ⟨← required? status, ← required? partitions⟩
    | _ => none

instance : JsonForm ClosureReport where
  toJson r := ofMembers [("mode", toJson r.mode), ("passes", toJson r.passes),
    ("converged", toJson r.converged)]
  ofJson? v := do
    match ← members? ["mode", "passes", "converged"] v with
    | [mode, passes, converged] =>
      return ⟨← required? mode, ← required? passes, ← required? converged⟩
    | _ => none

instance : JsonForm Assignment where
  toJson a := ofMembers [("parts", toJson a.parts), ("n_parts", toJson a.partCount)]
  ofJson? v := do
    match ← members? ["parts", "n_parts"] v with
    | [parts, partCount] => return ⟨← required? parts, ← required? partCount⟩
    | _ => none

instance : JsonForm Summary where
  toJson s := ofMembers [("partition", toJson s.partition), ("local_nodes", toJson s.localNodes),
    ("shared_nodes", toJson s.sharedNodes), ("elements", toJson s.elements)]
  ofJson? v := do
    match ← members? ["partition", "local_nodes", "shared_nodes", "elements"] v with
    | [partition, localNodes, sharedNodes, elements] =>
      return ⟨← required? partition, ← required? localNodes, ← required? sharedNodes,
        ← required? elements⟩
    | _ => none

instance : JsonForm NodeList where
  toJson l := ofMembers [("partition", toJson l.partition), ("elements", toJson l.elements),
    ("local_nodes", toJson l.localNodes), ("shared_nodes", toJson l.sharedNodes)]
  ofJson? v := do
    match ← members? ["partition", "elements", "local_nodes", "shared_nodes"] v with
    | [partition, elements, localNodes, sharedNodes] =>
      return ⟨← required? partition, ← required? elements, ← required? localNodes,
        ← required? sharedNodes⟩
    | _ => none

/-- Settings need not name a closure mode: dependencies are closed to a fixed point then. -/
instance : JsonForm Config where
  toJson c := ofMembers [("n_parts", toJson c.partCount), ("closure", toJson c.closure)]
  ofJson? v := do
    match ← members? ["n_parts", "closure"] v with
    | [partCount, closure] =>
      return ⟨← required? partCount, ← withDefault? .fixedPoint closure⟩
    | _ => none

end MeshPartition
