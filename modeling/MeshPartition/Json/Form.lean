import MeshPartition.GlobalId
import MeshPartition.IndexMap
import MeshPartition.Json

/-!
# JSON forms

A type with a `JsonForm` is written as one JSON value and read from it. This module has the forms of
numbers, lists, sets and maps, and the two ways in which larger types are built: a record is an
object with named members, of which unknown ones are skipped and known ones may not be repeated; a
plain choice is the string that names it. A record may also be written as the array of its members
in order, and a choice as an object whose one member has the name as key and `null` as value.
-/

namespace MeshPartition

/-- Types that are written as JSON values. -/
class JsonForm (α : Type) where
  /-- The value that is written. -/
  toJson : α → Json
  /-- What a value stands for. -/
  ofJson? : Json → Option α

namespace Json

export JsonForm (toJson ofJson?)

variable {α : Type}

/-- What a text stands for. -/
def read? [JsonForm α] (s : String) : Option α := do
  ofJson? (← ofText? s)

/-- The text that is written. -/
def write [JsonForm α] (a : α) : String := render (toJson a)

/-- A natural number is a whole number below `2 ^ 64`. -/
instance : JsonForm Nat where
  toJson := ofNat
  ofJson? := nat?

instance : JsonForm Bool where
  toJson := bool
  ofJson?
    | bool b => some b
    | _ => none

instance : JsonForm GlobalId where
  toJson id := ofNat id.toNat
  ofJson? v := v.nat?.bind GlobalId.ofNat?

/-- A value that may be absent is `null` if it is. -/
instance [JsonForm α] : JsonForm (Option α) where
  toJson
    | some a => toJson a
    | none => null
  ofJson?
    | null => some none
    | v => (ofJson? v).map some

instance [JsonForm α] : JsonForm (List α) where
  toJson as := array (as.map toJson)
  ofJson?
    | array items => items.mapM ofJson?
    | _ => none

/-- A set is the array of its members, which may come in any order and repeat. -/
instance : JsonForm IndexSet where
  toJson s := toJson s.toList
  ofJson? v := (ofJson? v).map IndexSet.ofList

/-- A map is an object whose keys are numbers within quotes; of two members for one number the
later one counts. -/
instance [JsonForm α] : JsonForm (IndexMap α) where
  toJson m := object (m.entries.map fun e => (Nat.toDigits 10 e.1, toJson e.2))
  ofJson?
    | object members => (members.mapM fun (e : List Char × Json) => do
        let k ← literalNat? e.1
        let a ← ofJson? e.2
        return (k, a)).map IndexMap.ofList
    | _ => none

/-- An object with the given members. -/
def ofMembers (members : List (String × Json)) : Json :=
  object (members.map fun e => (Quoted.encode e.1.toList, e.2))

/-- The value of the only member with a given name; fails if the name is repeated. -/
def onlyMember? (members : List (List Char × Json)) (name : String) : Option (Option Json) :=
  match members.filter fun e => e.1 = name.toList with
  | [] => some none
  | [e] => some (some e.2)
  | _ => none

/-- The members of a record with the given names, in the order of the names; `none` in place of one
that is absent. -/
def members? (names : List String) : Json → Option (List (Option Json))
  | object members => do
    let members ← members.mapM fun (e : List Char × Json) => do
      let key ← Quoted.decode e.1
      return (key, e.2)
    names.mapM (onlyMember? members)
  | array items =>
    if items.length ≤ names.length then
      some (items.map some ++ List.replicate (names.length - items.length) none)
    else none
  | _ => none

/-- Reads a member that has to be there. -/
def required? [JsonForm α] (member : Option Json) : Option α := member.bind ofJson?

/-- Reads a member that stands for a default if it is absent. -/
def withDefault? [JsonForm α] (default : α) : Option Json → Option α
  | none => some default
  | some v => ofJson? v

/-- The choice with a given name, among all choices of a type. -/
def named? (name : α → String) (all : List α) (s : String) : Option α :=
  all.find? fun a => name a = s

/-- The choice that a value names, among all choices of a type. -/
def choice? (name : α → String) (all : List α) : Json → Option α
  | text raw => (text raw).string?.bind (named? name all)
  | object [(key, null)] => (text key).string?.bind (named? name all)
  | _ => none

end Json

end MeshPartition
