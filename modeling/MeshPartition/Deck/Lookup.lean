import MeshPartition.Deck.Record

/-!
# Lists looked up by position

`Record.optionalList` reads a list off the rest of a record. A program that has the tokens in a
table asks for each of them by its position, a sum of 64-bit numbers: where the keyword stands, two,
and the number of the entry in the list. How many entries there are to be is what the record says,
and may be far more than it has. `Lookup` is such a computation. It keeps account of the positions
that it asks for, and it fails if a sum does not fit.
-/

namespace MeshPartition.Deck

/-- Why tokens are looked up no further. -/
inductive LookupFailure where
  /-- What is looked for is not there. -/
  | error (e : Error)
  /-- A sum does not fit in 64 bits. -/
  | overflow
deriving DecidableEq

/-- A computation that asks for tokens by their positions, with those that it has asked for. -/
abbrev Lookup := EStateM LookupFailure (List Nat)

namespace Lookup

variable {α : Type}

/-- What comes of a computation that asks for some positions and gives an answer. No sum of it has
failed to fit. -/
def resultOf (asked : List Nat) : Except Error α → EStateM.Result LookupFailure (List Nat) α
  | .ok a => .ok a asked
  | .error e => .error (.error e) asked

/-- Adds two numbers. -/
def sum (a b : Nat) : Lookup Nat := if a + b < UInt64.size then return a + b else throw .overflow

/-- Asks for a position. -/
def ask (i : Nat) : Lookup Unit := modify (· ++ [i])

/-- Looks for a keyword among tokens, the first of which is at position `i`. -/
def find (keyword : String) : Nat → List Token → Lookup (Option Nat)
  | _, [] => return none
  | i, t :: ts => do
    ask i
    if t.word?.any fun w => foldCase w = foldCase keyword then
      return some i
    else
      find keyword (← sum i 1) ts

/-- Looks up the word at a position, which `keyword` asks for. -/
def wordAt (r : Record) (read : String → Option α) (i : Nat) (keyword : String) : Lookup α := do
  ask i
  match r.wordAt? read i with
  | some a => return a
  | none => throw (.error (r.missing keyword))

/-- Looks up the entries of the list after the keyword at position `i`, from entry `k` on, as many
as are left. -/
def entries (r : Record) (read : String → Option α) (keyword : String) (i : Nat) :
    Nat → Nat → Lookup (List α)
  | 0, _ => return []
  | left + 1, k => do
    let a ← wordAt r read (← sum (← sum i 2) k) keyword
    let rest ← entries r read keyword i left (← sum k 1)
    return a :: rest

/-- Looks up the values after a keyword, as many as the word after the keyword says, if the keyword
is there. -/
def optionalList (r : Record) (read : String → Option α) (keyword : String) :
    Lookup (Option (List α)) := do
  match ← find keyword 0 r.tokens with
  | none => return none
  | some i =>
    let count ← wordAt r Text.unsigned? (← sum i 1) keyword
    let values ← entries r read keyword i count 0
    return some values

end Lookup

end MeshPartition.Deck
