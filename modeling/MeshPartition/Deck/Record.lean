import MeshPartition.Deck.Token
import MeshPartition.Error
import MeshPartition.Text.Lines
import MeshPartition.Text.Numeral

/-!
# Records

A record is a line of a deck: its first word is the kind of the record, its second the number of
what it describes, and the rest are keywords with their values. Keywords are found wherever they
stand, in any case, but never inside quotes. What follows a keyword is read by a function given by
the caller, so that one accessor serves all types of values. A keyword that is wanted and absent,
and one whose values do not read, give the same error, which shows the record.
-/

namespace MeshPartition.Deck

/-- One line of a deck. -/
structure Record where
  /-- The number of the line, from `1`. -/
  line : Nat
  /-- The line without the blanks at its end. -/
  text : String
  tokens : List Token
deriving DecidableEq

/-- A text with its ASCII letters in lower case; keywords and kinds are compared in this form. -/
def foldCase (s : String) : String := String.ofList (s.toList.map Char.toLower)

namespace Record

variable {α : Type}

/-- The record on a line. -/
def ofLine (number : Nat) (line : List Char) : Record where
  line := number
  text := String.ofList (Text.trimRight line)
  tokens := Token.ofLine line

/-- The first word, in lower case; empty if the line starts with a quote or has no words. -/
def kind (r : Record) : String :=
  match r.tokens.head?.bind Token.word? with
  | some w => foldCase w
  | none => ""

/-- The error of a record that lacks a keyword. -/
def missing (r : Record) (keyword : String) : Error := .missingKeyword keyword (.line r.line r.text)

/-- The word at a position, as `read` reads it. -/
def wordAt? (r : Record) (read : String → Option α) (i : Nat) : Option α :=
  (r.tokens[i]?.bind Token.word?).bind read

/-- The word at a position, which `keyword` asks for. -/
def wordAt (r : Record) (read : String → Option α) (i : Nat) (keyword : String) : Except Error α :=
  match r.wordAt? read i with
  | some a => .ok a
  | none => .error (r.missing keyword)

/-- The number of what the record describes. -/
def number (r : Record) : Except Error Nat := r.wordAt Text.unsigned? 1 "record number"

/-- Where a keyword stands. -/
def position? (r : Record) (keyword : String) : Option Nat :=
  r.tokens.findIdx? fun t => t.word?.any fun w => foldCase w = foldCase keyword

/-- Whether a keyword stands in the record. -/
def has (r : Record) (keyword : String) : Bool := (r.position? keyword).isSome

/-- The value after a keyword, if the keyword is there. -/
def optionalValue (r : Record) (read : String → Option α) (keyword : String) :
    Except Error (Option α) :=
  match r.position? keyword with
  | none => .ok none
  | some i => (r.wordAt read (i + 1) keyword).map some

/-- Turns an absent keyword into an error. -/
def required (r : Record) (keyword : String) : Option α → Except Error α
  | some a => .ok a
  | none => .error (r.missing keyword)

/-- The value after a keyword. -/
def value (r : Record) (read : String → Option α) (keyword : String) : Except Error α := do
  r.required keyword (← r.optionalValue read keyword)

/-- All of the first `count` tokens of a list, as words that `read` reads. No count is too large to
ask for: the answer is `none` as soon as the tokens run out. -/
def readWords (read : String → Option α) : Nat → List Token → Option (List α)
  | 0, _ => some []
  | _ + 1, [] => none
  | count + 1, t :: ts => do
    let a ← t.word?.bind read
    let rest ← readWords read count ts
    return a :: rest

/-- The values after a keyword, as many as the word after the keyword says, if the keyword is
there. -/
def optionalList (r : Record) (read : String → Option α) (keyword : String) :
    Except Error (Option (List α)) :=
  match r.position? keyword with
  | none => .ok none
  | some i => do
    let count ← r.wordAt Text.unsigned? (i + 1) keyword
    match readWords read count (r.tokens.drop (i + 2)) with
    | some values => return some values
    | none => throw (r.missing keyword)

/-- The values after a keyword, as many as the word after the keyword says. -/
def list (r : Record) (read : String → Option α) (keyword : String) : Except Error (List α) := do
  r.required keyword (← r.optionalList read keyword)

/-- Whether a line holds a record: neither blank nor a comment. -/
def isRecordLine (line : List Char) : Bool :=
  match line.dropWhile Text.isBlank with
  | [] => false
  | c :: _ => c != '#'

/-- The records of a text. -/
def ofText (text : String) : List Record :=
  ((Text.numberedLines text.toList).filter fun l => isRecordLine l.1).map fun l => ofLine l.2 l.1

end Record

end MeshPartition.Deck
