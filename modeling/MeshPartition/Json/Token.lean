import MeshPartition.Json.Quoted

/-!
# Tokens of JSON texts

A JSON text is a sequence of marks, strings and bare words; the bare words are numbers, `true`,
`false` and `null`. Blanks may stand between tokens: spaces, tabs, line feeds and carriage returns,
and no others. Which bare words are allowed is decided when values are built.
-/

namespace MeshPartition.Json

/-- One token of a JSON text. -/
inductive Token where
  | beginArray
  | endArray
  | beginObject
  | endObject
  | colon
  | comma
  /-- A string, as it stands between its quotes. -/
  | text (raw : List Char)
  /-- A number or the name of a constant. -/
  | bare (word : List Char)
deriving DecidableEq

namespace Token

/-- The characters of a token. -/
def chars : Token → List Char
  | beginArray => ['[']
  | endArray => [']']
  | beginObject => ['\x7b']
  | endObject => ['\x7d']
  | colon => [':']
  | comma => [',']
  | text raw => '"' :: raw ++ ['"']
  | bare word => word

/-- The token that is a single mark. -/
def mark? (c : Char) : Option Token :=
  if c = '[' then some beginArray
  else if c = ']' then some endArray
  else if c = '\x7b' then some beginObject
  else if c = '\x7d' then some endObject
  else if c = ':' then some colon
  else if c = ',' then some comma
  else none

/-- The characters that may stand between tokens. -/
def isSpace (c : Char) : Bool := c = ' ' || c = '\t' || c = '\n' || c = '\r'

/-- The characters of numbers and names of constants. -/
def isBare (c : Char) : Bool := c.isAlphanum || c = '-' || c = '+' || c = '.'

/-- What is being read at some point of a text; the characters read are held last first. -/
inductive Reading where
  /-- Nothing. -/
  | gap
  /-- A bare word. -/
  | bare (read : List Char)
  /-- A string. -/
  | text (read : List Char)
  /-- A string, just after a backslash. -/
  | escape (read : List Char)

/-- What a character outside tokens begins: the tokens it completes, and what is read next. -/
def start? (c : Char) : Option (List Token × Reading) :=
  if isSpace c then some ([], .gap)
  else if c = '"' then some ([], .text [])
  else if isBare c then some ([], .bare [c])
  else (mark? c).map fun t => ([t], .gap)

/-- What a character does: the tokens it completes, and what is read next. -/
def step? : Reading → Char → Option (List Token × Reading)
  | .gap, c => start? c
  | .bare read, c =>
    if isBare c then some ([], .bare (c :: read))
    else (start? c).map fun x => (bare read.reverse :: x.1, x.2)
  | .text read, c =>
    if c = '"' then
      if Quoted.wellEscaped read.reverse then some ([text read.reverse], .gap) else none
    else if c = '\\' then some ([], .escape (c :: read))
    else if c.toNat < 0x20 then none
    else some ([], .text (c :: read))
  | .escape read, c => if c.toNat < 0x20 then none else some ([], .text (c :: read))

/-- The tokens of the rest of a text, of which the first may have been begun. -/
def scan : Reading → List Char → Option (List Token)
  | .gap, [] => some []
  | .bare read, [] => some [bare read.reverse]
  | .text _, [] => none
  | .escape _, [] => none
  | reading, c :: cs => do
    let (done, next) ← step? reading c
    let rest ← scan next cs
    return done ++ rest

end Token

end MeshPartition.Json
