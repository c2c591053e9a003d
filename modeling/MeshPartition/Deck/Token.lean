import MeshPartition.Text.Blank

/-!
# Tokens of a record

A line is a sequence of words and of texts between double quotes. Blanks separate words and mean
nothing else; a quote ends a word even without a blank, and a quote that is never closed runs to the
end of the line. There is no escape, so a quoted text cannot contain a quote.
-/

namespace MeshPartition.Deck

/-- One word or quoted text of a line. -/
inductive Token where
  /-- A word: neither empty nor containing blanks or quotes. -/
  | word (text : String)
  /-- A quoted text, without its quotes. -/
  | quoted (text : String)
deriving DecidableEq

namespace Token

/-- The text of a word; a quoted text is none. -/
def word? : Token → Option String
  | word text => some text
  | quoted _ => none

/-- What is being read at some point of a line; the characters read are held last first. -/
inductive Reading where
  /-- Nothing. -/
  | gap
  /-- A word. -/
  | word (read : List Char)
  /-- A quoted text. -/
  | quoted (read : List Char)

/-- The tokens of the rest of a line, of which the first may have been begun. -/
def scan : Reading → List Char → List Token
  | .gap, [] => []
  | .word read, [] => [word (String.ofList read.reverse)]
  | .quoted read, [] => [quoted (String.ofList read.reverse)]
  | .gap, c :: cs =>
    if Text.isBlank c then scan .gap cs
    else if c = '"' then scan (.quoted []) cs
    else scan (.word [c]) cs
  | .word read, c :: cs =>
    if Text.isBlank c then word (String.ofList read.reverse) :: scan .gap cs
    else if c = '"' then word (String.ofList read.reverse) :: scan (.quoted []) cs
    else scan (.word (c :: read)) cs
  | .quoted read, c :: cs =>
    if c = '"' then quoted (String.ofList read.reverse) :: scan .gap cs
    else scan (.quoted (c :: read)) cs

/-- The tokens of a line. -/
def ofLine (line : List Char) : List Token := scan .gap line

end Token

end MeshPartition.Deck
