import MeshPartition.Json.Token
import MeshPartition.Text.Numeral

/-!
# JSON values

Values keep numbers and strings as they were written, and the members of objects in order and with
repetitions; what they mean is decided by whoever asks. `ofText?` builds the value of a text by
running over its tokens with a stack of the containers that are still open, so that values may be
nested to any depth; `render` writes a value without blanks.
-/

namespace MeshPartition

/-- A JSON value. -/
inductive Json where
  | null
  | bool (b : Bool)
  /-- A number, as written. -/
  | number (literal : List Char)
  /-- A string, as it stands between its quotes. -/
  | text (raw : List Char)
  | array (items : List Json)
  /-- The members with their keys, which are strings. -/
  | object (members : List (List Char × Json))

namespace Json

/-- Whether the rest of a number is digits, at least one. -/
def isDigits (cs : List Char) : Bool := !cs.isEmpty && cs.all Char.isDigit

/-- Whether the rest of a number is an exponent or nothing. -/
def isExponent : List Char → Bool
  | [] => true
  | c :: cs =>
    (c = 'e' || c = 'E') &&
      match cs with
      | '+' :: cs => isDigits cs
      | '-' :: cs => isDigits cs
      | cs => isDigits cs

/-- Whether the rest of a number is a fraction and an exponent, or nothing. -/
def isFraction : List Char → Bool
  | '.' :: cs => isDigits (cs.takeWhile Char.isDigit) && isExponent (cs.dropWhile Char.isDigit)
  | cs => isExponent cs

/-- Whether a word is a number without a sign: no zero stands in front of other digits. -/
def isUnsignedNumber : List Char → Bool
  | [] => false
  | c :: cs =>
    if c = '0' then isFraction cs
    else c.isDigit && isFraction (cs.dropWhile Char.isDigit)

/-- Whether a word is a number. -/
def isNumber : List Char → Bool
  | '-' :: cs => isUnsignedNumber cs
  | cs => isUnsignedNumber cs

/-- The value that a bare word denotes. -/
def ofBare? (word : List Char) : Option Json :=
  if word = "null".toList then some null
  else if word = "true".toList then some (bool true)
  else if word = "false".toList then some (bool false)
  else if isNumber word then some (number word)
  else none

/-- A container whose end has not been read yet, with the values in it, last first. -/
inductive Frame where
  | array (items : List Json)
  /-- An object of which a member's value is being read. -/
  | object (members : List (List Char × Json)) (key : List Char)

/-- What has been read of a text, and what may come next. -/
inductive Progress where
  /-- A value. -/
  | value (outer : List Frame)
  /-- The first item of an array, or its end. -/
  | firstItem (outer : List Frame)
  /-- The first key of an object, or its end. -/
  | firstKey (outer : List Frame)
  /-- Another key of an object. -/
  | nextKey (outer : List Frame) (members : List (List Char × Json))
  /-- The colon after a key. -/
  | colon (outer : List Frame) (members : List (List Char × Json)) (key : List Char)
  /-- Whatever may follow a value. -/
  | done (outer : List Frame) (v : Json)

namespace Progress

/-- Reads the first token of a value. -/
def startValue? (outer : List Frame) : Token → Option Progress
  | .beginArray => some (firstItem outer)
  | .beginObject => some (firstKey outer)
  | .text raw => some (done outer (.text raw))
  | .bare word => (ofBare? word).map (done outer)
  | _ => none

/-- Reads one token. -/
def step? : Progress → Token → Option Progress
  | value outer, t => startValue? outer t
  | firstItem outer, .endArray => some (done outer (.array []))
  | firstItem outer, t => startValue? (.array [] :: outer) t
  | firstKey outer, .endObject => some (done outer (.object []))
  | firstKey outer, .text key => some (colon outer [] key)
  | nextKey outer members, .text key => some (colon outer members key)
  | colon outer members key, .colon => some (value (.object members key :: outer))
  | done (.array items :: outer) v, .comma => some (value (.array (v :: items) :: outer))
  | done (.array items :: outer) v, .endArray => some (done outer (.array (v :: items).reverse))
  | done (.object members key :: outer) v, .comma => some (nextKey outer ((key, v) :: members))
  | done (.object members key :: outer) v, .endObject =>
    some (done outer (.object ((key, v) :: members).reverse))
  | _, _ => none

end Progress

/-- The value of a sequence of tokens. -/
def ofTokens? (tokens : List Token) : Option Json :=
  match tokens.foldlM Progress.step? (.value []) with
  | some (.done [] v) => some v
  | _ => none

/-- The value of a text. -/
def ofText? (s : String) : Option Json := do
  ofTokens? (← Token.scan .gap s.toList)

mutual

/-- The tokens of a value. -/
def tokens : Json → List Token
  | null => [.bare "null".toList]
  | bool true => [.bare "true".toList]
  | bool false => [.bare "false".toList]
  | number literal => [.bare literal]
  | text raw => [.text raw]
  | array [] => [.beginArray, .endArray]
  | array (v :: vs) => .beginArray :: tokens v ++ itemTokens vs
  | object [] => [.beginObject, .endObject]
  | object ((k, v) :: ms) =>
    .beginObject :: .text k :: .colon :: tokens v ++ memberTokens ms

/-- The tokens of the items after the first one, and the end of the array. -/
def itemTokens : List Json → List Token
  | [] => [.endArray]
  | v :: vs => .comma :: tokens v ++ itemTokens vs

/-- The tokens of the members after the first one, and the end of the object. -/
def memberTokens : List (List Char × Json) → List Token
  | [] => [.endObject]
  | (k, v) :: ms => .comma :: .text k :: .colon :: tokens v ++ memberTokens ms

end

/-- The text of a value, without blanks. -/
def render (v : Json) : String := String.ofList (v.tokens.flatMap Token.chars)

/-- The string value of a text. -/
def ofString (s : String) : Json := text (Quoted.encode s.toList)

/-- The text of a string value. -/
def string? : Json → Option String
  | text raw => (Quoted.decode raw).map String.ofList
  | _ => none

/-- The number value of a natural number. -/
def ofNat (n : Nat) : Json := number (Nat.toDigits 10 n)

/-- The natural number that a literal denotes, if it is a whole number below `2 ^ 64` written as
such: without sign, point and exponent. -/
def literalNat? (literal : List Char) : Option Nat :=
  if isNumber literal then (Text.digits? literal).filter (· < UInt64.size) else none

/-- The natural number that a value denotes. -/
def nat? : Json → Option Nat
  | number literal => literalNat? literal
  | _ => none

end Json

end MeshPartition
