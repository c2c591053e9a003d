/-!
# Text inside JSON strings

Between its quotes a JSON string may hold escapes. A string is kept as it was written and decoded
only where its text is wanted, so a string that nobody asks for may hold half of a surrogate pair.
`encode` writes a text with the escapes it needs.
-/

namespace MeshPartition.Json.Quoted

/-- The value of a hexadecimal digit of either case. -/
def hexValue? (c : Char) : Option Nat :=
  let n := c.toNat
  if 0x30 ≤ n ∧ n ≤ 0x39 then some (n - 0x30)
  else if 0x41 ≤ n ∧ n ≤ 0x46 then some (n - 0x41 + 10)
  else if 0x61 ≤ n ∧ n ≤ 0x66 then some (n - 0x61 + 10)
  else none

/-- The value of four hexadecimal digits. -/
def hex4? (a b c d : Char) : Option Nat := do
  let a ← hexValue? a
  let b ← hexValue? b
  let c ← hexValue? c
  let d ← hexValue? d
  return ((a * 16 + b) * 16 + c) * 16 + d

/-- The character that a letter after a backslash stands for. -/
def escaped? : Char → Option Char
  | '"' => some '"'
  | '\\' => some '\\'
  | '/' => some '/'
  | 'b' => some '\x08'
  | 'f' => some '\x0c'
  | 'n' => some '\n'
  | 'r' => some '\r'
  | 't' => some '\t'
  | _ => none

/-- Whether all escapes are complete. Surrogates need not be paired here. -/
def wellEscaped : List Char → Bool
  | [] => true
  | '\\' :: 'u' :: a :: b :: c :: d :: cs => (hex4? a b c d).isSome && wellEscaped cs
  | '\\' :: c :: cs => (escaped? c).isSome && wellEscaped cs
  | c :: cs => c ≠ '\\' && wellEscaped cs

/-- The text of a string, if its escapes are complete and its surrogates paired. -/
def decode : List Char → Option (List Char)
  | [] => some []
  | '\\' :: 'u' :: a :: b :: c :: d :: cs => do
    let unit ← hex4? a b c d
    if 0xDC00 ≤ unit ∧ unit ≤ 0xDFFF then none
    else if 0xD800 ≤ unit ∧ unit ≤ 0xDBFF then
      match cs with
      | '\\' :: 'u' :: e :: f :: g :: h :: cs => do
        let low ← hex4? e f g h
        if 0xDC00 ≤ low ∧ low ≤ 0xDFFF then
          let rest ← decode cs
          return Char.ofNat (0x10000 + (unit - 0xD800) * 0x400 + (low - 0xDC00)) :: rest
        else none
      | _ => none
    else
      let rest ← decode cs
      return Char.ofNat unit :: rest
  | '\\' :: c :: cs => do
    let c ← escaped? c
    let rest ← decode cs
    return c :: rest
  | c :: cs =>
    if c = '\\' then none
    else do
      let rest ← decode cs
      return c :: rest

/-- A character as it stands in a string: quotes, backslashes and control characters are escaped. -/
def encodeChar (c : Char) : List Char :=
  if c = '"' then ['\\', '"']
  else if c = '\\' then ['\\', '\\']
  else if c = '\x08' then ['\\', 'b']
  else if c = '\x0c' then ['\\', 'f']
  else if c = '\n' then ['\\', 'n']
  else if c = '\r' then ['\\', 'r']
  else if c = '\t' then ['\\', 't']
  else if c.toNat < 0x20 then
    ['\\', 'u', '0', '0', Nat.digitChar (c.toNat / 16), Nat.digitChar (c.toNat % 16)]
  else [c]

/-- A text as it stands in a string. -/
def encode (cs : List Char) : List Char := cs.flatMap encodeChar

end MeshPartition.Json.Quoted
