/-!
# Decimal numerals

Whole numbers as decks write them: a sign, if there is one, and decimal digits. A value has to fit
in 64 bits. Writing is core's `Nat.repr`; `unsigned?_repr` says that what it writes reads back.
-/

namespace MeshPartition.Text

/-- The value of a nonempty run of decimal digits. -/
def digits? (cs : List Char) : Option Nat :=
  if !cs.isEmpty && cs.all Char.isDigit then some (Nat.ofDigitChars 10 cs 0) else none

@[simp] theorem digits?_toDigits (n : Nat) : digits? (Nat.toDigits 10 n) = some n := by
  have h : (Nat.toDigits 10 n).all Char.isDigit = true :=
    List.all_eq_true.2 fun c hc => Nat.isDigit_of_mem_toDigits (by decide) (by decide) hc
  simp [digits?, h]

/-- The value of a numeral that may carry a plus sign. -/
def unsignedChars? : List Char → Option Nat
  | '+' :: cs => digits? cs
  | cs => digits? cs

/-- The value of an unsigned numeral below `2 ^ 64`. -/
def unsigned? (s : String) : Option Nat := (unsignedChars? s.toList).filter (· < UInt64.size)

/-- The value of a numeral that may carry either sign. -/
def signedChars? : List Char → Option Int
  | '-' :: cs => (digits? cs).map fun n => -(n : Int)
  | cs => (unsignedChars? cs).map fun n => (n : Int)

/-- The value of a signed numeral from `-2 ^ 63` to `2 ^ 63 - 1`. -/
def signed? (s : String) : Option Int :=
  (signedChars? s.toList).filter fun n =>
    -((UInt64.size / 2 : Nat) : Int) ≤ n && n < ((UInt64.size / 2 : Nat) : Int)

theorem unsignedChars?_toDigits (n : Nat) : unsignedChars? (Nat.toDigits 10 n) = some n := by
  unfold unsignedChars?
  split
  · rename_i cs h
    have : ('+' : Char).isDigit = true :=
      Nat.isDigit_of_mem_toDigits (b := 10) (n := n) (by decide) (by decide) (by simp [h])
    exact absurd this (by decide)
  · exact digits?_toDigits n

theorem unsigned?_repr {n : Nat} (h : n < UInt64.size) : unsigned? n.repr = some n := by
  rw [unsigned?, Nat.toList_repr, unsignedChars?_toDigits]
  exact Option.filter_eq_some_iff.2 ⟨rfl, decide_eq_true h⟩

end MeshPartition.Text
