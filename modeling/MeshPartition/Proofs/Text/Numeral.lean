import MeshPartition.Text.Blank
import MeshPartition.Text.Numeral
import Mathlib.Data.Int.Notation
import Mathlib.Data.Nat.Notation

/-!
# Numerals and case

What is written of a number below `2 ^ 63` is read back as a signed number too (`signed?_repr`), and
it is made of digits. Digits and signs have no case, so a text is read as the same number when its
letters are turned into lower case, and also if that leaves it no number (`unsigned?_toLower`,
`signed?_toLower`).
-/

namespace MeshPartition.Text

variable {c d : Char} {n : ℕ}

theorem isDigit_iff : c.isDigit = true ↔ 48 ≤ c.toNat ∧ c.toNat ≤ 57 := by
  rw [Char.isDigit, Bool.and_eq_true, decide_eq_true_eq, decide_eq_true_eq]
  rfl

/-- Upper and lower case are 32 characters apart. -/
theorem toNat_toLower (c : Char) :
    c.toLower.toNat = if 65 ≤ c.toNat ∧ c.toNat ≤ 90 then c.toNat + 32 else c.toNat := by
  have hrange : (c.val ≥ 'A'.val ∧ c.val ≤ 'Z'.val) ↔ (65 ≤ c.toNat ∧ c.toNat ≤ 90) := Iff.rfl
  unfold Char.toLower
  split
  · rename_i h
    rw [hrange] at h
    rw [if_pos h]
    change (c.val + 32).toNat = c.val.toNat + 32
    have hle : c.val.toNat ≤ 90 := h.2
    rw [UInt32.toNat_add]
    change (c.val.toNat + 32) % 4294967296 = _
    omega
  · rename_i h
    rw [if_neg (mt hrange.2 h)]

/-- A digit is no blank. -/
theorem isBlank_of_isDigit (h : c.isDigit = true) : isBlank c = false := by
  rw [isDigit_iff] at h
  simp only [isBlank, Bool.or_eq_false_iff, Bool.and_eq_false_iff, decide_eq_false_iff_not,
    beq_eq_false_iff_ne]
  omega

@[simp] theorem isDigit_toLower (c : Char) : c.toLower.isDigit = c.isDigit := by
  rw [Bool.eq_iff_iff, isDigit_iff, isDigit_iff, toNat_toLower]
  split <;> omega

/-- Of the characters before the letters, each one is the lower case of itself alone. -/
theorem toLower_eq_iff (hd : d.toNat < 65) : c.toLower = d ↔ c = d := by
  rw [← Char.toNat_inj, ← Char.toNat_inj, toNat_toLower]
  split <;> omega

/-- Digits have no case. -/
theorem toLower_of_isDigit (h : c.isDigit = true) : c.toLower = c := by
  rw [isDigit_iff] at h
  exact (toLower_eq_iff (by omega)).2 rfl

/-! ## Writing -/

/-- A numeral is made of digits. -/
theorem isDigit_of_mem_toDigits (h : c ∈ Nat.toDigits 10 n) : c.isDigit = true :=
  Nat.isDigit_of_mem_toDigits (by decide) (by decide) h

theorem isDigit_of_mem_repr (h : c ∈ n.repr.toList) : c.isDigit = true := by
  rw [Nat.toList_repr] at h
  exact isDigit_of_mem_toDigits h

theorem signedChars?_toDigits (n : ℕ) : signedChars? (Nat.toDigits 10 n) = some (n : ℤ) := by
  unfold signedChars?
  split
  · rename_i cs h
    have : ('-' : Char).isDigit = true := isDigit_of_mem_toDigits (n := n) (by simp [h])
    exact absurd this (by decide)
  · rw [unsignedChars?_toDigits]
    rfl

theorem signed?_repr (h : n < UInt64.size / 2) : signed? n.repr = some (n : ℤ) := by
  rw [signed?, Nat.toList_repr, signedChars?_toDigits]
  refine Option.filter_eq_some_iff.2 ⟨rfl, ?_⟩
  rw [Bool.and_eq_true, decide_eq_true_eq, decide_eq_true_eq]
  omega

/-! ## Case -/

theorem digits?_map_toLower (cs : List Char) : digits? (cs.map Char.toLower) = digits? cs := by
  have hall : (cs.map Char.toLower).all Char.isDigit = cs.all Char.isDigit := by
    simp [List.all_map, Function.comp_def]
  unfold digits?
  rw [hall, List.isEmpty_map]
  split
  · rename_i h
    rw [Bool.and_eq_true, List.all_eq_true] at h
    rw [List.map_congr_left fun c hc => toLower_of_isDigit (h.2 c hc), List.map_id']
  · rfl

/-- A text in lower case starts with a given sign if it does so in any case. -/
theorem head?_map_toLower_eq_iff {cs : List Char} (hd : d.toNat < 65) :
    (cs.map Char.toLower).head? = some d ↔ cs.head? = some d := by
  cases cs with
  | nil => exact Iff.rfl
  | cons c cs => simp [toLower_eq_iff hd]

theorem unsignedChars?_of_head?_ne {cs : List Char} (h : cs.head? ≠ some '+') :
    unsignedChars? cs = digits? cs := by
  unfold unsignedChars?
  split
  · exact absurd rfl h
  · rfl

theorem signedChars?_of_head?_ne {cs : List Char} (h : cs.head? ≠ some '-') :
    signedChars? cs = (unsignedChars? cs).map fun n => (n : ℤ) := by
  unfold signedChars?
  split
  · exact absurd rfl h
  · rfl

theorem unsignedChars?_map_toLower (cs : List Char) :
    unsignedChars? (cs.map Char.toLower) = unsignedChars? cs := by
  by_cases h : cs.head? = some '+'
  · obtain ⟨rest, rfl⟩ := List.head?_eq_some_iff.1 h
    exact digits?_map_toLower rest
  · rw [unsignedChars?_of_head?_ne h, ← digits?_map_toLower cs]
    exact unsignedChars?_of_head?_ne (mt (head?_map_toLower_eq_iff (by decide)).1 h)

theorem signedChars?_map_toLower (cs : List Char) :
    signedChars? (cs.map Char.toLower) = signedChars? cs := by
  by_cases h : cs.head? = some '-'
  · obtain ⟨rest, rfl⟩ := List.head?_eq_some_iff.1 h
    change signedChars? ('-' :: rest.map Char.toLower) = _
    rw [signedChars?, signedChars?, digits?_map_toLower]
  · rw [signedChars?_of_head?_ne h, ← unsignedChars?_map_toLower cs]
    exact signedChars?_of_head?_ne (mt (head?_map_toLower_eq_iff (by decide)).1 h)

/-- A text that is turned into lower case is read as the same number. -/
theorem unsigned?_toLower (s : String) :
    unsigned? (String.ofList (s.toList.map Char.toLower)) = unsigned? s := by
  rw [unsigned?, String.toList_ofList, unsignedChars?_map_toLower]
  rfl

theorem signed?_toLower (s : String) :
    signed? (String.ofList (s.toList.map Char.toLower)) = signed? s := by
  rw [signed?, String.toList_ofList, signedChars?_map_toLower]
  rfl

end MeshPartition.Text
