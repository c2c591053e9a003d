import MeshPartition.Json.Quoted
import MeshPartition.Proofs.Text.Numeral
import Mathlib.Tactic.SplitIfs

/-!
# Text inside JSON strings, read back

What is written of a text between quotes is decoded to the text (`Json.Quoted.decode_encode`), and
its escapes are complete (`Json.Quoted.wellEscaped_encode`). Both go character by character: what is
written of one character is decoded to it, whatever comes after.
-/

namespace MeshPartition.Json.Quoted

variable {c letter : Char} {rest : List Char}

/-- A character that stands for itself between quotes. -/
def Plain (c : Char) : Prop := c ≠ '"' ∧ c ≠ '\\' ∧ 0x20 ≤ c.toNat

instance : DecidablePred Plain := fun c =>
  inferInstanceAs (Decidable (c ≠ '"' ∧ c ≠ '\\' ∧ 0x20 ≤ c.toNat))

/-- The digits of a control character are read back. -/
theorem hex4?_digitChar : ∀ n < 0x20,
    hex4? '0' '0' (Nat.digitChar (n / 16)) (Nat.digitChar (n % 16)) = some n := by
  decide

/-- What is written of a character is a letter after a backslash that stands for it, the number of a
control character, or the character itself. -/
theorem encodeChar_cases (c : Char) :
    (∃ letter, escaped? letter = some c ∧ encodeChar c = ['\\', letter]) ∨
    (c.toNat < 0x20 ∧ encodeChar c =
      ['\\', 'u', '0', '0', Nat.digitChar (c.toNat / 16), Nat.digitChar (c.toNat % 16)]) ∨
    (Plain c ∧ encodeChar c = [c]) := by
  unfold encodeChar
  split_ifs with quote backslash backspace formFeed newline carriageReturn tab control
  · exact .inl ⟨'"', by simp [quote, escaped?], rfl⟩
  · exact .inl ⟨'\\', by simp [backslash, escaped?], rfl⟩
  · exact .inl ⟨'b', by simp [backspace, escaped?], rfl⟩
  · exact .inl ⟨'f', by simp [formFeed, escaped?], rfl⟩
  · exact .inl ⟨'n', by simp [newline, escaped?], rfl⟩
  · exact .inl ⟨'r', by simp [carriageReturn, escaped?], rfl⟩
  · exact .inl ⟨'t', by simp [tab, escaped?], rfl⟩
  · exact .inr (.inl ⟨control, rfl⟩)
  · exact .inr (.inr ⟨⟨quote, backslash, by omega⟩, rfl⟩)

theorem plain_digitChar : ∀ n < 0x20,
    Plain (Nat.digitChar (n / 16)) ∧ Plain (Nat.digitChar (n % 16)) := by
  decide

theorem le_toNat_of_escaped? (h : escaped? letter = some c) : 0x20 ≤ letter.toNat := by
  unfold escaped? at h
  split at h
  case h_9 => cases h
  all_goals decide

theorem ne_u_of_escaped? (h : escaped? letter = some c) : letter ≠ 'u' := by
  rintro rfl
  simp [escaped?] at h

/-! ### One character -/

theorem decode_letter (h : escaped? letter = some c) :
    decode ('\\' :: letter :: rest) = (decode rest).map (c :: ·) := by
  rw [decode, h, Option.map_eq_bind]
  · rfl
  · simp [ne_u_of_escaped? h]

theorem decode_number {a b : Char} {n : ℕ} (h : hex4? '0' '0' a b = some n) (hn : n < 0x20) :
    decode ('\\' :: 'u' :: '0' :: '0' :: a :: b :: rest) =
      (decode rest).map (Char.ofNat n :: ·) := by
  rw [decode, h, Option.bind_eq_bind, Option.bind_some, if_neg (by omega), if_neg (by omega),
    Option.map_eq_bind]
  rfl

theorem decode_self (h : c ≠ '\\') : decode (c :: rest) = (decode rest).map (c :: ·) := by
  rw [decode, if_neg h, Option.map_eq_bind]
  · rfl
  · simp [h]
  · simp [h]

theorem decode_encodeChar_append :
    decode (encodeChar c ++ rest) = (decode rest).map (c :: ·) := by
  obtain ⟨letter, hletter, hc⟩ | ⟨hcontrol, hc⟩ | ⟨⟨-, hslash, -⟩, hc⟩ := encodeChar_cases c
  · rw [hc]
    exact decode_letter hletter
  · simp only [hc, List.cons_append, List.nil_append]
    rw [decode_number (hex4?_digitChar _ hcontrol) hcontrol, Char.ofNat_toNat]
  · rw [hc]
    exact decode_self hslash

theorem wellEscaped_encodeChar_append :
    wellEscaped (encodeChar c ++ rest) = wellEscaped rest := by
  obtain ⟨letter, hletter, hc⟩ | ⟨hcontrol, hc⟩ | ⟨⟨-, hslash, -⟩, hc⟩ := encodeChar_cases c
  · rw [hc, List.cons_append, List.cons_append, wellEscaped]
    · simp [hletter]
    · simp [ne_u_of_escaped? hletter]
  · rw [hc]
    simp [wellEscaped, hex4?_digitChar _ hcontrol]
  · rw [hc, List.cons_append, wellEscaped]
    · simp [hslash]
    · simp [hslash]
    · simp [hslash]

/-! ### Whole texts -/

theorem encode_cons (c : Char) (cs : List Char) :
    encode (c :: cs) = encodeChar c ++ encode cs :=
  List.flatMap_cons

@[simp]
theorem decode_encode (cs : List Char) : decode (encode cs) = some cs := by
  induction cs with
  | nil => rfl
  | cons c cs ih =>
    rw [encode_cons, decode_encodeChar_append, ih, Option.map_some]

@[simp]
theorem wellEscaped_encode (cs : List Char) : wellEscaped (encode cs) = true := by
  induction cs with
  | nil => rfl
  | cons c cs ih =>
    rw [encode_cons, wellEscaped_encodeChar_append, ih]

/-- Digits need no escapes. -/
theorem encodeChar_of_isDigit (h : c.isDigit = true) : encodeChar c = [c] := by
  have hc := Text.isDigit_iff.1 h
  have hne {d : Char} (hd : d.isDigit = false) : c ≠ d := fun e => by simp [e, hd] at h
  simp [encodeChar, hne (d := '"') rfl, hne (d := '\\') rfl, hne (d := '\x08') rfl,
    hne (d := '\x0c') rfl, hne (d := '\n') rfl, hne (d := '\r') rfl, hne (d := '\t') rfl]
  omega

theorem encode_of_isDigit {cs : List Char} (h : ∀ c ∈ cs, c.isDigit = true) : encode cs = cs := by
  induction cs with
  | nil => rfl
  | cons c cs ih =>
    rw [List.forall_mem_cons] at h
    rw [encode_cons, encodeChar_of_isDigit h.1, ih h.2, List.singleton_append]

end MeshPartition.Json.Quoted
