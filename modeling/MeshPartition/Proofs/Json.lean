import MeshPartition.Json
import MeshPartition.Proofs.Json.Token
import Mathlib.Data.List.Basic
import Mathlib.Data.List.TakeWhile

/-!
# JSON values read back

A value whose numbers are natural numbers and whose texts carry the escapes they need
(`Json.Written`) is read back from its own text: `Json.ofText?_render`. The text splits into the
tokens of the value, since its bare words always stand between marks (`Json.scan_render`), and these
tokens bring the reader from the place of a value to the place after it, whatever containers are
open around it (`Json.foldlM_tokens`).
-/

namespace MeshPartition.Json

variable {v : Json} {n : ℕ}

/-! ### Numbers -/

/-- No zero stands in front of a number. -/
theorem head?_toDigits_ne_zero (hn : 0 < n) : (Nat.toDigits 10 n).head? ≠ some '0' := by
  induction n using Nat.strong_induction_on with
  | _ n ih =>
    rcases Nat.lt_or_ge n 10 with hlt | hge
    · have hdigit : ∀ d < 10, 0 < d → Nat.digitChar d ≠ '0' := by decide
      rw [Nat.toDigits_of_lt_base hlt]
      simpa using hdigit n hlt hn
    · -- The first digit is that of the number without its last digit, which is not zero either.
      rw [Nat.toDigits_of_base_le (by decide) hge,
        List.head?_append_of_ne_nil _ Nat.toDigits_ne_nil]
      exact ih (n / 10) (by omega) (by omega)

theorem isUnsignedNumber_toDigits (n : ℕ) : isUnsignedNumber (Nat.toDigits 10 n) = true := by
  rcases Nat.eq_zero_or_pos n with rfl | hn
  · rfl
  have hzero := head?_toDigits_ne_zero hn
  have hdigits : ∀ c ∈ Nat.toDigits 10 n, c.isDigit = true := fun _ => Text.isDigit_of_mem_toDigits
  obtain ⟨c, cs, hc⟩ := List.exists_cons_of_ne_nil (Nat.toDigits_ne_nil (n := n) (b := 10))
  rw [hc] at hzero hdigits ⊢
  rw [List.forall_mem_cons] at hdigits
  have hc0 : c ≠ '0' := by simpa using hzero
  rw [isUnsignedNumber, if_neg hc0, hdigits.1, List.dropWhile_eq_nil_iff.2 hdigits.2]
  rfl

theorem isNumber_toDigits (n : ℕ) : isNumber (Nat.toDigits 10 n) = true := by
  have hdigits : ∀ c ∈ Nat.toDigits 10 n, c.isDigit = true := fun _ => Text.isDigit_of_mem_toDigits
  unfold isNumber
  split
  · rename_i cs hc
    exact absurd (hdigits '-' (by simp [hc])) (by decide)
  · exact isUnsignedNumber_toDigits n

@[simp]
theorem literalNat?_toDigits (h : n < UInt64.size) : literalNat? (Nat.toDigits 10 n) = some n := by
  rw [literalNat?, if_pos (isNumber_toDigits n), Text.digits?_toDigits]
  exact Option.filter_eq_some_iff.2 ⟨rfl, decide_eq_true h⟩

theorem ofBare?_toDigits (n : ℕ) : ofBare? (Nat.toDigits 10 n) = some (ofNat n) := by
  have hdigits : ∀ c ∈ Nat.toDigits 10 n, c.isDigit = true := fun _ => Text.isDigit_of_mem_toDigits
  have hne {word : List Char} (hword : word.all Char.isDigit = false) :
      Nat.toDigits 10 n ≠ word := by
    rintro rfl
    exact absurd (List.all_eq_true.2 hdigits) (by simp [hword])
  rw [ofBare?, if_neg (hne (by decide)), if_neg (hne (by decide)), if_neg (hne (by decide)),
    if_pos (isNumber_toDigits n), ofNat]

/-! ### Values that are written -/

/-- A value with natural numbers only, in which all texts are as `Quoted.encode` writes them. -/
inductive Written : Json → Prop
  | null : Written null
  | bool (b : Bool) : Written (bool b)
  | ofNat (n : ℕ) : Written (ofNat n)
  | text (cs : List Char) : Written (text (Quoted.encode cs))
  | array {items : List Json} (hitems : ∀ v ∈ items, Written v) : Written (array items)
  | object {members : List (List Char × Json)} (hkeys : ∀ e ∈ members, ∃ cs, e.1 = Quoted.encode cs)
    (hvalues : ∀ e ∈ members, Written e.2) : Written (object members)

/-! ### Tokens -/

section Tokens

open Token

variable {rest : List Token}

/-- What comes after an item is a comma or the end of the array. -/
theorem endsBare_itemTokens_append (items : List Json) : EndsBare (itemTokens items ++ rest) := by
  cases items <;> simp [itemTokens, EndsBare]

/-- What comes after a member is a comma or the end of the object. -/
theorem endsBare_memberTokens_append (members : List (List Char × Json)) :
    EndsBare (memberTokens members ++ rest) := by
  cases members <;> simp [memberTokens, EndsBare]

theorem separated_itemTokens_append {items : List Json} (hitems : ∀ u ∈ items, ∀ rest,
      EndsBare rest → Separated rest → Separated (u.tokens ++ rest))
    (hrest : Separated rest) : Separated (itemTokens items ++ rest) := by
  induction items with
  | nil => exact hrest
  | cons u us ih =>
    rw [List.forall_mem_cons] at hitems
    have htail := hitems.1 _ (endsBare_itemTokens_append us) (ih hitems.2)
    simpa [itemTokens, Separated] using htail

theorem separated_memberTokens_append {members : List (List Char × Json)}
    (hkeys : ∀ e ∈ members, ∃ cs, e.1 = Quoted.encode cs)
    (hvalues : ∀ e ∈ members, ∀ rest,
      EndsBare rest → Separated rest → Separated (e.2.tokens ++ rest))
    (hrest : Separated rest) : Separated (memberTokens members ++ rest) := by
  induction members with
  | nil => exact hrest
  | cons e ms ih =>
    rw [List.forall_mem_cons] at hkeys hvalues
    have htail := hvalues.1 _ (endsBare_memberTokens_append ms) (ih hkeys.2 hvalues.2)
    simpa [memberTokens, Separated, hkeys.1] using htail

/-- The tokens of a value may stand before anything that ends a bare word. -/
theorem separated_tokens_append (hv : v.Written) (hnext : EndsBare rest)
    (hrest : Separated rest) : Separated (v.tokens ++ rest) := by
  induction hv generalizing rest with
  | null => exact ⟨⟨by decide, List.all_eq_true.1 (by decide)⟩, hnext, hrest⟩
  | bool b =>
    cases b <;> exact ⟨⟨by decide, List.all_eq_true.1 (by decide)⟩, hnext, hrest⟩
  | ofNat n =>
    have hbare : ∀ c ∈ Nat.toDigits 10 n, isBare c = true := fun c hc => by
      simp [isBare, Char.isAlphanum, Text.isDigit_of_mem_toDigits hc]
    exact ⟨⟨Nat.toDigits_ne_nil, hbare⟩, hnext, hrest⟩
  | text cs => exact ⟨⟨cs, rfl⟩, hrest⟩
  | @array items hitems ih =>
    cases items with
    | nil => exact hrest
    | cons u us =>
      rw [List.forall_mem_cons] at ih
      have htail := ih.1 (endsBare_itemTokens_append us)
        (separated_itemTokens_append (fun u hu rest => ih.2 u hu) hrest)
      simpa [tokens, Separated] using htail
  | @object members hkeys hvalues ih =>
    cases members with
    | nil => exact hrest
    | cons e ms =>
      rw [List.forall_mem_cons] at hkeys ih
      have htail := ih.1 (endsBare_memberTokens_append ms)
        (separated_memberTokens_append hkeys.2 (fun e he rest => ih.2 e he) hrest)
      simpa [tokens, Separated, hkeys.1] using htail

/-- What is written of a value splits into the tokens of the value. -/
theorem scan_render (hv : v.Written) : scan .gap v.render.toList = some v.tokens := by
  have hsep : Separated (v.tokens ++ []) :=
    separated_tokens_append hv (fun _ h => nomatch h) trivial
  rw [List.append_nil] at hsep
  rw [render, String.toList_ofList]
  exact scan_flatMap_chars hsep

end Tokens

/-! ### Reading -/

section Reading

open Progress

variable {outer : List Frame}

/-- The place of the first item is that of any value, unless the array is empty. -/
theorem foldlM_tokens_firstItem (v : Json) : v.tokens.foldlM step? (firstItem outer) =
    v.tokens.foldlM step? (value (.array [] :: outer)) := by
  cases v with
  | bool b => cases b <;> rfl
  | array items => cases items <;> rfl
  | object members => cases members <;> rfl
  | _ => rfl

theorem foldlM_itemTokens {items : List Json} (hitems : ∀ u ∈ items, ∀ outer,
      u.tokens.foldlM step? (value outer) = some (done outer u)) (acc : List Json) :
    (itemTokens items).foldlM step? (done (.array acc :: outer) v) =
      some (done outer (.array ((v :: acc).reverse ++ items))) := by
  induction items generalizing v acc with
  | nil => simp [itemTokens, step?]
  | cons u us ih =>
    rw [List.forall_mem_cons] at hitems
    simp only [itemTokens, List.cons_append, List.foldlM_cons, step?, Option.bind_eq_bind,
      Option.bind_some, List.foldlM_append, hitems.1, ih hitems.2]
    simp

theorem foldlM_memberTokens {members : List (List Char × Json)} (hvalues : ∀ e ∈ members, ∀ outer,
      e.2.tokens.foldlM step? (value outer) = some (done outer e.2))
    (acc : List (List Char × Json)) (key : List Char) :
    (memberTokens members).foldlM step? (done (.object acc key :: outer) v) =
      some (done outer (.object (((key, v) :: acc).reverse ++ members))) := by
  induction members generalizing v acc key with
  | nil => simp [memberTokens, step?]
  | cons e ms ih =>
    rw [List.forall_mem_cons] at hvalues
    simp only [memberTokens, List.cons_append, List.foldlM_cons, step?, Option.bind_eq_bind,
      Option.bind_some, List.foldlM_append, hvalues.1, ih hvalues.2]
    simp

/-- The tokens of a value bring the reader from its place to the place after it. -/
theorem foldlM_tokens (hv : v.Written) (outer : List Frame) :
    v.tokens.foldlM step? (value outer) = some (done outer v) := by
  induction hv generalizing outer with
  | null => rfl
  | bool b => cases b <;> rfl
  | ofNat n => simp [ofNat, tokens, step?, startValue?, ofBare?_toDigits]
  | text cs => rfl
  | @array items hitems ih =>
    cases items with
    | nil => rfl
    | cons u us =>
      -- The first item stands where the array could have ended, the others after it.
      rw [List.forall_mem_cons] at ih
      simp only [tokens, List.cons_append, List.foldlM_cons, step?, startValue?,
        Option.bind_eq_bind, Option.bind_some, List.foldlM_append, foldlM_tokens_firstItem, ih.1,
        foldlM_itemTokens ih.2]
      rfl
  | @object members hkeys hvalues ih =>
    cases members with
    | nil => rfl
    | cons e ms =>
      rw [List.forall_mem_cons] at ih
      simp only [tokens, List.cons_append, List.foldlM_cons, step?, startValue?,
        Option.bind_eq_bind, Option.bind_some, List.foldlM_append, ih.1, foldlM_memberTokens ih.2]
      rfl

/-- What is written of a value is read as that value. -/
theorem ofText?_render (hv : v.Written) : ofText? v.render = some v := by
  simp [ofText?, scan_render hv, ofTokens?, foldlM_tokens hv]

end Reading

end MeshPartition.Json
