import MeshPartition.Json.Token
import MeshPartition.Proofs.Json.Quoted

/-!
# Tokens read back

Tokens written one after the other, without anything between them, are read back
(`Json.Token.scan_flatMap_chars`) if each of them is one that can be read at all and no bare word
follows another. No condition on the other neighbours is needed: a mark is complete with its only
character, a string ends with its quote, and neither goes on a bare word.
-/

namespace MeshPartition.Json.Token

variable {c : Char} {read rest : List Char} {reading next : Reading} {done : List Token}

/-- Tokens that may come after a bare word: the first of them is not one. -/
def EndsBare (ts : List Token) : Prop := ∀ word, ts.head? ≠ some (bare word)

/-- Token sequences that can be written without anything between the tokens. -/
def Separated : List Token → Prop
  | [] => True
  | text raw :: ts => (∃ cs, raw = Quoted.encode cs) ∧ Separated ts
  | bare word :: ts => (word ≠ [] ∧ ∀ c ∈ word, isBare c = true) ∧ EndsBare ts ∧ Separated ts
  | _ :: ts => Separated ts

theorem Separated.of_cons {t : Token} {ts : List Token} (h : Separated (t :: ts)) :
    Separated ts := by
  cases t with
  | text raw => exact h.2
  | bare word => exact h.2.2
  | _ => exact h

/-! ### One character -/

theorem scan_cons (reading : Reading) (c : Char) (rest : List Char) : scan reading (c :: rest) =
    (step? reading c).bind fun x => (scan x.2 rest).map (x.1 ++ ·) := by
  simp only [Option.map_eq_bind]
  cases reading <;> rfl

theorem scan_cons_of_done (h : step? reading c = some (done, next)) :
    scan reading (c :: rest) = (scan next rest).map (done ++ ·) := by
  rw [scan_cons, h, Option.bind_some]

theorem scan_cons_of_step? (h : step? reading c = some ([], next)) :
    scan reading (c :: rest) = scan next rest := by
  rw [scan_cons_of_done h]
  exact Option.map_id'

/-! ### Strings -/

theorem scan_text_cons (hc : Quoted.Plain c) :
    scan (.text read) (c :: rest) = scan (.text (c :: read)) rest :=
  scan_cons_of_step? (by simp [step?, hc.1, hc.2.1, Nat.not_lt.2 hc.2.2])

/-- Whatever comes after a backslash belongs to the string, quotes too. -/
theorem scan_text_backslash (hc : 0x20 ≤ c.toNat) :
    scan (.text read) ('\\' :: c :: rest) = scan (.text (c :: '\\' :: read)) rest := by
  rw [scan_cons_of_step? rfl]
  exact scan_cons_of_step? (if_neg (Nat.not_lt.2 hc))

/-- What is written of a character is read within the string, whatever comes after. -/
theorem scan_text_encodeChar_append : scan (.text read) (Quoted.encodeChar c ++ rest) =
    scan (.text ((Quoted.encodeChar c).reverse ++ read)) rest := by
  obtain ⟨letter, hletter, hc⟩ | ⟨hcontrol, hc⟩ | ⟨hplain, hc⟩ := Quoted.encodeChar_cases c
  · rw [hc]
    exact scan_text_backslash (Quoted.le_toNat_of_escaped? hletter)
  · obtain ⟨hhigh, hlow⟩ := Quoted.plain_digitChar _ hcontrol
    have hzero : Quoted.Plain '0' := by decide
    simp only [hc, List.cons_append, List.nil_append]
    rw [scan_text_backslash (by decide), scan_text_cons hzero, scan_text_cons hzero,
      scan_text_cons hhigh, scan_text_cons hlow]
    rfl
  · rw [hc]
    exact scan_text_cons hplain

theorem scan_text_encode_append (cs : List Char) : scan (.text read) (Quoted.encode cs ++ rest) =
    scan (.text ((Quoted.encode cs).reverse ++ read)) rest := by
  induction cs generalizing read with
  | nil => rfl
  | cons c cs ih =>
    rw [Quoted.encode_cons, List.append_assoc, scan_text_encodeChar_append, ih,
      List.reverse_append, List.append_assoc]

/-- A string is read up to its closing quote. -/
theorem scan_text_chars_append (cs : List Char) :
    scan .gap ((text (Quoted.encode cs)).chars ++ rest) =
      (scan .gap rest).map (text (Quoted.encode cs) :: ·) := by
  have hclose : step? (.text (Quoted.encode cs).reverse) '"' =
      some ([text (Quoted.encode cs)], .gap) := by
    simp [step?]
  rw [chars, List.cons_append, List.cons_append, List.append_assoc, List.singleton_append,
    scan_cons_of_step? rfl, scan_text_encode_append, List.append_nil, scan_cons_of_done hclose]
  rfl

/-! ### Bare words -/

theorem start?_of_isBare (h : isBare c = true) : start? c = some ([], .bare [c]) := by
  have hne {d : Char} (hd : isBare d = false) : c ≠ d := fun e => by simp [e, hd] at h
  simp [start?, isSpace, h, hne (d := ' ') rfl, hne (d := '\t') rfl, hne (d := '\n') rfl,
    hne (d := '\r') rfl, hne (d := '"') rfl]

/-- A bare word is read up to the first character that cannot belong to it. -/
theorem scan_bare_append {word : List Char} (hword : ∀ c ∈ word, isBare c = true)
    (hrest : ∀ c, rest.head? = some c → isBare c = false) : scan (.bare read) (word ++ rest) =
      (scan .gap rest).map (bare (read.reverse ++ word) :: ·) := by
  induction word generalizing read with
  | nil =>
    cases rest with
    | nil => simp [scan]
    | cons c rest =>
      -- A character that ends the word does what it does between tokens.
      have hc : isBare c = false := hrest c rfl
      have hstep : step? (.bare read) c =
          (start? c).map fun x => (bare read.reverse :: x.1, x.2) := by
        simp [step?, hc]
      rw [List.nil_append, List.append_nil, scan_cons, scan_cons, hstep, step?, Option.bind_map,
        Option.map_bind]
      simp only [Function.comp_def, Option.map_map, List.cons_append]
  | cons c word ih =>
    rw [List.forall_mem_cons] at hword
    have hstep : step? (.bare read) c = some ([], .bare (c :: read)) := if_pos hword.1
    rw [List.cons_append, scan_cons_of_step? hstep, ih hword.2, List.reverse_cons,
      List.append_assoc, List.singleton_append]

theorem scan_bare_chars_append {word : List Char} (hne : word ≠ [])
    (hword : ∀ c ∈ word, isBare c = true) (hrest : ∀ c, rest.head? = some c → isBare c = false) :
    scan .gap ((bare word).chars ++ rest) = (scan .gap rest).map (bare word :: ·) := by
  obtain ⟨c, cs, rfl⟩ := List.exists_cons_of_ne_nil hne
  rw [List.forall_mem_cons] at hword
  have hstart : step? .gap c = some ([], .bare [c]) := start?_of_isBare hword.1
  rw [chars, List.cons_append, scan_cons_of_step? hstart, scan_bare_append hword.2 hrest]
  rfl

/-- Only a bare word begins with a character of bare words. -/
theorem isBare_head_chars {t : Token} (ht : ∀ w, t ≠ bare w) (h : t.chars.head? = some c) :
    isBare c = false := by
  cases t with
  | bare word => exact absurd rfl (ht word)
  | _ =>
    obtain rfl := Option.some.inj h
    rfl

/-- What follows a bare word ends it. -/
theorem isBare_head_flatMap_chars {ts : List Token} (hts : EndsBare ts)
    (h : (ts.flatMap chars).head? = some c) : isBare c = false := by
  cases ts with
  | nil => simp at h
  | cons t ts =>
    have ht : ∀ w, t ≠ bare w := fun w e => hts w (by simp [e])
    refine isBare_head_chars ht ?_
    cases t with
    | bare word => exact absurd rfl (ht word)
    | _ => exact h

/-! ### Sequences -/

theorem scan_mark {t : Token} (hchars : t.chars = [c])
    (hstart : step? .gap c = some ([t], .gap)) :
    scan .gap (t.chars ++ rest) = (scan .gap rest).map (t :: ·) := by
  rw [hchars, List.singleton_append, scan_cons_of_done hstart]
  rfl

/-- The first token is read, and then what comes after it. -/
theorem scan_chars_append {t : Token} {ts : List Token} (h : Separated (t :: ts)) :
    scan .gap (t.chars ++ ts.flatMap chars) = (scan .gap (ts.flatMap chars)).map (t :: ·) := by
  cases t with
  | text raw =>
    obtain ⟨⟨cs, rfl⟩, -⟩ := h
    exact scan_text_chars_append cs
  | bare word =>
    obtain ⟨⟨hne, hword⟩, hnext, -⟩ := h
    exact scan_bare_chars_append hne hword fun c => isBare_head_flatMap_chars hnext
  | _ => exact scan_mark rfl rfl

/-- Tokens are read back as they were written. -/
theorem scan_flatMap_chars {ts : List Token} (h : Separated ts) :
    scan .gap (ts.flatMap chars) = some ts := by
  induction ts with
  | nil => rfl
  | cons t ts ih =>
    rw [List.flatMap_cons, scan_chars_append h, ih h.of_cons, Option.map_some]

end MeshPartition.Json.Token
