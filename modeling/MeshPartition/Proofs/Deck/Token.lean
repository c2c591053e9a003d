import MeshPartition.Deck.Token

/-!
# What a line spells

`Token.Spells` is the grammar of a line: words that are kept apart by blanks or quotes, texts
between quotes, and any blanks around and between them. A line is read as the tokens that it spells
(`Token.ofLine_eq_iff`), so every line spells exactly one list of tokens.
-/

namespace MeshPartition.Deck.Token

open Text (isBlank)

/-- A word of a line, by its characters. -/
structure IsWord (w : List Char) : Prop where
  ne_nil : w ≠ []
  not_blank : ∀ c ∈ w, isBlank c = false
  not_quote : '"' ∉ w

instance (w : List Char) : Decidable (IsWord w) :=
  decidable_of_iff ((!w.isEmpty && w.all (!isBlank ·) && !w.elem '"') = true)
    ⟨fun h => by
      rw [Bool.and_eq_true, Bool.and_eq_true] at h
      exact ⟨by simpa using h.1.1, by simpa using h.1.2, by simpa using h.2⟩,
    fun h => by simpa using ⟨⟨h.ne_nil, h.not_blank⟩, h.not_quote⟩⟩

/-- Nothing follows a word, or something that ends it. -/
def EndsWord (cs : List Char) : Prop := ∀ c ∈ cs.head?, isBlank c = true ∨ c = '"'

/-- A line spells some tokens. -/
inductive Spells : List Token → List Char → Prop
  | nil : Spells [] []
  | blank {ts : List Token} {cs : List Char} (c : Char) (isBlank_eq : isBlank c = true)
      (rest : Spells ts cs) : Spells ts (c :: cs)
  | word {ts : List Token} {cs : List Char} (w : List Char) (isWord : IsWord w)
      (endsWord : EndsWord cs) (rest : Spells ts cs) :
      Spells (.word (String.ofList w) :: ts) (w ++ cs)
  | quoted {ts : List Token} {cs : List Char} (q : List Char) (not_quote : '"' ∉ q)
      (rest : Spells ts cs) : Spells (.quoted (String.ofList q) :: ts) ('"' :: (q ++ '"' :: cs))
  /-- The last quote of a line need not be closed. -/
  | unclosed (q : List Char) (not_quote : '"' ∉ q) : Spells [.quoted (String.ofList q)] ('"' :: q)

variable {ts : List Token} {cs : List Char}

/-- Characters of a word are read on. -/
theorem scan_word {w : List Char} (hblank : ∀ c ∈ w, isBlank c = false) (hquote : '"' ∉ w)
    (read cs : List Char) : scan (.word read) (w ++ cs) = scan (.word (w.reverse ++ read)) cs := by
  induction w generalizing read with
  | nil => rfl
  | cons c w ih =>
    rw [List.forall_mem_cons] at hblank
    rw [List.mem_cons, not_or] at hquote
    rw [List.cons_append, scan, if_neg (by simp [hblank.1]), if_neg (Ne.symm hquote.1),
      ih hblank.2 hquote.2, List.reverse_cons, List.append_assoc, List.singleton_append]

/-- What ends a word is read for itself. -/
theorem scan_word_of_endsWord (h : EndsWord cs) (read : List Char) :
    scan (.word read) cs = .word (String.ofList read.reverse) :: scan .gap cs := by
  cases cs with
  | nil => rfl
  | cons c cs =>
    rw [scan, scan]
    rcases h c rfl with hc | rfl
    · rw [if_pos hc, if_pos hc]
    · rfl

/-- Characters of a quoted text are read on. -/
theorem scan_quoted {q : List Char} (hquote : '"' ∉ q) (read cs : List Char) :
    scan (.quoted read) (q ++ cs) = scan (.quoted (q.reverse ++ read)) cs := by
  induction q generalizing read with
  | nil => rfl
  | cons c q ih =>
    rw [List.mem_cons, not_or] at hquote
    rw [List.cons_append, scan, if_neg (Ne.symm hquote.1), ih hquote.2, List.reverse_cons,
      List.append_assoc, List.singleton_append]

/-- A line is read as the tokens that it spells. -/
theorem Spells.ofLine_eq (h : Spells ts cs) : ofLine cs = ts := by
  unfold ofLine
  induction h with
  | nil => rfl
  | blank c hc rest ih => rw [scan, if_pos hc, ih]
  | word w hw hend rest ih =>
    obtain ⟨c, w, rfl⟩ := List.exists_cons_of_ne_nil hw.ne_nil
    have hc : isBlank c ≠ true := by simp [hw.not_blank c List.mem_cons_self]
    have hquote := hw.not_quote
    rw [List.mem_cons, not_or] at hquote
    rw [List.cons_append, scan, if_neg hc, if_neg (Ne.symm hquote.1),
      scan_word (fun d hd => hw.not_blank d (List.mem_cons_of_mem c hd)) hquote.2,
      scan_word_of_endsWord hend, ih]
    simp
  | quoted q hq rest ih =>
    rw [scan, if_neg (by decide), if_pos rfl, scan_quoted hq, scan, if_pos rfl, ih]
    simp
  | unclosed q hq =>
    have hread := scan_quoted hq [] []
    rw [List.append_nil, List.append_nil] at hread
    rw [scan, if_neg (by decide), if_pos rfl, hread, scan, List.reverse_reverse]

namespace Reading

/-- The part of a line that has been read since the last complete token. -/
def begun : Reading → List Char
  | gap => []
  | word read => read.reverse
  | quoted read => '"' :: read.reverse

/-- What has been read can be part of a token. -/
def Sound : Reading → Prop
  | gap => True
  | word read => IsWord read.reverse
  | quoted read => '"' ∉ read

end Reading

/-- A character that is neither blank nor a quote makes a word longer, or a word of its own. -/
theorem isWord_concat {w : List Char} {c : Char} (h : w = [] ∨ IsWord w) (hc : isBlank c = false)
    (hquote : c ≠ '"') : IsWord (w ++ [c]) := by
  have hw : (∀ d ∈ w, isBlank d = false) ∧ '"' ∉ w := by
    rcases h with rfl | h
    · simp
    · exact ⟨h.not_blank, h.not_quote⟩
  refine ⟨by simp, fun d hd => ?_, ?_⟩
  · rcases List.mem_append.1 hd with hd | hd
    · exact hw.1 d hd
    · rw [List.mem_singleton.1 hd, hc]
  · rw [List.mem_append, List.mem_singleton, not_or]
    exact ⟨hw.2, Ne.symm hquote⟩

/-- The tokens that are read from some point of a line on are spelled there. -/
theorem spells_scan (r : Reading) (cs : List Char) (h : r.Sound) :
    Spells (scan r cs) (r.begun ++ cs) := by
  induction r, cs using scan.induct with
  | case1 => exact .nil
  | case2 read =>
    rw [scan]
    exact .word _ h nofun .nil
  | case3 read =>
    rw [scan, List.append_nil]
    exact .unclosed _ (by simpa [Reading.Sound] using h)
  | case4 c cs hc ih =>
    rw [scan, if_pos hc]
    exact .blank c hc (ih trivial)
  | case5 cs hc ih =>
    rw [scan, if_neg hc, if_pos rfl]
    exact ih (by simp [Reading.Sound])
  | case6 c cs hc hquote ih =>
    rw [scan, if_neg hc, if_neg hquote]
    exact ih (isWord_concat (.inl rfl) (by simpa using hc) hquote)
  | case7 read c cs hc ih =>
    rw [scan, if_pos hc]
    exact .word _ h (by simp [EndsWord, hc]) (.blank c hc (ih trivial))
  | case8 read cs hc ih =>
    rw [scan, if_neg hc, if_pos rfl]
    exact .word _ h (by simp [EndsWord]) (ih (by simp [Reading.Sound]))
  | case9 read c cs hc hquote ih =>
    have hword := isWord_concat (.inr h) (by simpa using hc) hquote
    rw [scan, if_neg hc, if_neg hquote]
    simpa [Reading.begun] using ih (by simpa [Reading.Sound] using hword)
  | case10 read cs ih =>
    rw [scan, if_pos rfl]
    simpa [Reading.begun] using Spells.quoted read.reverse (by simpa [Reading.Sound] using h)
      (ih trivial)
  | case11 read c cs hquote ih =>
    have hread : '"' ∉ c :: read := by simpa [eq_comm] using ⟨hquote, h⟩
    rw [scan, if_neg hquote]
    simpa [Reading.begun] using ih hread

/-- A line is read as certain tokens exactly if it spells them. -/
theorem ofLine_eq_iff : ofLine cs = ts ↔ Spells ts cs := by
  constructor
  · rintro rfl
    exact spells_scan .gap cs trivial
  · exact Spells.ofLine_eq

end MeshPartition.Deck.Token
