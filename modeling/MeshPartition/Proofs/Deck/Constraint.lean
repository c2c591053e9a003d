import MeshPartition.Proofs.Deck.Keyword
import MeshPartition.Proofs.Dependency.Resolution
import Mathlib.Data.Int.Notation

/-!
# Which constraint a record gives

`Record.Gives` has the rules by which the record of a node says what the node depends on, each with
what it asks of the words of the record and with the answer that it gives. The rules exclude each
other: each one that stands later asks that those before it have nothing to say. The constraint of a
record is what the rules give, and they give one answer to each record
(`Record.constraint_outcome`).

That a rule gives the constraint of a record is shown stage by stage. A mask and a list are read by
the accessors of `Record.Found`, and a stage that has nothing to say hands the record on to the next
one (`Record.constraint_of_unmasked`, `Record.constraint_of_byKind`). Conversely some rule gives an
answer, since each accessor finds nothing, or something, or something malformed. Ids have no part in
that but zero: what is read as a number fits in 64 bits.
-/

namespace MeshPartition.Deck.Record

variable {r : Record} {ns mask listed : List ℕ} {ids masters : List GlobalId} {keyword : String}
  {n : ℕ} {answer : Except Error (Option Constraint)}

/-- The keyword is there, but no list of numbers after it. -/
def NoList (r : Record) (keyword : String) : Prop :=
  r.Mentions keyword ∧ ∀ ns, ¬ r.HasList Text.unsigned? keyword ns

/-- A mask has no say: the end of a rigid arm uses it for something else, there may be none, and all
its entries may be zero. -/
def Unmasked (r : Record) : Prop :=
  r.kind = "rigidarmnode" ∨ ¬ r.Mentions "mastermask" ∨
    ∃ mask, r.HasList Text.unsigned? "mastermask" mask ∧ ∀ n ∈ mask, n = 0

/-- Neither a mask nor a list has a say, and the kind decides. -/
def ByKind (r : Record) : Prop := r.Unmasked ∧ ¬ r.Mentions "masterdofman"

/-- What the record of a node gives: a constraint, no constraint, or an error. -/
inductive Gives (r : Record) : Except Error (Option Constraint) → Prop where
  /-- The entries of a mask other than zero are masters. -/
  | masked (mask : List ℕ) (masters : List GlobalId) (kind_ne : r.kind ≠ "rigidarmnode")
      (hasList : r.HasList Text.unsigned? "mastermask" mask) (nonzero : ∃ n ∈ mask, n ≠ 0)
      (order : FirstOccurrences 0 mask (masters.map GlobalId.toNat)) :
      Gives r (.ok (some (.explicitMasters masters)))
  /-- A mask has to be a list. -/
  | badMask (kind_ne : r.kind ≠ "rigidarmnode") (noList : r.NoList "mastermask") :
      Gives r (.error (r.missing "mastermask"))
  /-- The entries of a list of masters are masters. -/
  | listed (listed : List ℕ) (masters : List GlobalId) (unmasked : r.Unmasked)
      (hasList : r.HasList Text.unsigned? "masterdofman" listed) (nonzero : 0 ∉ listed)
      (order : FirstOccurrences 0 listed (masters.map GlobalId.toNat)) :
      Gives r (.ok (some (.explicitMasters masters)))
  /-- Zero is no master. -/
  | zeroListed (listed : List ℕ) (unmasked : r.Unmasked)
      (hasList : r.HasList Text.unsigned? "masterdofman" listed) (zero : 0 ∈ listed) :
      Gives r (.error (r.missing "masterdofman"))
  /-- A list of masters has to be a list. -/
  | badList (unmasked : r.Unmasked) (noList : r.NoList "masterdofman") :
      Gives r (.error (r.missing "masterdofman"))
  /-- A slave node has to list its masters. -/
  | slave (byKind : r.ByKind) (kind_eq : r.kind = "slavenode") :
      Gives r (.error (r.missing "masterdofman"))
  /-- The end of a rigid arm names its master. -/
  | rigidArm (master : GlobalId) (byKind : r.ByKind) (kind_eq : r.kind = "rigidarmnode")
      (hasValue : r.HasValue Text.unsigned? "master" master.toNat) :
      Gives r (.ok (some (.rigidArm [master])))
  /-- It has to name a node. -/
  | badArm (byKind : r.ByKind) (kind_eq : r.kind = "rigidarmnode")
      (noValue : ∀ n, r.HasValue Text.unsigned? "master" n → n = 0) :
      Gives r (.error (r.missing "master"))
  /-- A hanging node names the element on which it hangs. -/
  | hanging (n : ℤ) (host : GlobalId) (byKind : r.ByKind) (kind_eq : r.kind = "hangingnode")
      (hasValue : r.HasValue Text.signed? "masterelement" n) (pos : 0 < n)
      (converted : GlobalId.ofNat n.toNat = .ok host) :
      Gives r (.ok (some (.hangingOnElement (some host))))
  /-- It leaves the element open if it names none, or a number that is not positive. -/
  | openHost (byKind : r.ByKind) (kind_eq : r.kind = "hangingnode")
      (noHost : ¬ r.Mentions "masterelement" ∨
        ∃ n ≤ 0, r.HasValue Text.signed? "masterelement" n) :
      Gives r (.ok (some (.hangingOnElement none)))
  /-- It has to name a number if it names anything. -/
  | badHost (byKind : r.ByKind) (kind_eq : r.kind = "hangingnode")
      (mentions : r.Mentions "masterelement")
      (noValue : ∀ n, ¬ r.HasValue Text.signed? "masterelement" n) :
      Gives r (.error (r.missing "masterelement"))
  /-- All other nodes are free. -/
  | free (byKind : r.ByKind)
      (kind_notMem : r.kind ∉ ["slavenode", "rigidarmnode", "hangingnode"]) : Gives r (.ok none)

/-! ## Ids -/

/-- A positive number that is read as a signed one is that of an id. -/
theorem exists_ofNat_eq_ok {z : ℤ} {w : String} (h : Text.signed? w = some z) (hpos : 0 < z) :
    ∃ id, GlobalId.ofNat z.toNat = .ok id := by
  have hrange := (Option.filter_eq_some_iff.1 h).2
  rw [Bool.and_eq_true, decide_eq_true_eq, decide_eq_true_eq] at hrange
  have hpos' : 0 < z.toNat := by omega
  have hlt : z.toNat < UInt64.size := by omega
  exact ⟨⟨z.toNat, hpos', hlt⟩, GlobalId.ofNat_eq_ok_iff.2 rfl⟩

theorem lt_of_hasList (h : r.HasList Text.unsigned? keyword ns) : ∀ n ∈ ns, n < UInt64.size := by
  obtain ⟨i, -, -, hentries⟩ := h
  intro n hn
  obtain ⟨k, hk⟩ := List.getElem?_of_mem hn
  obtain ⟨w, -, hread⟩ := hentries k n hk
  exact lt_of_unsigned? hread

/-- Numbers that fit in 64 bits and are not zero are those of ids. -/
theorem exists_map_toNat_eq (hzero : 0 ∉ ns) (hlt : ∀ n ∈ ns, n < UInt64.size) :
    ∃ ids : List GlobalId, ids.map GlobalId.toNat = ns := by
  induction ns with
  | nil => exact ⟨[], rfl⟩
  | cons n ns ih =>
    rw [List.mem_cons, not_or] at hzero
    rw [List.forall_mem_cons] at hlt
    obtain ⟨ids, rfl⟩ := ih hzero.2 hlt.2
    exact ⟨⟨n, Nat.pos_of_ne_zero (Ne.symm hzero.1), hlt.1⟩ :: ids, rfl⟩

/-- Numbers of which one is zero count as missing. -/
theorem globalIds_eq_error_of_zero_mem (h : 0 ∈ ns) :
    r.globalIds keyword ns = .error (r.missing keyword) := by
  induction ns with
  | nil => cases h
  | cons n ns ih =>
    rw [globalIds]
    cases hid : GlobalId.ofNat? n with
    | none => rfl
    | some id =>
      have hn : n ≠ 0 := GlobalId.toNat_of_ofNat? hid ▸ Nat.ne_of_gt id.pos
      have hrest : 0 ∈ ns := (List.mem_cons.1 h).resolve_left (Ne.symm hn)
      dsimp only
      rw [ih hrest]
      rfl

/-- The ids of the entries of a list other than zero, each once. -/
theorem exists_firstOccurrences (h : ∀ n ∈ ns, n < UInt64.size) :
    ∃ masters : List GlobalId, FirstOccurrences 0 ns (masters.map GlobalId.toNat) := by
  have horder := firstOccurrences_distinct 0 ns
  have hzero : 0 ∉ distinct (ns.filter (· ≠ 0)) := fun hmem => ((horder.mem_iff 0).1 hmem).2 rfl
  obtain ⟨masters, hmasters⟩ :=
    exists_map_toNat_eq hzero fun n hn => h n ((horder.mem_iff n).1 hn).1
  exact ⟨masters, hmasters ▸ horder⟩

/-! ## Stages -/

/-- A mask without entries other than zero is as good as none. -/
theorem maskedMasters_eq_ok_none (h : ¬ r.Mentions "mastermask" ∨
    ∃ mask, r.HasList Text.unsigned? "mastermask" mask ∧ ∀ n ∈ mask, n = 0) :
    r.maskedMasters = .ok none := by
  rcases h with habsent | ⟨mask, hmask, hzero⟩
  · rw [maskedMasters, optionalList_eq_iff.2 (.absent habsent)]
    rfl
  · have hempty : mask.filter (· ≠ 0) = [] :=
      List.filter_eq_nil_iff.2 fun n hn => by simp [hzero n hn]
    rw [maskedMasters, optionalList_eq_iff.2 (.present mask hmask)]
    show Except.ok (if (distinct (mask.filter (· ≠ 0))).isEmpty then none else _) = _
    rw [hempty]
    rfl

/-- A mask with an entry other than zero lists masters. -/
theorem maskedMasters_eq_ok_some (hmask : r.HasList Text.unsigned? "mastermask" mask)
    (hnonzero : ∃ n ∈ mask, n ≠ 0) :
    r.maskedMasters = .ok (some (distinct (mask.filter (· ≠ 0)))) := by
  obtain ⟨n, hn, hne⟩ := hnonzero
  have hmem : n ∈ distinct (mask.filter (· ≠ 0)) := by simpa using ⟨hn, hne⟩
  have hnonempty : (distinct (mask.filter (· ≠ 0))).isEmpty = false := by
    rw [List.isEmpty_eq_false_iff]
    exact List.ne_nil_of_mem hmem
  rw [maskedMasters, optionalList_eq_iff.2 (.present mask hmask)]
  show Except.ok (if (distinct (mask.filter (· ≠ 0))).isEmpty then none else _) = _
  rw [hnonempty]
  rfl

/-- Without a mask that has a say, listed masters are the next to be asked for. -/
theorem constraint_of_unmasked (h : r.Unmasked) : r.constraint = (do
    match ← r.listedMasters with
    | some masters => return some (.explicitMasters (← r.globalIds "masterdofman" masters))
    | none => r.kindConstraint) := by
  rw [constraint]
  split
  · rfl
  · rename_i hkind
    rw [maskedMasters_eq_ok_none (h.resolve_left hkind)]
    rfl

/-- Without listed masters, the kind of the record decides. -/
theorem constraint_of_byKind (h : r.ByKind) (hkind : r.kind ≠ "slavenode") :
    r.constraint = r.kindConstraint := by
  have hlisted : r.listedMasters = .ok none := by
    rw [listedMasters, optionalList_eq_iff.2 (.absent h.2)]
    exact if_neg hkind
  rw [constraint_of_unmasked h.1, hlisted]
  rfl

/-- Listed masters are the constraint. -/
theorem constraint_of_hasList (h : r.Unmasked)
    (hlisted : r.HasList Text.unsigned? "masterdofman" listed) :
    r.constraint = (r.globalIds "masterdofman" (distinct listed)).map fun ids =>
      some (.explicitMasters ids) := by
  have hmasters : r.listedMasters = .ok (some (distinct listed)) := by
    rw [listedMasters, optionalList_eq_iff.2 (.present listed hlisted)]
    rfl
  rw [constraint_of_unmasked h, hmasters]
  show (r.globalIds "masterdofman" (distinct listed) >>= _) = _
  cases r.globalIds "masterdofman" (distinct listed) <;> rfl

/-- Without a list of masters that reads, asking for it fails. -/
theorem listedMasters_of_noList (h : r.NoList "masterdofman") :
    r.listedMasters = .error (r.missing "masterdofman") := by
  rw [listedMasters, optionalList_eq_iff.2 (.malformed h.1 h.2)]
  rfl

/-- The kind of a rigid arm asks for a master. -/
theorem kindConstraint_of_hasValue {master : ℕ} (hkind : r.kind = "rigidarmnode")
    (hvalue : r.HasValue Text.unsigned? "master" master) : r.kindConstraint =
      (r.globalIds "master" [master]).map fun ids => some (.rigidArm ids) := by
  rw [kindConstraint, if_pos hkind, value, optionalValue_eq_iff.2 (.present master hvalue)]
  show (r.globalIds "master" [master] >>= _) = _
  cases r.globalIds "master" [master] <;> rfl

/-- Each rule gives the constraint. -/
theorem constraint_eq_of_gives (h : r.Gives answer) : r.constraint = answer := by
  cases h with
  | masked mask masters hkind hmask hnonzero horder =>
    have hread : r.globalIds "mastermask" (distinct (mask.filter (· ≠ 0))) = .ok masters :=
      globalIds_eq_ok_iff.2 ((firstOccurrences_distinct 0 mask).unique horder)
    rw [constraint, if_neg hkind, maskedMasters_eq_ok_some hmask hnonzero]
    exact bind_eq_ok_iff.2 ⟨_, rfl, bind_eq_ok_iff.2 ⟨_, hread, rfl⟩⟩
  | badMask hkind hbad =>
    rw [constraint, if_neg hkind, maskedMasters, optionalList_eq_iff.2 (.malformed hbad.1 hbad.2)]
    rfl
  | listed listed masters hunmasked hlisted hzero horder =>
    have hkept : listed.filter (· ≠ 0) = listed :=
      List.filter_eq_self.2 fun n hn => by simpa using fun h0 : n = 0 => hzero (h0 ▸ hn)
    have hdistinct := firstOccurrences_distinct 0 listed
    rw [hkept] at hdistinct
    have hread : r.globalIds "masterdofman" (distinct listed) = .ok masters :=
      globalIds_eq_ok_iff.2 (hdistinct.unique horder)
    rw [constraint_of_hasList hunmasked hlisted, hread]
    rfl
  | zeroListed listed hunmasked hlisted hzero =>
    rw [constraint_of_hasList hunmasked hlisted,
      globalIds_eq_error_of_zero_mem (mem_distinct.2 hzero)]
    rfl
  | badList hunmasked hbad =>
    rw [constraint_of_unmasked hunmasked, listedMasters_of_noList hbad]
    rfl
  | slave hkind heq =>
    have hlisted : r.listedMasters = .error (r.missing "masterdofman") := by
      rw [listedMasters, optionalList_eq_iff.2 (.absent hkind.2)]
      exact if_pos heq
    rw [constraint_of_unmasked hkind.1, hlisted]
    rfl
  | rigidArm master hkind heq hmaster =>
    have hread : r.globalIds "master" [master.toNat] = .ok [master] := globalIds_eq_ok_iff.2 rfl
    rw [constraint_of_byKind hkind (by rw [heq]; decide), kindConstraint_of_hasValue heq hmaster,
      hread]
    rfl
  | badArm hkind heq hnone =>
    rw [constraint_of_byKind hkind (by rw [heq]; decide)]
    by_cases hzero : r.HasValue Text.unsigned? "master" 0
    · rw [kindConstraint_of_hasValue heq hzero, globalIds_eq_error_of_zero_mem (by simp)]
      rfl
    · -- There is no value at all, whether or not the keyword is there.
      have hvalue (n : ℕ) : ¬ r.HasValue Text.unsigned? "master" n := fun h => hzero (hnone n h ▸ h)
      have hmissing : r.value Text.unsigned? "master" = .error (r.missing "master") := by
        rw [value]
        by_cases hmentions : r.Mentions "master"
        · rw [optionalValue_eq_iff.2 (.malformed hmentions hvalue)]
          rfl
        · rw [optionalValue_eq_iff.2 (.absent hmentions)]
          rfl
      rw [kindConstraint, if_pos heq, hmissing]
      rfl
  | hanging n host hkind heq hvalue hpos hhost =>
    have hid := GlobalId.ofNat_eq_ok_iff.1 hhost
    rw [constraint_of_byKind hkind (by rw [heq]; decide), kindConstraint,
      if_neg (by rw [heq]; decide), if_pos heq, optionalValue_eq_iff.2 (.present n hvalue)]
    show Except.ok (some (Constraint.hangingOnElement (GlobalId.ofNat? n.toNat))) = _
    rw [← hid, GlobalId.ofNat?_toNat]
  | openHost hkind heq hnone =>
    rw [constraint_of_byKind hkind (by rw [heq]; decide), kindConstraint,
      if_neg (by rw [heq]; decide), if_pos heq]
    rcases hnone with habsent | ⟨n, hn, hvalue⟩
    · rw [optionalValue_eq_iff.2 (.absent habsent)]
      rfl
    · rw [optionalValue_eq_iff.2 (.present n hvalue)]
      show Except.ok (some (Constraint.hangingOnElement (GlobalId.ofNat? n.toNat))) = _
      rw [Int.toNat_of_nonpos hn]
      rfl
  | badHost hkind heq hmentions hnone =>
    rw [constraint_of_byKind hkind (by rw [heq]; decide), kindConstraint,
      if_neg (by rw [heq]; decide), if_pos heq,
      optionalValue_eq_iff.2 (.malformed hmentions hnone)]
    rfl
  | free hkind hne =>
    simp only [List.mem_cons, List.not_mem_nil, or_false, not_or] at hne
    rw [constraint_of_byKind hkind hne.1, kindConstraint, if_neg hne.2.1, if_neg hne.2.2]
    rfl

/-! ## Some rule applies -/

/-- There is no keyword, or a list after it, or something else. -/
theorem list_cases (r : Record) (keyword : String) : ¬ r.Mentions keyword ∨
    (∃ ns, r.HasList Text.unsigned? keyword ns) ∨ r.NoList keyword := by
  by_cases hmentions : r.Mentions keyword
  · by_cases hlist : ∃ ns, r.HasList Text.unsigned? keyword ns
    · exact .inr (.inl hlist)
    · exact .inr (.inr ⟨hmentions, not_exists.1 hlist⟩)
  · exact .inl hmentions

theorem exists_gives_of_byKind (h : r.ByKind) : ∃ answer, r.Gives answer := by
  by_cases hslave : r.kind = "slavenode"
  · exact ⟨_, .slave h hslave⟩
  by_cases harm : r.kind = "rigidarmnode"
  · by_cases hvalue : ∃ n, r.HasValue Text.unsigned? "master" n ∧ n ≠ 0
    · obtain ⟨n, hn, hne⟩ := hvalue
      have hlt : n < UInt64.size := by
        obtain ⟨i, -, w, -, hread⟩ := hn
        exact lt_of_unsigned? hread
      exact ⟨_, .rigidArm ⟨n, Nat.pos_of_ne_zero hne, hlt⟩ h harm hn⟩
    · refine ⟨_, .badArm h harm fun n hn => ?_⟩
      by_contra hne
      exact hvalue ⟨n, hn, hne⟩
  by_cases hhanging : r.kind = "hangingnode"
  · by_cases hmentions : r.Mentions "masterelement"
    · by_cases hvalue : ∃ n, r.HasValue Text.signed? "masterelement" n
      · obtain ⟨n, hn⟩ := hvalue
        by_cases hpos : 0 < n
        · have hhost : ∃ host, GlobalId.ofNat n.toNat = .ok host := by
            obtain ⟨i, -, w, -, hread⟩ := hn
            exact exists_ofNat_eq_ok hread hpos
          obtain ⟨host, hhost⟩ := hhost
          exact ⟨_, .hanging n host h hhanging hn hpos hhost⟩
        · exact ⟨_, .openHost h hhanging (.inr ⟨n, by omega, hn⟩)⟩
      · exact ⟨_, .badHost h hhanging hmentions (not_exists.1 hvalue)⟩
    · exact ⟨_, .openHost h hhanging (.inl hmentions)⟩
  · exact ⟨_, .free h (by simp [hslave, harm, hhanging])⟩

theorem exists_gives_of_unmasked (h : r.Unmasked) : ∃ answer, r.Gives answer := by
  rcases r.list_cases "masterdofman" with habsent | ⟨listed, hlisted⟩ | hbad
  · exact exists_gives_of_byKind ⟨h, habsent⟩
  · by_cases hzero : 0 ∈ listed
    · exact ⟨_, .zeroListed listed h hlisted hzero⟩
    · obtain ⟨masters, horder⟩ := exists_firstOccurrences (lt_of_hasList hlisted)
      exact ⟨_, .listed listed masters h hlisted hzero horder⟩
  · exact ⟨_, .badList h hbad⟩

theorem exists_gives (r : Record) : ∃ answer, r.Gives answer := by
  by_cases harm : r.kind = "rigidarmnode"
  · exact exists_gives_of_unmasked (.inl harm)
  rcases r.list_cases "mastermask" with habsent | ⟨mask, hmask⟩ | hbad
  · exact exists_gives_of_unmasked (.inr (.inl habsent))
  · by_cases hnonzero : ∃ n ∈ mask, n ≠ 0
    · obtain ⟨masters, horder⟩ := exists_firstOccurrences (lt_of_hasList hmask)
      exact ⟨_, .masked mask masters harm hmask hnonzero horder⟩
    · refine exists_gives_of_unmasked (.inr (.inr ⟨mask, hmask, fun n hn => ?_⟩))
      by_contra hne
      exact hnonzero ⟨n, hn, hne⟩
  · exact ⟨_, .badMask harm hbad⟩

/-- A record is answered as the rules say. -/
theorem constraint_eq_iff_gives : r.constraint = answer ↔ r.Gives answer := by
  refine ⟨?_, constraint_eq_of_gives⟩
  rintro rfl
  obtain ⟨answer, h⟩ := r.exists_gives
  rwa [constraint_eq_of_gives h]

/-- The ids of first occurrences are distinct. -/
theorem nodup_of_gives (h : r.Gives (.ok (some (.explicitMasters masters)))) : masters.Nodup := by
  cases h with
  | masked _ _ _ _ _ horder => exact horder.nodup.of_map _
  | listed _ _ _ _ _ horder => exact horder.nodup.of_map _

/-- The constraint of a record is what the rules give, and the rules give one answer to each record.
Masters that are listed in any way are distinct. What is wrong with a record is always that a
keyword is missing, never that a number is not that of an id. -/
theorem constraint_outcome (r : Record) :
    (∀ answer, r.constraint = answer ↔ r.Gives answer) ∧
    (∀ masters, r.constraint = .ok (some (.explicitMasters masters)) → masters.Nodup) ∧
    (∀ e, r.constraint = .error e → ∃ keyword ∈ ["mastermask", "masterdofman", "master",
      "masterelement"], e = .missingKeyword keyword (.line r.line r.text)) ∧
    r.constraint ≠ .error .invalidGlobalId := by
  have hmissing : ∀ e, r.constraint = .error e → ∃ keyword ∈ ["mastermask", "masterdofman",
      "master", "masterelement"], e = .missingKeyword keyword (.line r.line r.text) := by
    intro e h
    cases constraint_eq_iff_gives.1 h <;> exact ⟨_, by decide, rfl⟩
  refine ⟨fun _ => constraint_eq_iff_gives, fun _ h => nodup_of_gives (constraint_eq_iff_gives.1 h),
    hmissing, fun h => ?_⟩
  obtain ⟨keyword, -, he⟩ := hmissing _ h
  cases he

/-- A node with a mask, in which a master is named twice. -/
def maskedNode : Record := ofLine 3 "Node 5 masterDofMan 1 0 MASTERMASK 4 0 9 +7 9 ".toList

/-- A slave node whose mask is empty and whose list has a zero in it. -/
def zeroSlave : Record := ofLine 4 "slavenode 6 mastermask 2 0 0 masterdofman 2 3 0 ".toList

/-- The mask counts before the list does; a mask of zeros does not count. -/
theorem constraint_outcome_masks :
    (maskedNode.constraint = .ok (some (.explicitMasters [.nth 8, .nth 6])) ∧
      maskedNode.Gives (.ok (some (.explicitMasters [.nth 8, .nth 6]))) ∧
      [GlobalId.nth 8, .nth 6].Nodup) ∧
    zeroSlave.constraint = .error (zeroSlave.missing "masterdofman") ∧
      zeroSlave.Gives (.error (zeroSlave.missing "masterdofman")) ∧
      ∃ keyword ∈ ["mastermask", "masterdofman", "master", "masterelement"],
        zeroSlave.missing "masterdofman" = .missingKeyword keyword
          (.line 4 "slavenode 6 mastermask 2 0 0 masterdofman 2 3 0") := by
  obtain ⟨hmasked, hnodup, -, -⟩ := constraint_outcome maskedNode
  obtain ⟨hzero, -, hmissing, -⟩ := constraint_outcome zeroSlave
  have hmask : maskedNode.constraint = .ok (some (.explicitMasters [.nth 8, .nth 6])) := by
    decide +kernel
  have herror : zeroSlave.constraint = .error (zeroSlave.missing "masterdofman") := by
    decide +kernel
  exact ⟨⟨hmask, (hmasked _).1 hmask, hnodup _ hmask⟩, herror, (hzero _).1 herror,
    hmissing _ herror⟩

end MeshPartition.Deck.Record
