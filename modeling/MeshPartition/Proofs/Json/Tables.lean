import MeshPartition.Json.Tables
import MeshPartition.Proofs.Json.Form

/-!
# The library's tables are read back

Every table that has a JSON form is read back from its own text, and reading any text of it and
writing the outcome brings that text to the form in which its value is written
(`Json.roundTrips_tables`). For each table three things are shown: what is written is a JSON value
in the sense of `Json.Written`, its members are found again under their names, and a value that was
read holds no numbers of more than 64 bits.
-/

namespace MeshPartition

open Json FaithfulForm

/-! ### Kinds, statuses and modes -/

instance : WordSized ConstraintKind := ⟨fun _ => True⟩

instance : WordSized NodeStatus := ⟨fun _ => True⟩

instance : WordSized ClosureMode := ⟨fun _ => True⟩

instance : FaithfulForm ConstraintKind where
  written k := written_ofString k.name
  ofJson?_toJson {k} _ := choice?_ofString (by cases k <;> decide)
  fits_of_ofJson? _ := trivial

instance : FaithfulForm NodeStatus where
  written s := written_ofString s.name
  ofJson?_toJson {s} _ := choice?_ofString (by cases s <;> decide)
  fits_of_ofJson? _ := trivial

instance : FaithfulForm ClosureMode where
  written m := written_ofString m.name
  ofJson?_toJson {m} _ := choice?_ofString (by cases m <;> decide)
  fits_of_ofJson? _ := trivial

/-! ### Constraints -/

/-- The numbers of a constraint are ids. -/
instance : WordSized Constraint := ⟨fun _ => True⟩

/-- The key of a constraint decides how its value is read. -/
theorem Constraint.ofJson?_member {key : List Char} {v : Json} {kind : ConstraintKind} :
    ofJson? (text key) = some kind → (ofJson? (object [(key, v)]) : Option Constraint) =
      match kind with
      | .explicitMasters => (ofJson? v).map .explicitMasters
      | .rigidArm => (ofJson? v).map .rigidArm
      | .hangingOnElement => (ofJson? v).map .hangingOnElement := by
  intro h
  change (ofJson? (text key) >>= _) = _
  rw [h, Option.bind_eq_bind, Option.bind_some]
  cases kind <;> exact Option.map_eq_bind.symm

instance : FaithfulForm Constraint where
  written c := by
    refine written_ofMembers (List.forall_mem_singleton.2 ?_)
    cases c <;> exact written _
  ofJson?_toJson {c} _ := by
    have hkind : ofJson? (text (Quoted.encode c.kind.name.toList)) = some c.kind :=
      ofJson?_toJson (a := c.kind) trivial
    refine (Constraint.ofJson?_member hkind).trans ?_
    cases c with
    | explicitMasters masters =>
      exact congrArg (Option.map _) (ofJson?_toJson (a := masters) fun _ _ => trivial)
    | rigidArm masters =>
      exact congrArg (Option.map _) (ofJson?_toJson (a := masters) fun _ _ => trivial)
    | hangingOnElement element =>
      exact congrArg (Option.map _) (ofJson?_toJson (a := element) fun _ _ => trivial)
  fits_of_ofJson? _ := trivial

/-! ### Records -/

instance : WordSized Classification := ⟨fun c => Fits c.status ∧ Fits c.partitions⟩

instance : WordSized ClosureReport := ⟨fun r => Fits r.passes⟩

instance : WordSized Assignment := ⟨fun a => Fits a.parts ∧ Fits a.partCount⟩

instance : WordSized Summary := ⟨fun s =>
  Fits s.partition ∧ Fits s.localNodes ∧ Fits s.sharedNodes ∧ Fits s.elements⟩

instance : WordSized NodeList := ⟨fun l =>
  Fits l.partition ∧ Fits l.elements ∧ Fits l.localNodes ∧ Fits l.sharedNodes⟩

instance : WordSized Config := ⟨fun c => Fits c.partCount⟩

instance : FaithfulForm Classification where
  written c := written_ofMembers (by simp [written])
  ofJson?_toJson {c} h := by
    have hmembers : members? ["status", "partitions"] (toJson c) =
        some [some (toJson c.status), some (toJson c.partitions)] :=
      members?_ofMembers [("status", _), ("partitions", _)] (by simp)
    simp [ofJson?, hmembers, required?_toJson h.1, required?_toJson h.2]
  fits_of_ofJson? {_ c} h := by
    simp only [ofJson?, Option.bind_eq_bind, Option.bind_eq_some_iff] at h
    obtain ⟨members, -, h⟩ := h
    split at h
    · simp only [Option.bind_eq_some_iff] at h
      obtain ⟨status, hstatus, partitions, hpartitions, h⟩ := h
      cases h
      exact ⟨fits_of_required? hstatus, fits_of_required? hpartitions⟩
    · cases h

instance : FaithfulForm ClosureReport where
  written r := written_ofMembers (by simp [written])
  ofJson?_toJson {r} h := by
    have hmembers : members? ["mode", "passes", "converged"] (toJson r) =
        some [some (toJson r.mode), some (toJson r.passes), some (toJson r.converged)] :=
      members?_ofMembers [("mode", _), ("passes", _), ("converged", _)] (by simp)
    simp [ofJson?, hmembers, required?_toJson (a := r.mode) trivial,
      required?_toJson (a := r.passes) h, required?_toJson (a := r.converged) trivial]
  fits_of_ofJson? {_ r} h := by
    simp only [ofJson?, Option.bind_eq_bind, Option.bind_eq_some_iff] at h
    obtain ⟨members, -, h⟩ := h
    split at h
    · simp only [Option.bind_eq_some_iff] at h
      obtain ⟨_, -, passes, hpasses, _, -, h⟩ := h
      cases h
      exact fits_of_required? (a := passes) hpasses
    · cases h

instance : FaithfulForm Assignment where
  written a := written_ofMembers (by simp [written])
  ofJson?_toJson {a} h := by
    have hmembers : members? ["parts", "n_parts"] (toJson a) =
        some [some (toJson a.parts), some (toJson a.partCount)] :=
      members?_ofMembers [("parts", _), ("n_parts", _)] (by simp)
    simp [ofJson?, hmembers, required?_toJson h.1, required?_toJson h.2]
  fits_of_ofJson? {_ a} h := by
    simp only [ofJson?, Option.bind_eq_bind, Option.bind_eq_some_iff] at h
    obtain ⟨members, -, h⟩ := h
    split at h
    · simp only [Option.bind_eq_some_iff] at h
      obtain ⟨parts, hparts, partCount, hpartCount, h⟩ := h
      cases h
      exact ⟨fits_of_required? hparts, fits_of_required? hpartCount⟩
    · cases h

instance : FaithfulForm Summary where
  written s := written_ofMembers (by simp [written])
  ofJson?_toJson {s} h := by
    have hmembers : members? ["partition", "local_nodes", "shared_nodes", "elements"] (toJson s) =
        some [some (toJson s.partition), some (toJson s.localNodes), some (toJson s.sharedNodes),
          some (toJson s.elements)] :=
      members?_ofMembers
        [("partition", _), ("local_nodes", _), ("shared_nodes", _), ("elements", _)] (by simp)
    simp [ofJson?, hmembers, required?_toJson h.1, required?_toJson h.2.1,
      required?_toJson h.2.2.1, required?_toJson h.2.2.2]
  fits_of_ofJson? {_ s} h := by
    simp only [ofJson?, Option.bind_eq_bind, Option.bind_eq_some_iff] at h
    obtain ⟨members, -, h⟩ := h
    split at h
    · simp only [Option.bind_eq_some_iff] at h
      obtain ⟨partition, hpartition, localNodes, hlocalNodes, sharedNodes, hsharedNodes, elements,
        helements, h⟩ := h
      cases h
      exact ⟨fits_of_required? hpartition, fits_of_required? hlocalNodes,
        fits_of_required? hsharedNodes, fits_of_required? helements⟩
    · cases h

instance : FaithfulForm NodeList where
  written l := written_ofMembers (by simp [written])
  ofJson?_toJson {l} h := by
    have hmembers : members? ["partition", "elements", "local_nodes", "shared_nodes"] (toJson l) =
        some [some (toJson l.partition), some (toJson l.elements), some (toJson l.localNodes),
          some (toJson l.sharedNodes)] :=
      members?_ofMembers
        [("partition", _), ("elements", _), ("local_nodes", _), ("shared_nodes", _)] (by simp)
    simp [ofJson?, hmembers, required?_toJson h.1, required?_toJson h.2.1,
      required?_toJson h.2.2.1, required?_toJson h.2.2.2]
  fits_of_ofJson? {_ l} h := by
    simp only [ofJson?, Option.bind_eq_bind, Option.bind_eq_some_iff] at h
    obtain ⟨members, -, h⟩ := h
    split at h
    · simp only [Option.bind_eq_some_iff] at h
      obtain ⟨partition, hpartition, elements, helements, localNodes, hlocalNodes, sharedNodes,
        hsharedNodes, h⟩ := h
      cases h
      exact ⟨fits_of_required? hpartition, fits_of_required? helements,
        fits_of_required? hlocalNodes, fits_of_required? hsharedNodes⟩
    · cases h

instance : FaithfulForm Config where
  written c := written_ofMembers (by simp [written])
  ofJson?_toJson {c} h := by
    have hmembers : members? ["n_parts", "closure"] (toJson c) =
        some [some (toJson c.partCount), some (toJson c.closure)] :=
      members?_ofMembers [("n_parts", _), ("closure", _)] (by simp)
    simp [ofJson?, hmembers, required?_toJson (a := c.partCount) h,
      withDefault?_toJson (a := c.closure) trivial]
  fits_of_ofJson? {_ c} h := by
    simp only [ofJson?, Option.bind_eq_bind, Option.bind_eq_some_iff] at h
    obtain ⟨members, -, h⟩ := h
    split at h
    · simp only [Option.bind_eq_some_iff] at h
      obtain ⟨partCount, hpartCount, _, -, h⟩ := h
      cases h
      exact fits_of_required? (a := partCount) hpartCount
    · cases h

namespace Json

/-- All tables are written as compact texts and read back from them, and every text of a table can
be brought to the form in which that table is written. -/
theorem roundTrips_tables :
    RoundTrips Config ∧ RoundTrips ClosureReport ∧ RoundTrips Classification ∧
      RoundTrips Assignment ∧ RoundTrips Summary ∧ RoundTrips NodeList ∧ RoundTrips Constraint :=
  ⟨roundTrips, roundTrips, roundTrips, roundTrips, roundTrips, roundTrips, roundTrips⟩

/-- Settings with an unknown member, with blanks, and without a closure mode. -/
def looseSettings : String := "\x7b \"note\": [1.5e3, null], \"n_parts\": 4 \x7d"

/-- The same settings as they are written. -/
def compactSettings : String := "\x7b\"n_parts\":4,\"closure\":\"fixed-point\"\x7d"

/-- A node list with the largest numbers there are and with empty sets. -/
def largestNumbers : NodeList where
  partition := UInt64.size - 1
  elements := []
  localNodes := ∅
  sharedNodes := (∅ : IndexMap IndexSet).insert (UInt64.size - 1) ∅

theorem roundTrips_tables_extremes :
    (read? (write largestNumbers) = some largestNumbers) ∧
      rewrite? Config looseSettings = some compactSettings ∧
      read? compactSettings = some (⟨4, .fixedPoint⟩ : Config) ∧
      rewrite? Config compactSettings = some compactSettings := by
  obtain ⟨hconfig, -, -, -, -, hlist, -⟩ := roundTrips_tables
  have hlargest : Fits (UInt64.size - 1) := (by decide : UInt64.size - 1 < UInt64.size)
  have hfits : Fits largestNumbers :=
    ⟨hlargest, fun _ h => absurd h List.not_mem_nil, fun _ h => absurd h List.not_mem_nil,
      List.forall_mem_singleton.2 ⟨hlargest, fun _ h => absurd h List.not_mem_nil⟩⟩
  have hloose : read? looseSettings = some (⟨4, .fixedPoint⟩ : Config) := by decide +kernel
  have hcompact : rewrite? Config looseSettings = some compactSettings := by decide +kernel
  obtain ⟨t, ht, hread⟩ := hconfig.rewrite hloose
  cases hcompact.symm.trans ht
  exact ⟨hlist.read_write hfits, hcompact, hread⟩

end Json

end MeshPartition
