import MeshPartition.Proofs.Closure.Table
import MeshPartition.Proofs.Incidence
import MeshPartition.NodeList

/-!
# Which nodes a part lists

`Context.exists_nodeList` says that the node list of a part can be built from any tables that belong
together, and what stands in it: the nodes inner to the part are its local nodes, and all other
nodes that the part needs (`IsNeeded`) are its shared nodes, each with the other parts that meet at
it. No step of the construction is left in this description.

Each step of the construction adds nodes to a list, and `NodeList.Extends` says which. What the list
holds after a step is `Context.Lists` for the nodes given so far: `exists_own` is for the first
step, and `Lists.exists_enterShared` for the other two, which only differ in the nodes that they
look for (`Lists.mem_lackingEnds`, `Lists.mem_unlisted`).
-/

namespace MeshPartition

/-! ## Adding to a list -/

namespace NodeList

variable {remote : ℕ → IndexSet} {l l' l'' : NodeList} {n : ℕ}

/-- Every shared node is annotated with the parts that `remote` gives. -/
def Annotated (remote : ℕ → IndexSet) (l : NodeList) : Prop :=
  ∀ n parts, l.sharedNodes.find? n = some parts → parts = remote n

/-- The list `l'` is `l` with more local nodes and more shared nodes, the latter annotated by
`remote`. -/
structure Extends (remote : ℕ → IndexSet) (asLocal asShared : ℕ → Prop) (l l' : NodeList) :
    Prop where
  partition_eq : l'.partition = l.partition
  elements_eq : l'.elements = l.elements
  mem_localNodes : ∀ n, n ∈ l'.localNodes ↔ n ∈ l.localNodes ∨ asLocal n
  mem_sharedNodes : ∀ n, n ∈ l'.sharedNodes.keys ↔ n ∈ l.sharedNodes.keys ∨ asShared n
  annotated : l.Annotated remote → l'.Annotated remote

/-- Two extensions in a row. -/
theorem Extends.trans {L L₁ L₂ S S₁ S₂ : ℕ → Prop} (h₁ : Extends remote L₁ S₁ l l')
    (h₂ : Extends remote L₂ S₂ l' l'') (hL : ∀ n, L n ↔ L₁ n ∨ L₂ n)
    (hS : ∀ n, S n ↔ S₁ n ∨ S₂ n) : Extends remote L S l l'' where
  partition_eq := h₂.partition_eq.trans h₁.partition_eq
  elements_eq := h₂.elements_eq.trans h₁.elements_eq
  mem_localNodes n := by rw [h₂.mem_localNodes, h₁.mem_localNodes, hL, or_assoc]
  mem_sharedNodes n := by rw [h₂.mem_sharedNodes, h₁.mem_sharedNodes, hS, or_assoc]
  annotated h := h₂.annotated (h₁.annotated h)

/-- Listing a local node. -/
theorem extends_addLocal {L S : ℕ → Prop} (l : NodeList) (hL : ∀ x, L x ↔ x = n)
    (hS : ∀ x, ¬ S x) : Extends remote L S l (l.addLocal n) where
  partition_eq := rfl
  elements_eq := rfl
  mem_localNodes x := by
    rw [hL, or_comm]
    exact IndexSet.mem_insert
  mem_sharedNodes x := (or_iff_left (hS x)).symm
  annotated h := h

/-- Listing a shared node with its annotation; a node that has it already keeps it. -/
theorem extends_addShared {L S : ℕ → Prop} (l : NodeList) (hL : ∀ x, ¬ L x)
    (hS : ∀ x, S x ↔ x = n) : Extends remote L S l (l.addShared n (remote n)) where
  partition_eq := rfl
  elements_eq := rfl
  mem_localNodes x := (or_iff_left (hL x)).symm
  mem_sharedNodes x := by
    rw [hS, or_comm]
    exact IndexMap.mem_keys_insert
  annotated h x parts hx := by
    rw [addShared, IndexMap.find?_insert] at hx
    by_cases hxn : x = n
    · subst hxn
      rw [if_pos rfl, Option.some.injEq] at hx
      subst hx
      -- Whatever stood at the node before was the annotation already.
      cases hold : l.sharedNodes.find? x with
      | none => exact IndexSet.ext fun q => by simp
      | some parts =>
        rw [h x parts hold]
        exact IndexSet.ext fun q => by simp
    · rw [if_neg hxn] at hx
      exact h x parts hx

/-- If each node of a list adds itself, as local or as shared according to what holds of it, then
all nodes of the list are added so. -/
theorem foldlM_extends {f : NodeList → ℕ → Except Error NodeList} {L S : ℕ → Prop} {ns : List ℕ}
    (hstep : ∀ n ∈ ns, ∀ l, ∃ l', f l n = .ok l' ∧
      Extends remote (fun x => x = n ∧ L x) (fun x => x = n ∧ S x) l l') (l : NodeList) :
    ∃ l', ns.foldlM f l = .ok l' ∧
      Extends remote (fun x => x ∈ ns ∧ L x) (fun x => x ∈ ns ∧ S x) l l' := by
  induction ns generalizing l with
  | nil =>
    refine ⟨l, rfl, rfl, rfl, fun n => ?_, fun n => ?_, id⟩
    · exact (or_iff_left fun h => List.not_mem_nil h.1).symm
    · exact (or_iff_left fun h => List.not_mem_nil h.1).symm
  | cons n ns ih =>
    obtain ⟨mid, hmid, hfirst⟩ := hstep n List.mem_cons_self l
    obtain ⟨l', hl', hrest⟩ := ih (fun x hx => hstep x (List.mem_cons_of_mem n hx)) mid
    refine ⟨l', ?_, hfirst.trans hrest (fun x => ?_) fun x => ?_⟩
    · rw [List.foldlM_cons, hmid]
      exact hl'
    · rw [List.mem_cons, or_and_right]
    · rw [List.mem_cons, or_and_right]

/-- The ends that a list lacks are the masters of its nodes and the slaves of its local nodes, as
far as they are not local to it themselves. -/
theorem mem_lackingEnds {links : List Link} : n ∈ l.lackingEnds links ↔
    n ∉ l.localNodes ∧
      ((∃ s, ⟨s, n⟩ ∈ links ∧ (s ∈ l.localNodes ∨ s ∈ l.sharedNodes.keys)) ∨
        ∃ m, ⟨n, m⟩ ∈ links ∧ m ∈ l.localNodes) := by
  rw [lackingEnds, IndexSet.mem_ofList, List.mem_filterMap]
  simp only [lacking, isAccessible, isLocal, isShared, Bool.and_eq_true, Bool.or_eq_true,
    decide_eq_true_eq, Bool.not_eq_true', decide_eq_false_iff_not]
  constructor
  · rintro ⟨⟨s, m⟩, hlink, hn⟩
    split at hn
    · rename_i h
      cases hn
      exact ⟨h.2, Or.inl ⟨s, hlink, h.1⟩⟩
    · split at hn
      · rename_i h
        cases hn
        exact ⟨h.2, Or.inr ⟨m, hlink, h.1⟩⟩
      · cases hn
  · rintro ⟨hn, ⟨s, hlink, hs⟩ | ⟨m, hlink, hm⟩⟩
    · exact ⟨⟨s, n⟩, hlink, if_pos ⟨hs, hn⟩⟩
    · -- The master is local, so the first test fails and the second one decides.
      refine ⟨⟨n, m⟩, hlink, ?_⟩
      rw [if_neg fun h => h.2 hm]
      exact if_pos ⟨hm, hn⟩

/-- The unlisted nodes are those that a set gives to the part and that are not listed. -/
theorem mem_unlisted {sets : List IndexSet} : n ∈ l.unlisted sets ↔
    l.partition ∈ sets[n]?.getD ∅ ∧ n ∉ l.localNodes ∧ n ∉ l.sharedNodes.keys := by
  simp only [unlisted, isAccessible, isLocal, isShared, List.mem_map, List.mem_filter,
    List.mem_zipIdx_iff_getElem?, Bool.and_eq_true, decide_eq_true_eq, Bool.not_eq_true',
    Bool.or_eq_false_iff, decide_eq_false_iff_not]
  constructor
  · rintro ⟨⟨s, n⟩, ⟨hs, hp, hn⟩, rfl⟩
    rw [hs]
    exact ⟨hp, hn⟩
  · rintro ⟨hp, hn⟩
    cases hs : sets[n]? with
    | none =>
      rw [hs] at hp
      exact absurd hp (IndexSet.not_mem_empty _)
    | some s =>
      rw [hs] at hp
      exact ⟨(s, n), ⟨hs, hp, hn⟩, rfl⟩

end NodeList

/-! ## The list of a part -/

namespace Context

open NodeList (Extends)

variable {ctx : Context} {p n : ℕ}

/-- The tables that a context puts together. -/
theorem eq_of_ofTables {m : Mesh} {inc : Incidence} {a : Assignment} {c : Classification}
    {deps : DependencyTable} (h : ofTables m inc a c deps = .ok ctx) :
    ctx.mesh = m ∧ ctx.incidence = inc ∧ ctx.assignment = a ∧ ctx.classification = c ∧
      ctx.dependencies = deps := by
  unfold ofTables at h
  split_ifs at h
  cases h
  exact ⟨rfl, rfl, rfl, rfl, rfl⟩

/-- The tables of a context belong together. -/
theorem ofTables_eq (ctx : Context) : ofTables ctx.mesh ctx.incidence ctx.assignment
    ctx.classification ctx.dependencies = .ok ctx := by
  unfold ofTables
  rw [dif_neg (not_not_intro ctx.incidence_size),
    dif_neg (not_not_intro ctx.incidence_elementCount),
    dif_neg (not_not_intro ctx.assignment_size), dif_neg (not_not_intro ctx.classification_size),
    dif_neg (not_not_intro ctx.partitions_length), dif_neg (not_not_intro ctx.dependencies_size)]

/-- Tables of the sizes of a mesh can be put together. -/
theorem exists_ofTables {m : Mesh} {a : Assignment} {c : Classification}
    {deps : DependencyTable} (ha : a.size = m.elementCount) (hc : c.size = m.nodeCount)
    (hsets : c.partitions.length = m.nodeCount) (hdeps : deps.size = m.nodeCount) :
    ∃ ctx, ofTables m (Incidence.ofMesh m) a c deps = .ok ctx :=
  ⟨_, ofTables_eq ⟨m, Incidence.ofMesh m, a, c, deps, Incidence.size_ofMesh m, rfl, ha, hc, hsets,
    hdeps⟩⟩

/-- The parts that meet at a node. -/
def meeting (ctx : Context) (n : ℕ) : IndexSet := ctx.incidence.partSet ctx.assignment n

/-- A node is inner to a part if an element of the part contains it and no other part meets at
it. -/
def IsInner (ctx : Context) (p n : ℕ) : Prop :=
  p ∈ ctx.mesh.incidentParts ctx.assignment n ∧ (ctx.meeting n).erase p = ∅

/-- A part needs a node if one of its elements contains it, if it is a master of such a node, if it
is a slave of a node inner to the part, or if the closed sets give it to the part. -/
def IsNeeded (ctx : Context) (p n : ℕ) : Prop :=
  p ∈ ctx.mesh.incidentParts ctx.assignment n ∨
    (∃ s, n ∈ ctx.dependencies.mastersOf s ∧ p ∈ ctx.mesh.incidentParts ctx.assignment s) ∨
    (∃ m ∈ ctx.dependencies.mastersOf n, ctx.IsInner p m) ∨
    p ∈ ctx.classification.partitions[n]?.getD ∅

/-- What a list of part `p` holds: the part's elements, the nodes inner to the part, and those of
the nodes `given` that are not, each with the other parts that meet there. -/
structure Lists (ctx : Context) (p : ℕ) (given : ℕ → Prop) (l : NodeList) : Prop where
  partition_eq : l.partition = p
  elements_eq : l.elements = ctx.assignment.elementsOf p
  mem_localNodes : ∀ n, n ∈ l.localNodes ↔ ctx.IsInner p n
  mem_sharedNodes : ∀ n, n ∈ l.sharedNodes.keys ↔ given n ∧ ¬ ctx.IsInner p n
  annotated : l.Annotated fun n => (ctx.meeting n).erase p

/-- Which inner nodes are given besides does not matter. -/
theorem Lists.congr {given given' : ℕ → Prop} {l : NodeList} (h : ctx.Lists p given l)
    (hgiven : ∀ n, ¬ ctx.IsInner p n → (given n ↔ given' n)) : ctx.Lists p given' l where
  partition_eq := h.partition_eq
  elements_eq := h.elements_eq
  mem_localNodes := h.mem_localNodes
  mem_sharedNodes n := (h.mem_sharedNodes n).trans (and_congr_left (hgiven n))
  annotated := h.annotated

/-- If the inner nodes are among those given, exactly the nodes given are listed. -/
theorem Lists.listed_iff {given : ℕ → Prop} {l : NodeList} (h : ctx.Lists p given l)
    (hgiven : ctx.IsInner p n → given n) :
    n ∈ l.localNodes ∨ n ∈ l.sharedNodes.keys ↔ given n := by
  rw [h.mem_localNodes, h.mem_sharedNodes]
  by_cases hinner : ctx.IsInner p n
  · exact ⟨fun _ => hgiven hinner, fun _ => Or.inl hinner⟩
  · exact ⟨fun h => (h.resolve_left hinner).1, fun h => Or.inr ⟨h, hinner⟩⟩

/-- Looking up the other parts at a node of the mesh succeeds. -/
theorem remoteParts_eq_ok (hn : n < ctx.mesh.nodeCount) :
    ctx.remoteParts p n = .ok ((ctx.meeting n).erase p) := by
  have hsize : ctx.assignment.size = ctx.incidence.elementCount := by
    rw [ctx.assignment_size, ctx.incidence_elementCount]
  rw [remoteParts, Incidence.partsAt_eq_ok hsize (ctx.incidence_size.symm ▸ hn)]
  rfl

/-- Listing a node of an element of the part. -/
theorem enterNode_extends (hn : n < ctx.mesh.nodeCount) (l : NodeList) :
    ∃ l', ctx.enterNode p l n = .ok l' ∧ Extends (fun x => (ctx.meeting x).erase p)
      (fun x => x = n ∧ (ctx.meeting x).erase p = ∅)
      (fun x => x = n ∧ (ctx.meeting x).erase p ≠ ∅) l l' := by
  refine ⟨_, by rw [enterNode, remoteParts_eq_ok hn]; rfl, ?_⟩
  by_cases hempty : (ctx.meeting n).erase p = ∅
  · -- No other part meets at the node, so it is local.
    rw [if_pos (IndexSet.isEmpty_iff.2 hempty)]
    refine NodeList.extends_addLocal l (fun x => ?_) fun x => ?_
    · exact and_iff_left_of_imp fun hx => hx ▸ hempty
    · exact fun h => h.2 (h.1 ▸ hempty)
  · rw [if_neg fun h => hempty (IndexSet.isEmpty_iff.1 h)]
    refine NodeList.extends_addShared l (fun x => ?_) fun x => ?_
    · exact fun h => hempty (h.1 ▸ h.2)
    · exact and_iff_left_of_imp fun hx => hx ▸ hempty

/-- Listing a node that the part's own elements do not give. -/
theorem enterShared_extends (hn : n < ctx.mesh.nodeCount) (l : NodeList) :
    ∃ l', ctx.enterShared p l n = .ok l' ∧ Extends (fun x => (ctx.meeting x).erase p)
      (fun x => x = n ∧ False) (fun x => x = n ∧ True) l l' := by
  refine ⟨_, by rw [enterShared, remoteParts_eq_ok hn]; rfl, ?_⟩
  exact NodeList.extends_addShared l (fun x h => h.2) fun x => and_iff_left trivial

/-- Collecting the nodes of elements of the mesh succeeds. -/
theorem nodesOf_eq_ok {es : List ℕ} (h : ∀ e ∈ es, e < ctx.mesh.elementCount) :
    ∃ ns, ctx.nodesOf es = .ok ns ∧ ∀ n, n ∈ ns ↔
      ∃ (e : ℕ) (el : Element), e ∈ es ∧ ctx.mesh.elements[e]? = some el ∧ n ∈ el.nodes := by
  induction es with
  | nil => exact ⟨[], rfl, fun n => by simp⟩
  | cons e es ih =>
    have he : e < ctx.mesh.elements.length := h e List.mem_cons_self
    obtain ⟨ns, hns, hmem⟩ := ih fun e' he' => h e' (List.mem_cons_of_mem e he')
    refine ⟨ctx.mesh.elements[e].nodes ++ ns, ?_, fun n => ?_⟩
    · rw [nodesOf, Mesh.element, entryAt_of_lt he, hns]
      rfl
    · rw [List.mem_append, hmem]
      constructor
      · rintro (hn | ⟨e', el, he', hel, hn⟩)
        · exact ⟨e, _, List.mem_cons_self, List.getElem?_eq_getElem he, hn⟩
        · exact ⟨e', el, List.mem_cons_of_mem e he', hel, hn⟩
      · rintro ⟨e', el, he', hel, hn⟩
        rcases List.mem_cons.1 he' with rfl | he'
        · rw [List.getElem?_eq_getElem he, Option.some.injEq] at hel
          exact Or.inl (hel ▸ hn)
        · exact Or.inr ⟨e', el, he', hel, hn⟩

/-- The nodes of the elements of a part are those at which an element of the part stands. -/
theorem nodesOf_elementsOf_eq_ok (ctx : Context) (p : ℕ) :
    ∃ ns, ctx.nodesOf (ctx.assignment.elementsOf p) = .ok ns ∧
      ∀ n, n ∈ ns ↔ p ∈ ctx.mesh.incidentParts ctx.assignment n := by
  have hlt : ∀ e ∈ ctx.assignment.elementsOf p, e < ctx.mesh.elementCount := by
    intro e he
    rw [← ctx.assignment_size]
    exact (List.getElem?_eq_some_iff.1 (Assignment.mem_elementsOf.1 he)).1
  obtain ⟨ns, hns, hmem⟩ := nodesOf_eq_ok hlt
  refine ⟨ns, hns, fun n => (hmem n).trans ?_⟩
  constructor
  · rintro ⟨e, el, he, hel, hn⟩
    exact ⟨e, el, hel, hn, Assignment.mem_elementsOf.1 he⟩
  · rintro ⟨e, el, hel, hn, he⟩
    exact ⟨e, el, Assignment.mem_elementsOf.2 he, hel, hn⟩

/-- The first step gives the nodes of the part's elements. -/
theorem exists_own (ctx : Context) (p : ℕ) :
    ∃ ns own, ctx.nodesOf (ctx.assignment.elementsOf p) = .ok ns ∧
      ns.foldlM (ctx.enterNode p) ⟨p, ctx.assignment.elementsOf p, ∅, ∅⟩ = .ok own ∧
      ctx.Lists p (fun n => p ∈ ctx.mesh.incidentParts ctx.assignment n) own := by
  obtain ⟨ns, hns, hmem⟩ := nodesOf_elementsOf_eq_ok ctx p
  obtain ⟨own, hown, hext⟩ := NodeList.foldlM_extends
    (fun n hn => enterNode_extends (Mesh.lt_of_mem_incidentParts ((hmem n).1 hn)))
    ⟨p, ctx.assignment.elementsOf p, ∅, ∅⟩
  refine ⟨ns, own, hns, hown, hext.partition_eq, hext.elements_eq, fun n => ?_, fun n => ?_,
    hext.annotated ?_⟩
  · rw [hext.mem_localNodes, hmem, IsInner]
    exact or_iff_right (IndexSet.not_mem_empty n)
  · rw [hext.mem_sharedNodes, hmem, IsInner, not_and]
    refine (or_iff_right (IndexSet.not_mem_empty n)).trans ?_
    exact ⟨fun h => ⟨h.1, fun _ => h.2⟩, fun h => ⟨h.1, h.2 h.1⟩⟩
  · intro n parts h
    cases h

/-- Listing nodes that are not inner to the part gives them as well. -/
theorem Lists.exists_enterShared {given : ℕ → Prop} {l : NodeList} {ns : List ℕ}
    (h : ctx.Lists p given l) (hns : ∀ n ∈ ns, n < ctx.mesh.nodeCount ∧ ¬ ctx.IsInner p n) :
    ∃ l', ns.foldlM (ctx.enterShared p) l = .ok l' ∧
      ctx.Lists p (fun n => given n ∨ n ∈ ns) l' := by
  obtain ⟨l', hl', hext⟩ :=
    NodeList.foldlM_extends (fun n hn => enterShared_extends (p := p) (hns n hn).1) l
  simp only [and_false, and_true] at hext
  refine ⟨l', hl', hext.partition_eq.trans h.partition_eq, hext.elements_eq.trans h.elements_eq,
    fun n => ?_, fun n => ?_, hext.annotated h.annotated⟩
  · rw [hext.mem_localNodes, h.mem_localNodes, or_false]
  · rw [hext.mem_sharedNodes, h.mem_sharedNodes, or_and_right]
    exact or_congr_right (iff_self_and.2 fun hn => (hns n hn).2)

/-- The ends of links that are lacking after the first step. -/
theorem Lists.mem_lackingEnds {own : NodeList}
    (h : ctx.Lists p (fun n => p ∈ ctx.mesh.incidentParts ctx.assignment n) own) :
    n ∈ own.lackingEnds ctx.dependencies.links ↔ ¬ ctx.IsInner p n ∧
      ((∃ s, n ∈ ctx.dependencies.mastersOf s ∧ p ∈ ctx.mesh.incidentParts ctx.assignment s) ∨
        ∃ m ∈ ctx.dependencies.mastersOf n, ctx.IsInner p m) := by
  -- The slaves that are listed after the first step are those of the part's elements.
  have hlisted : ∀ s, s ∈ own.localNodes ∨ s ∈ own.sharedNodes.keys ↔
      p ∈ ctx.mesh.incidentParts ctx.assignment s := fun s => h.listed_iff fun hinner => hinner.1
  simp only [NodeList.mem_lackingEnds, DependencyTable.mem_links, hlisted]
  simp only [h.mem_localNodes]

/-- The nodes that the closed sets give in addition. -/
theorem Lists.mem_unlisted {given : ℕ → Prop} {l : NodeList} (h : ctx.Lists p given l) :
    n ∈ l.unlisted ctx.classification.partitions ↔
      p ∈ ctx.classification.partitions[n]?.getD ∅ ∧ ¬ ctx.IsInner p n ∧ ¬ given n := by
  rw [NodeList.mem_unlisted, h.partition_eq, h.mem_localNodes, h.mem_sharedNodes]
  refine and_congr_right fun _ => and_congr_right fun hinner => ?_
  exact not_congr (and_iff_left hinner)

/-- The node list of a part can be built, and it lists the nodes that the part needs. -/
theorem exists_nodeList (ctx : Context) (p : ℕ) :
    ∃ l, ctx.nodeList p = .ok l ∧ ctx.Lists p (ctx.IsNeeded p) l := by
  -- The nodes of the part's elements, which include all inner ones.
  obtain ⟨ns, own, hns, hown, hfirst⟩ := exists_own ctx p
  -- The ends of links that these lack. None of them is inner, since those are listed.
  have hends : ∀ n ∈ (own.lackingEnds ctx.dependencies.links).toList,
      n < ctx.mesh.nodeCount ∧ ¬ ctx.IsInner p n := by
    intro n hn
    obtain ⟨hinner, hlink⟩ := hfirst.mem_lackingEnds.1 hn
    refine ⟨?_, hinner⟩
    rw [← ctx.dependencies_size]
    rcases hlink with ⟨s, hlink, -⟩ | ⟨m, hlink, -⟩
    · exact (ctx.dependencies.fits_links ⟨s, n⟩ (DependencyTable.mem_links.2 hlink)).2
    · exact (ctx.dependencies.fits_links ⟨n, m⟩ (DependencyTable.mem_links.2 hlink)).1
  obtain ⟨linked, hlinked, hsecond⟩ := hfirst.exists_enterShared hends
  -- What the closed sets give and the first two steps have not listed.
  have hrest : ∀ n ∈ linked.unlisted ctx.classification.partitions,
      n < ctx.mesh.nodeCount ∧ ¬ ctx.IsInner p n := by
    intro n hn
    obtain ⟨hclosed, hinner, -⟩ := hsecond.mem_unlisted.1 hn
    refine ⟨?_, hinner⟩
    rw [← ctx.partitions_length]
    by_contra hlt
    rw [List.getElem?_eq_none (Nat.le_of_not_lt hlt)] at hclosed
    exact IndexSet.not_mem_empty p hclosed
  obtain ⟨l, hl, hthird⟩ := hsecond.exists_enterShared hrest
  refine ⟨l, ?_, hthird.congr fun n hinner => ?_⟩
  · rw [nodeList, hns]
    show (ns.foldlM (ctx.enterNode p) _ >>= fun own => _) = _
    rw [hown]
    show ((own.lackingEnds _).toList.foldlM (ctx.enterShared p) own >>= fun linked => _) = _
    rw [hlinked]
    exact hl
  · -- What the first two steps give the third one skips, and the closed sets may name it or not.
    rw [IndexSet.mem_toList, hfirst.mem_lackingEnds, hsecond.mem_unlisted, IndexSet.mem_toList,
      hfirst.mem_lackingEnds, IsNeeded]
    simp only [hinner, not_false_eq_true, true_and]
    grind

/-- The node lists of all parts can be built, and each part has its own at its number. -/
theorem exists_nodeLists (ctx : Context) :
    ∃ lists, ctx.nodeLists = .ok lists ∧ lists.length = ctx.assignment.partCount ∧
      ∀ p < ctx.assignment.partCount, ∃ l, lists[p]? = some l ∧
        ctx.Lists p (ctx.IsNeeded p) l := by
  choose list hlist hlists using ctx.exists_nodeList
  refine ⟨(List.range ctx.assignment.partCount).map list, ?_, ?_, fun p hp => ?_⟩
  · exact mapM_eq_ok fun p _ => hlist p
  · rw [List.length_map, List.length_range]
  · refine ⟨list p, ?_, hlists p⟩
    rw [List.getElem?_map, List.getElem?_range hp]
    rfl

end Context

end MeshPartition
