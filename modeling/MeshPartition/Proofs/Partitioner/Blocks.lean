import MeshPartition.Proofs.Partitioner
import Mathlib.Algebra.Order.Floor.Div

/-!
# Equal blocks

Cut into `k` parts, `n` elements are numbered through block by block: part `i` has the elements from
`n * i / k` up to the one before `n * (i + 1) / k`. On the dual graph of a mesh this always
succeeds, and the sizes of the parts are the quotient of `n` by `k` rounded down or up
(`Partitioner.block_partition_inBlocks`).

The formula for the part of an element says in whose block it lies (`blockOf_eq_iff`). The loop that
fills in the parts has after `i` blocks the entries of the elements before the next block
(`foldlM_fillBlock_eq_some`), as each block adds those of its own elements
(`padTo_map_blockOf`). After all blocks these are the entries of all elements, whether or not some
of the blocks are empty.
-/

namespace MeshPartition

/-- The elements of an assignment are given to the parts in blocks of equal sizes. -/
structure Assignment.InBlocks (a : Assignment) (n k : ℕ) : Prop where
  partCount_eq : a.partCount = k
  /-- There is an entry for each element. -/
  length_parts : a.parts.length = n
  /-- The part of an element is the only one in whose block it lies. -/
  entry : ∀ e < n, ∃ i < k, a.parts[e]? = some i ∧
    ∀ j, n * j / k ≤ e ∧ e < n * (j + 1) / k ↔ j = i
  ascending : a.parts.Pairwise (· ≤ ·)
  /-- The sizes of the parts differ by at most one. -/
  size : ∀ i < k, (a.elementsOf i).length = n / k ∨ (a.elementsOf i).length = n ⌈/⌉ k

namespace Partitioner

variable {n k i e : ℕ}

/-! ## Where blocks start and end -/

/-- A block ends where it starts or later. -/
theorem mul_div_le_succ (n k i : ℕ) : n * i / k ≤ n * (i + 1) / k :=
  Nat.div_le_div_right (Nat.mul_le_mul_left n (Nat.le_succ i))

/-- No block goes past the last element. -/
theorem mul_div_le (hi : i ≤ k) : n * i / k ≤ n :=
  Nat.div_le_of_le_mul (Nat.mul_comm k n ▸ Nat.mul_le_mul_left n hi)

/-- An element lies before a block if its part comes before it. -/
theorem blockOf_lt_iff (hk : 0 < k) (he : e < n) : blockOf n k e < i ↔ e < n * i / k := by
  have hpos : 0 < k * (e + 1) := Nat.mul_pos hk (Nat.succ_pos e)
  calc blockOf n k e < i
      ↔ k * (e + 1) - 1 < i * n := Nat.div_lt_iff_lt_mul (Nat.zero_lt_of_lt he)
    _ ↔ (e + 1) * k ≤ n * i := by
        rw [Nat.mul_comm i n, Nat.mul_comm (e + 1) k]
        omega
    _ ↔ e < n * i / k := (Nat.le_div_iff_mul_le hk).symm

/-- The part of an element is the one in whose block it lies. -/
theorem blockOf_eq_iff (hk : 0 < k) (he : e < n) :
    blockOf n k e = i ↔ n * i / k ≤ e ∧ e < n * (i + 1) / k := by
  have hstart := blockOf_lt_iff (i := i) hk he
  have hend := blockOf_lt_iff (i := i + 1) hk he
  omega

/-- The part of an element exists. -/
theorem blockOf_lt (hk : 0 < k) (he : e < n) : blockOf n k e < k := by
  rw [blockOf_lt_iff hk he, Nat.mul_div_cancel n hk]
  exact he

/-- Later elements have no earlier parts. -/
theorem blockOf_mono (n k : ℕ) {e₁ e₂ : ℕ} (h : e₁ ≤ e₂) : blockOf n k e₁ ≤ blockOf n k e₂ :=
  Nat.div_le_div_right (Nat.sub_le_sub_right (Nat.mul_le_mul_left k (Nat.succ_le_succ h)) 1)

/-- The size of a block is the quotient of the sizes, rounded down or up. -/
theorem mul_succ_div_sub (hk : 0 < k) :
    n * (i + 1) / k - n * i / k = n / k ∨ n * (i + 1) / k - n * i / k = n ⌈/⌉ k := by
  have hpred : k - 1 < k := Nat.sub_lt hk Nat.one_pos
  have hrest : n * i % k < k := Nat.mod_lt _ hk
  have hsucc : n * (i + 1) / k =
      n * i / k + n / k + if k ≤ n * i % k + n % k then 1 else 0 := by
    rw [Nat.mul_succ, Nat.add_div hk]
  have hceil : n ⌈/⌉ k = n / k + if k ≤ n % k + (k - 1) then 1 else 0 := by
    rw [Nat.ceilDiv_eq_add_pred_div, Nat.add_sub_assoc hk, Nat.add_div hk, Nat.div_eq_of_lt hpred,
      Nat.mod_eq_of_lt hpred, Nat.add_zero]
  rw [hsucc, hceil]
  by_cases hcarry : k ≤ n * i % k + n % k
  · -- The remainders can only carry if that of `n` is not zero.
    have hround : k ≤ n % k + (k - 1) := by omega
    rw [if_pos hcarry, if_pos hround, Nat.add_assoc, Nat.add_sub_cancel_left]
    exact Or.inr rfl
  · rw [if_neg hcarry, Nat.add_zero, Nat.add_sub_cancel_left]
    exact Or.inl rfl

/-! ## Filling in the blocks -/

/-- Multiplying succeeds if the product fits. -/
theorem product?_eq_some {a b : ℕ} (h : a * b < UInt64.size) : product? a b = some (a * b) :=
  if_pos h

/-- Padding appends what is missing. -/
theorem padTo_eq_append (part wanted : ℕ) (parts : List ℕ) :
    padTo part wanted parts = parts ++ List.replicate (wanted - parts.length) part := by
  fun_induction padTo part wanted parts with
  | case1 parts hlt ih =>
    have hmissing : wanted - parts.length = wanted - (parts ++ [part]).length + 1 := by
      rw [List.length_append, List.length_singleton]
      omega
    rw [ih, List.append_assoc, hmissing, List.replicate_succ, List.singleton_append]
  | case2 parts hge =>
    rw [Nat.sub_eq_zero_of_le (Nat.le_of_not_lt hge), List.replicate_zero, List.append_nil]

/-- The entries of the elements before a block become those before the next one. -/
theorem padTo_map_blockOf (hi : i < k) :
    padTo i (n * (i + 1) / k) ((List.range (n * i / k)).map (blockOf n k)) =
      (List.range (n * (i + 1) / k)).map (blockOf n k) := by
  have hk : 0 < k := Nat.zero_lt_of_lt hi
  have hend : n * (i + 1) / k ≤ n := mul_div_le hi
  obtain ⟨size, hsize⟩ := Nat.exists_eq_add_of_le (mul_div_le_succ n k i)
  have hblock : (List.range size).map (blockOf n k ∘ (n * i / k + ·)) =
      List.replicate size i := by
    refine List.eq_replicate_iff.2 ⟨by rw [List.length_map, List.length_range], fun p hp => ?_⟩
    obtain ⟨x, hx, rfl⟩ := List.mem_map.1 hp
    have hlt := List.mem_range.1 hx
    show blockOf n k (n * i / k + x) = i
    exact (blockOf_eq_iff hk (by omega)).2 ⟨Nat.le_add_right _ _, by omega⟩
  rw [padTo_eq_append, List.length_map, List.length_range, hsize, Nat.add_sub_cancel_left,
    List.range_add, List.map_append, List.map_map, hblock]

/-- After some blocks there are the entries of the elements before the next one. -/
theorem foldlM_fillBlock_eq_some (hfits : n * k < UInt64.size) (hi : i ≤ k) :
    (List.range i).foldlM (fillBlock n k) [] =
      some ((List.range (n * i / k)).map (blockOf n k)) := by
  induction i with
  | zero =>
    rw [Nat.mul_zero, Nat.zero_div]
    rfl
  | succ i ih =>
    have hproduct : n * (i + 1) < UInt64.size := Nat.lt_of_le_of_lt (Nat.mul_le_mul_left n hi) hfits
    have hstep : fillBlock n k ((List.range (n * i / k)).map (blockOf n k)) i =
        some ((List.range (n * (i + 1) / k)).map (blockOf n k)) := by
      rw [fillBlock, product?_eq_some hproduct]
      exact congrArg some (padTo_map_blockOf hi)
    rw [List.range_succ, List.foldlM_append, ih (Nat.le_of_succ_le hi)]
    show List.foldlM (fillBlock n k) _ [i] = _
    rw [List.foldlM_cons, hstep]
    rfl

/-- Filling in all blocks gives the part of each element. -/
theorem fillBlocks_eq_some (hk : 0 < k) (hfits : n * k < UInt64.size) :
    fillBlocks n k = some ((List.range n).map (blockOf n k)) := by
  rw [fillBlocks, foldlM_fillBlock_eq_some hfits (Nat.le_refl k), Nat.mul_div_cancel n hk]

/-! ## The parts -/

/-- The entry of an element. -/
theorem getElem?_map_blockOf :
    ((List.range n).map (blockOf n k))[e]? = some i ↔ e < n ∧ blockOf n k e = i := by
  rw [List.getElem?_map, Option.map_eq_some_iff]
  constructor
  · rintro ⟨e', he', rfl⟩
    obtain ⟨he, rfl⟩ := List.getElem?_eq_some_iff.1 he'
    rw [List.length_range] at he
    rw [List.getElem_range]
    exact ⟨he, rfl⟩
  · rintro ⟨he, rfl⟩
    exact ⟨e, List.getElem?_range he, rfl⟩

/-- A part has the elements of its block. -/
theorem elementsOf_map_blockOf (hi : i < k) :
    Assignment.elementsOf ⟨(List.range n).map (blockOf n k), k⟩ i =
      List.range' (n * i / k) (n * (i + 1) / k - n * i / k) := by
  have hk : 0 < k := Nat.zero_lt_of_lt hi
  have hstart : n * i / k ≤ n * (i + 1) / k := mul_div_le_succ n k i
  have hend : n * (i + 1) / k ≤ n := mul_div_le hi
  refine IndexSet.eq_of_mem_iff_of_sorted (Assignment.sorted_elementsOf _ _)
    List.pairwise_lt_range' fun e => ?_
  rw [Assignment.mem_elementsOf, getElem?_map_blockOf, List.mem_range'_1]
  constructor
  · rintro ⟨he, hblock⟩
    have hbounds := (blockOf_eq_iff hk he).1 hblock
    omega
  · rintro ⟨hle, hlt⟩
    have he : e < n := by omega
    exact ⟨he, (blockOf_eq_iff hk he).2 ⟨hle, by omega⟩⟩

/-- The parts of the elements are blocks. -/
theorem inBlocks_map_blockOf (hk : 0 < k) :
    Assignment.InBlocks ⟨(List.range n).map (blockOf n k), k⟩ n k where
  partCount_eq := rfl
  length_parts := by rw [List.length_map, List.length_range]
  entry e he := by
    refine ⟨_, blockOf_lt hk he, getElem?_map_blockOf.2 ⟨he, rfl⟩, fun j => ?_⟩
    rw [← blockOf_eq_iff hk he, eq_comm]
  ascending := List.pairwise_map.2 <|
    List.pairwise_lt_range.imp fun h => blockOf_mono n k (Nat.le_of_lt h)
  size i hi := by
    rw [elementsOf_map_blockOf hi, List.length_range']
    exact mul_succ_div_sub hk

/-- If the product of the numbers of elements and parts fits in 64 bits, equal blocks succeed on the
dual graph of a mesh. No product that is formed on the way fails to fit, and the list that is filled
in has an entry for each element: the only part in whose block it lies. The entries never decrease,
and the sizes of the parts are equal up to rounding. -/
theorem block_partition_inBlocks (m : Mesh) (hk : 0 < k)
    (hfits : m.elementCount * k < UInt64.size) :
    ∃ graph outcome, DualGraph.ofMesh m (Incidence.ofMesh m) = .ok graph ∧
      graph.vertexCount = m.elementCount ∧ block.partition graph k = .ok outcome ∧
      (∀ i < k, product? m.elementCount (i + 1) = some (m.elementCount * (i + 1))) ∧
      fillBlocks m.elementCount k = some outcome.assignment.parts ∧
      outcome.assignment.InBlocks m.elementCount k := by
  have hcount : (DualGraph.ofRows (DualGraph.rowsOf m)).vertexCount = m.elementCount := by
    rw [DualGraph.vertexCount_ofRows, DualGraph.length_rowsOf]
  have hblocks : Assignment.InBlocks _ m.elementCount k := inBlocks_map_blockOf hk
  have hrange : ∀ q ∈ (List.range m.elementCount).map (blockOf m.elementCount k), q < k := by
    intro q hq
    obtain ⟨e, he, rfl⟩ := List.mem_map.1 hq
    exact blockOf_lt hk (List.mem_range.1 he)
  have hproduct : ∀ i < k, product? m.elementCount (i + 1) = some (m.elementCount * (i + 1)) :=
    fun i hi => product?_eq_some (Nat.lt_of_le_of_lt (Nat.mul_le_mul_left _ hi) hfits)
  obtain ⟨edgeCut, hok⟩ := exists_outcomeOf hk hblocks.length_parts hrange
  refine ⟨_, ⟨edgeCut, _⟩, DualGraph.ofMesh_eq_ok m, hcount, ?_, hproduct,
    fillBlocks_eq_some hk hfits, hblocks⟩
  show (if k = 0 then throw _ else outcomeOf _ _ k) = _
  rw [if_neg (Nat.ne_of_gt hk), hcount]
  exact hok

/-- Three elements in a row, each of which shares a node with the next. -/
def strip : Mesh where
  nodes := [⟨.nth 0, none⟩, ⟨.nth 1, none⟩, ⟨.nth 2, none⟩, ⟨.nth 3, none⟩]
  elements := [⟨.nth 0, [0, 1]⟩, ⟨.nth 1, [1, 2]⟩, ⟨.nth 2, [2, 3]⟩]
  nodeIds_nodup := by decide
  elementIds_nodup := by decide
  node_lt := by decide

/-- The dual graph of `strip`. -/
def stripGraph : DualGraph := ⟨[0, 1, 3, 4], [1, 0, 2, 1]⟩

/-- Two parts have one element and two elements. Of five parts two are left empty. -/
theorem block_partition_inBlocks_strip :
    (block.partition stripGraph 2 = .ok ⟨1, ⟨[0, 1, 1], 2⟩⟩ ∧
      fillBlocks 3 2 = some [0, 1, 1] ∧ Assignment.InBlocks ⟨[0, 1, 1], 2⟩ 3 2) ∧
    block.partition stripGraph 5 = .ok ⟨2, ⟨[1, 3, 4], 5⟩⟩ ∧
      fillBlocks 3 5 = some [1, 3, 4] ∧ Assignment.InBlocks ⟨[1, 3, 4], 5⟩ 3 5 := by
  have hstrip : DualGraph.ofMesh strip (Incidence.ofMesh strip) = .ok stripGraph := rfl
  refine ⟨⟨rfl, ?_⟩, rfl, ?_⟩
  · obtain ⟨graph, outcome, hgraph, -, hok, -, hfill, hblocks⟩ :=
      block_partition_inBlocks strip (k := 2) (by decide) (by decide)
    cases hgraph.symm.trans hstrip
    cases hok
    exact ⟨hfill, hblocks⟩
  · obtain ⟨graph, outcome, hgraph, -, hok, -, hfill, hblocks⟩ :=
      block_partition_inBlocks strip (k := 5) (by decide) (by decide)
    cases hgraph.symm.trans hstrip
    cases hok
    exact ⟨hfill, hblocks⟩

end Partitioner

end MeshPartition
