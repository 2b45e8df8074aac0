import Morphling.Matrix.Tensor
import Morphling.Lib.Buffer

/-!
# Cutting a product into blocks (`matrix_partition.cpp`)

`partitionMatrices A B b` lists the blocks of `A * Bᵀ`: for each block row, block column and matrix
of the batch (`pivot`) one `MatrixPartition`, which points into the two operands. A pointer is an
operand and a byte offset; `deliver` is the message as the device receives it, with the bytes that
the pointers denote.

* `length_cartesianProduct`: one pivot for each matrix of the batch.
* `Operands.partitionMatrices_eq`: the partitions are exactly the triples `(row, col, pivot)` in
  range.
* `Operands.deliver_calculateMatrixPartition`: both ranges lie in their operands, and hold the rows
  of the block.

Indices and byte counts are natural numbers: they count bytes of tensors in memory.
-/

namespace Morphling

open Index List

/-- `element_size()` and `sizeof(float)`: the tensors are `float32`. -/
def elementSize : Nat := 4

/-- The operand that a pointer of a partition points into. -/
inductive Operand where
  | a
  | b
  deriving DecidableEq, Repr

/-- `data_ptr()` of an operand plus a byte offset. -/
structure DataPtr where
  operand : Operand
  off : Nat
  deriving DecidableEq, Repr

/-- One block of a product. `mat` holds the row block and the column block, each a pointer and a
size in bytes; on the device the pointer is the received buffer. -/
structure MatrixPartition (P : Type*) where
  version : Nat
  row : Nat
  col : Nat
  /-- The matrix of the batch. -/
  pivot : Nat
  hDim : Nat
  devId : Int := 0
  oid : Int := 0
  gemmId : Int := 0
  mat : List (P × Nat)

/-- `CartesianProduct` of the ranges below the extents; no extents give no combination. -/
def cartesianProduct (list : List Nat) : List (List Nat) :=
  let ranges := list.map List.range
  if ranges.isEmpty then [] else
    ranges.foldl (fun result range => result.flatMap fun res => range.map fun elem => res ++ [elem])
      [[]]

/-- `CalculateMatrixPartition`. -/
def calculateMatrixPartition {R : Type*} (matA matB : Tensor R) (r c pivot blockSize : Nat) :
    MatrixPartition DataPtr :=
  let inDim := rowDim matA.sizes
  let hDim := colDim matA.sizes
  let outDim := rowDim matB.sizes
  let offsetR := (r * blockSize + pivot * inDim) * hDim * elementSize
  let offsetC := (c * blockSize + (if matB.dim > 2 then pivot else 0) * outDim) * hDim * elementSize
  let sizeR := min blockSize (inDim - r * blockSize) * hDim * elementSize
  let sizeC := min blockSize (outDim - c * blockSize) * hDim * elementSize
  { version := 0, row := r, col := c, hDim := hDim, pivot := pivot
    mat := [(⟨.a, offsetR⟩, sizeR), (⟨.b, offsetC⟩, sizeC)] }

/-- `dim / block_size + (dim % block_size != 0)`. -/
def numBlocks (dim blockSize : Nat) : Nat :=
  dim / blockSize + if dim % blockSize ≠ 0 then 1 else 0

/-- `PartitionMatrices`, with the version that `GenUUID64` gave. It fails where the assertion on the
ranks does, and on operands of rank below 2, whose rows and columns the source would read out of
bounds. -/
def partitionMatrices {R : Type*} (matA matB : Tensor R) (blockSize uuid64 : Nat) :
    Option (List (MatrixPartition DataPtr)) :=
  if 2 ≤ matB.dim ∧ matB.dim ≤ matA.dim then
    let numBlockRows := numBlocks (rowDim matA.sizes) blockSize
    let numBlockCols := numBlocks (rowDim matB.sizes) blockSize
    some <| (List.range numBlockRows).flatMap fun r => (List.range numBlockCols).flatMap fun c =>
      if matA.dim = 2 ∧ matB.dim = 2 then
        [{ calculateMatrixPartition matA matB r c 0 blockSize with version := uuid64 }]
      else
        (cartesianProduct (leading matA.sizes)).mapIdx fun pivot _ =>
          { calculateMatrixPartition matA matB r c pivot blockSize with version := uuid64 }
  else none

/-- The elements of the `size` bytes at a pointer. -/
def readRange {R : Type*} (matA matB : Tensor R) (ptr : DataPtr) (size : Nat) : Option (List R) :=
  match ptr.operand with
  | .a => Buffer.read elementSize matA.data ptr.off size
  | .b => Buffer.read elementSize matB.data ptr.off size

/-- The message as the device receives it: each range of an operand becomes its elements. -/
def deliver {R : Type*} (matA matB : Tensor R) (p : MatrixPartition DataPtr) :
    Option (MatrixPartition (List R)) := do
  let mat ← p.mat.mapM fun e => (readRange matA matB e.1 e.2).map fun xs => (xs, e.2)
  return { p with mat := mat }

/-! ## The leading dimensions -/

/-- The loop of `CartesianProduct` extends each combination found so far by every index of the
remaining extents. -/
theorem foldl_ranges (list : List Nat) (acc : List (List Nat)) :
    (list.map List.range).foldl
      (fun result range => result.flatMap fun res => range.map fun elem => res ++ [elem]) acc =
      acc.flatMap fun res => (indices list).map (res ++ ·) := by
  induction list generalizing acc with
  | nil => simp [indices]
  | cons s ss ih =>
    rw [map_cons, foldl_cons, ih, flatMap_assoc]
    congr 1
    funext res
    simp [indices, flatMap_map, map_flatMap, Function.comp_def]

theorem cartesianProduct_eq_indices {list : List Nat} (h : list ≠ []) :
    cartesianProduct list = indices list := by
  have hr : (list.map List.range).isEmpty = false := by cases list <;> simp_all
  simp [cartesianProduct, hr, foldl_ranges]

theorem length_cartesianProduct {list : List Nat} (h : list ≠ []) :
    (cartesianProduct list).length = list.prod := by
  rw [cartesianProduct_eq_indices h, length_indices]

section
variable {R : Type*} {matA matB : Tensor R} {b uuid64 : Nat} {ps : List (MatrixPartition DataPtr)}
  (hps : partitionMatrices matA matB b uuid64 = some ps) {part : MatrixPartition DataPtr}
  (hp : part ∈ ps)
include hps hp

/-- A partition is `CalculateMatrixPartition` of an index in range. -/
theorem eq_of_mem_partitionMatrices : ∃ r < numBlocks (rowDim matA.sizes) b,
    ∃ c < numBlocks (rowDim matB.sizes) b, ∃ pivot < (leading matA.sizes).prod,
      part = { calculateMatrixPartition matA matB r c pivot b with version := uuid64 } := by
  unfold partitionMatrices at hps
  split at hps
  next hdim =>
    rw [← Option.some.inj hps] at hp
    simp only [mem_flatMap, mem_range] at hp
    obtain ⟨r, hr, c, hc, hp⟩ := hp
    split at hp
    next h2 =>
      have : matA.sizes.length = 2 := h2.1
      exact ⟨r, hr, c, hc, 0, by simp [leading, this], mem_singleton.mp hp⟩
    next h2 =>
      obtain ⟨pivot, hlt, rfl⟩ := mem_mapIdx.mp hp
      have hlead : leading matA.sizes ≠ [] := by
        have : matA.dim = matA.sizes.length := rfl
        rw [← length_pos_iff, leading, length_take]
        omega
      rw [length_cartesianProduct hlead] at hlt
      exact ⟨r, hr, c, hc, pivot, hlt, rfl⟩
  next => cases hps

/-- The partitions of any two operands are in range. -/
theorem mem_partitionMatrices :
    part.row < numBlocks (rowDim matA.sizes) b ∧ part.col < numBlocks (rowDim matB.sizes) b ∧
      part.pivot < (leading matA.sizes).prod := by
  obtain ⟨r, hr, c, hc, pivot, hpivot, rfl⟩ := eq_of_mem_partitionMatrices hps hp
  exact ⟨hr, hc, hpivot⟩

end

/-! ## The blocks of one dimension -/

/-- A block that starts inside the dimension is one of its blocks. -/
theorem div_lt_numBlocks {dim b i : Nat} (hb : 0 < b) (hi : i < dim) : i / b < numBlocks dim b := by
  have h := Nat.div_add_mod dim b
  unfold numBlocks
  rw [Nat.div_lt_iff_lt_mul hb, Nat.add_mul, Nat.mul_comm (dim / b)]
  split
  · have := Nat.mod_lt dim hb; omega
  · omega

/-- Every block of a dimension starts inside it. -/
theorem mul_lt_of_lt_numBlocks {dim b r : Nat} (hr : r < numBlocks dim b) : r * b < dim := by
  have h := Nat.div_add_mod dim b
  rw [Nat.mul_comm] at h
  unfold numBlocks at hr
  rcases Nat.eq_zero_or_pos b with rfl | hb
  · simp at hr h ⊢; split at hr <;> omega
  have hle : r * b ≤ dim / b * b := Nat.mul_le_mul_right _ (by split at hr <;> omega)
  split at hr
  · omega
  · have : (r + 1) * b ≤ dim / b * b := Nat.mul_le_mul_right _ hr
    rw [Nat.succ_mul] at this
    omega

/-! ## The list of partitions -/

variable {R : Type*}

/-- The operands of a product `A * Bᵀ`: `A` has the extents `L, rows, h`, and `B` has `cols, h`,
shared by the batch, or `L, cols, h`. Every extent is positive. -/
structure Operands (R : Type*) where
  matA : Tensor R
  matB : Tensor R
  lead : List Nat
  rows : Nat
  cols : Nat
  h : Nat
  sizesA : matA.sizes = lead ++ [rows, h]
  sizesB : matB.sizes = [cols, h] ∨ matB.sizes = lead ++ [cols, h]
  pos : ∀ s ∈ matA.sizes ++ matB.sizes, 1 ≤ s

namespace Operands

variable (o : Operands R)

theorem dimA : o.matA.dim = o.lead.length + 2 := by simp [Tensor.dim, o.sizesA]

theorem rowDim_matA : rowDim o.matA.sizes = o.rows := by rw [o.sizesA, rowDim_append]

theorem colDim_matA : colDim o.matA.sizes = o.h := by rw [o.sizesA, colDim_append]

theorem leading_matA : leading o.matA.sizes = o.lead := by rw [o.sizesA, leading_append]

theorem rowDim_matB : rowDim o.matB.sizes = o.cols := by
  rcases o.sizesB with h | h <;> rw [h]
  · rfl
  · exact rowDim_append ..

theorem two_le_dimB : 2 ≤ o.matB.dim := by
  rcases o.sizesB with h | h <;> simp [Tensor.dim, h]

theorem dimB_le : o.matB.dim ≤ o.matA.dim := by
  rcases o.sizesB with h | h <;> simp [Tensor.dim, h, o.sizesA]

theorem h_pos : 1 ≤ o.h := o.pos _ (by simp [o.sizesA])

theorem cols_pos : 1 ≤ o.cols := o.pos _ (by rcases o.sizesB with h | h <;> simp [h])

/-- The matrix of `B` that matrix `p` of the batch is multiplied with. -/
def pivotB (p : Nat) : Nat := if o.matB.dim > 2 then p else 0

theorem length_dataA : o.matA.data.length = o.lead.prod * o.rows * o.h := by
  rw [o.matA.size_eq, o.sizesA]; simp [Nat.mul_assoc]

/-- The rows of `B` that a matrix of the batch uses lie in `B`. -/
theorem pivotB_le {p : Nat} (hp : p < o.lead.prod) :
    (o.pivotB p + 1) * (o.cols * o.h) ≤ o.matB.data.length := by
  rw [o.matB.size_eq]
  unfold pivotB
  rcases o.sizesB with h | h
  · simp [Tensor.dim, h]
  · rw [h]
    simp only [prod_append, prod_cons, prod_nil, Nat.mul_one]
    apply Nat.mul_le_mul_right
    split <;> omega

/-- The partitions of a product: every block row, block column and pivot once. -/
theorem partitionMatrices_eq (b uuid64 : Nat) :
    partitionMatrices o.matA o.matB b uuid64 = some
      ((List.range (numBlocks o.rows b)).flatMap fun r =>
        (List.range (numBlocks o.cols b)).flatMap fun c =>
          (List.range o.lead.prod).map fun pivot =>
            { calculateMatrixPartition o.matA o.matB r c pivot b with version := uuid64 }) := by
  rw [partitionMatrices, if_pos ⟨o.two_le_dimB, o.dimB_le⟩, rowDim_matA, rowDim_matB, leading_matA]
  refine congrArg some (flatMap_congr fun r _ => flatMap_congr fun c _ => ?_)
  by_cases hL : o.lead = []
  · have h2 : o.matA.dim = 2 ∧ o.matB.dim = 2 := by
      have := o.dimA; have := o.two_le_dimB; have := o.dimB_le; simp [hL] at *; omega
    rw [if_pos h2, hL]
    rfl
  · have h2 : ¬(o.matA.dim = 2 ∧ o.matB.dim = 2) := by
      rintro ⟨h, -⟩
      rw [dimA] at h
      exact hL (length_eq_zero_iff.mp (by omega))
    rw [if_neg h2]
    apply ext_getElem?
    intro i
    simp only [getElem?_mapIdx, getElem?_map]
    rcases Nat.lt_or_ge i o.lead.prod with hi | hi
    · rw [getElem?_eq_getElem (by rwa [length_cartesianProduct hL]),
        getElem?_range hi]
      rfl
    · rw [getElem?_eq_none (by rwa [length_cartesianProduct hL]),
        getElem?_eq_none (by simpa using hi)]
      rfl

/-- What the message of partition `(r, c, pivot)` holds: the rows of the block, from the matrix
`pivot` of `A` and its matrix of `B`. -/
theorem deliver_calculateMatrixPartition (uuid64 : Nat) {b r c pivot : Nat}
    (hr : r < numBlocks o.rows b) (hc : c < numBlocks o.cols b) (hp : pivot < o.lead.prod) :
    deliver o.matA o.matB
        { calculateMatrixPartition o.matA o.matB r c pivot b with version := uuid64 } = some
      { version := uuid64, row := r, col := c, pivot := pivot, hDim := o.h
        mat := [((o.matA.data.drop ((r * b + pivot * o.rows) * o.h)).take
            (min b (o.rows - r * b) * o.h), min b (o.rows - r * b) * o.h * elementSize),
          ((o.matB.data.drop ((c * b + o.pivotB pivot * o.cols) * o.h)).take
            (min b (o.cols - c * b) * o.h), min b (o.cols - c * b) * o.h * elementSize)] } := by
  have hrb := mul_lt_of_lt_numBlocks hr
  have hcb := mul_lt_of_lt_numBlocks hc
  have hA : (r * b + pivot * o.rows) * o.h + min b (o.rows - r * b) * o.h ≤ o.matA.data.length := by
    rw [← Nat.add_mul, o.length_dataA]
    apply Nat.mul_le_mul_right
    calc r * b + pivot * o.rows + min b (o.rows - r * b) ≤ (pivot + 1) * o.rows := by
          rw [Nat.succ_mul]; omega
      _ ≤ o.lead.prod * o.rows := Nat.mul_le_mul_right _ hp
  have hB : (c * b + o.pivotB pivot * o.cols) * o.h + min b (o.cols - c * b) * o.h ≤
      o.matB.data.length := by
    refine Nat.le_trans ?_ (o.pivotB_le hp)
    rw [← Nat.add_mul, ← Nat.mul_assoc]
    apply Nat.mul_le_mul_right
    rw [Nat.succ_mul]
    omega
  have hw : 0 < elementSize := by decide
  simp only [deliver, calculateMatrixPartition, rowDim_matA, colDim_matA, rowDim_matB,
    mapM_cons, mapM_nil, readRange, Buffer.read_mul hw hA]
  rw [show (if o.matB.dim > 2 then pivot else 0) = o.pivotB pivot from rfl, Buffer.read_mul hw hB]
  rfl

end Operands
end Morphling
