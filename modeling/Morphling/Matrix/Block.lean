import Morphling.Matrix.Partition
import Morphling.Lib.Gemm

/-!
# A block product, from the device to the output (`proxy_cli.cpp`, `proxy_svr.cpp`)

The device multiplies the two blocks of a message (`handlePartition`) and answers with the product;
the server recovers the block's extents from the answer and copies its rows into the output
(`handleMatMul`).

The device calls a column-major routine: `buildGemmArgs` passes the column block as the transposed
left operand, so that the column-major result is the row-major product of the row block and the
transposed column block (`handlePartition_eq`). `int` casts of the dimensions are left out: a
message carries at most `2 ^ 30` bytes of elements.
-/

namespace Morphling

open Index

variable {R : Type*}

/-! ## The device -/

section Device
variable [CommSemiring R]

/-- `BuildGemmArgs`. -/
def buildGemmArgs (colPtr : List R) (colSize : Nat) (rowPtr : List R) (rowSize hDim : Nat)
    (out : List (Option R)) : Blas.Args R where
  transa := .t
  transb := .n
  m := colSize
  n := rowSize
  k := hDim
  alpha := 1
  beta := 0
  a := colPtr
  lda := hDim
  b := rowPtr
  ldb := hDim
  c := out
  ldc := colSize

/-- `OnComputeComplete`: the answer echoes the partition, with the columns of the block as `h_dim`
and the product as its only matrix. -/
def onComputeComplete {P Q : Type*} (p : MatrixPartition P) (out : Q) (outBytes colSize : Nat) :
    MatrixPartition Q :=
  { p with hDim := colSize, mat := [(out, outBytes)] }

/-- `HandlePartition`: the extents of the blocks come from their byte counts; the output buffer is
not initialised. A division by `h_dim = 0` is an error. -/
def handlePartition [DecidableEq R] (p : MatrixPartition (List R)) :
    Option (MatrixPartition (List (Option R))) :=
  match p.mat with
  | (rPtr, rSize) :: (cPtr, cSize) :: _ =>
    if p.hDim = 0 then none else
      let rowSize := rSize / p.hDim / elementSize
      let colSize := cSize / p.hDim / elementSize
      let outElems := rowSize * colSize
      let outBytes := outElems * elementSize
      (Blas.gemm (buildGemmArgs cPtr colSize rPtr rowSize p.hDim (List.replicate outElems none))).map
        fun out => onComputeComplete p out outBytes colSize
  | _ => none

/-- The answer to a message with `nr` rows and `nc` columns of length `h`: the row-major product. -/
theorem handlePartition_eq [DecidableEq R] {p : MatrixPartition (List R)} {xs ys : List R}
    {nr nc h : Nat} (hh : 1 ≤ h) (hc : 1 ≤ nc) (hp : p.hDim = h)
    (hm : p.mat = [(xs, nr * h * elementSize), (ys, nc * h * elementSize)])
    (hx : xs.length = nr * h) (hy : ys.length = nc * h) :
    ∃ out : List (Option R), handlePartition p =
        some (onComputeComplete p out (nr * nc * elementSize) nc) ∧ out.length = nr * nc ∧
      ∀ i < nr, ∀ j < nc, out[i * nc + j]? = some (some
        (∑ k ∈ Finset.range h, xs.getD (i * h + k) 0 * ys.getD (j * h + k) 0)) := by
  have hdiv : ∀ n, n * h * elementSize / h / elementSize = n := by
    intro n
    rw [Nat.div_div_eq_div_mul, Nat.mul_assoc, Nat.mul_div_cancel _ (by simp [elementSize]; omega)]
  have last : ∀ n k : Nat, n ≠ 0 → (n - 1) * k + k = n * k := by
    intro n k hn
    rw [← Nat.succ_mul, Nat.succ_eq_add_one, Nat.sub_add_cancel (by omega)]
  obtain ⟨out, hg, hl, ho⟩ := Blas.gemm_eq_some
    (g := buildGemmArgs ys nc xs nr h (List.replicate (nr * nc) none))
    ⟨by simp [buildGemmArgs, Blas.stored]; omega, fun hn => by
      simp [buildGemmArgs, Blas.stored, hy, last nc h hn]⟩
    ⟨by simp [buildGemmArgs, Blas.stored]; omega, fun hn => by
      simp [buildGemmArgs, Blas.stored, hx, last nr h hn]⟩
    ⟨by simp [buildGemmArgs]; omega, fun hn => by simp [buildGemmArgs, last nr nc hn]⟩
  refine ⟨out, ?_, by simpa [buildGemmArgs] using hl, fun i hi j hj => ?_⟩
  · simp only [handlePartition, hm, hp, hdiv]
    rw [if_neg (by omega), hg]
    rfl
  · have hlt : i * nc + j < nr * nc := by
      calc i * nc + j < (i + 1) * nc := by rw [Nat.succ_mul]; omega
        _ ≤ nr * nc := Nat.mul_le_mul_right _ hi
    have hmod : (i * nc + j) % nc = j := by
      rw [Nat.mul_comm, Nat.mul_add_mod, Nat.mod_eq_of_lt hj]
    have hdv : (i * nc + j) / nc = i := by
      rw [Nat.mul_comm, Nat.mul_add_div (by omega), Nat.div_eq_of_lt hj, Nat.add_zero]
    rw [ho _ (by simpa [buildGemmArgs] using hlt)]
    simp only [buildGemmArgs, hmod, hdv, hi, hj, and_self, ↓reduceIte, Blas.outEntry, Blas.entry,
      one_mul]
    congr 2
    refine Finset.sum_congr rfl fun k _ => ?_
    rw [mul_comm, Nat.add_comm k, Nat.add_comm k]

end Device

/-! ## The server -/

/-- `torch::from_blob` on the received buffer. -/
def fromBlob {β : Type*} (ptr : List β) (sizes : List Nat) : Option (Tensor β) :=
  if h : sizes.prod ≤ ptr.length then
    some { sizes := sizes, data := ptr.take sizes.prod, size_eq := by simp [h] }
  else none

/-- One iteration of the copy loop of `IndexPutMatrixBlock`: row `i` of `mat`. -/
def indexPutRow {β : Type*} (mat : Tensor β) (outDim targetOffset : Nat) (target : List β)
    (i : Nat) : Option (List β) :=
  let matNCols := colDim mat.sizes
  Buffer.memcpy elementSize target (targetOffset + i * outDim * elementSize) mat.data
    (i * matNCols * elementSize) (matNCols * elementSize)

/-- `IndexPutMatrixBlock`. The copies keep the extents of the target. -/
def indexPutMatrixBlock {β : Type*} (target mat : Tensor β) (r c pivot blockSize : Nat) :
    Option (Tensor β) := do
  let inDim := rowDim target.sizes
  let outDim := colDim target.sizes
  let offsetR := r * blockSize * outDim * elementSize
  let offsetC := c * blockSize * elementSize
  let targetOffset := pivot * inDim * outDim * elementSize + offsetR + offsetC
  let data ← (List.range (rowDim mat.sizes)).foldlM (indexPutRow mat outDim targetOffset) target.data
  if h : data.length = target.sizes.prod then
    some { sizes := target.sizes, data := data, size_eq := h }
  else none

/-- `CreateOutputMatrix`: every element is NaN (`none`). Leading dimensions that differ raise an
error; ranks below 2 are out of bounds in the source. -/
def createOutputMatrix (matA matB : Tensor R) : Option (Tensor (Option R)) :=
  let nan (cShape : List Nat) : Tensor (Option R) :=
    { sizes := cShape, data := List.replicate cShape.prod none, size_eq := by simp }
  let inDim := rowDim matA.sizes
  let outDim := rowDim matB.sizes
  if matA.dim < 2 ∨ matB.dim < 2 then none
  else if matA.dim = 2 ∧ matB.dim = 2 then some (nan [inDim, outDim])
  else if matA.dim > 2 ∧ matB.dim = 2 then some (nan (leading matA.sizes ++ [inDim, outDim]))
  else if leading matA.sizes ≠ leading matB.sizes then none
  else some (nan (leading matA.sizes ++ [inDim, outDim]))

/-- The extents of an output. -/
theorem sizes_of_createOutputMatrix {matA matB : Tensor R} {out : Tensor (Option R)}
    (h : createOutputMatrix matA matB = some out) :
    2 ≤ matA.dim ∧ 2 ≤ matB.dim ∧
      out.sizes = leading matA.sizes ++ [rowDim matA.sizes, rowDim matB.sizes] := by
  unfold createOutputMatrix at h
  split at h
  next => cases h
  next h1 =>
    refine ⟨by omega, by omega, ?_⟩
    split at h
    next h2 =>
      obtain rfl := Option.some.inj h
      have hlead : leading matA.sizes = [] := by
        have : matA.sizes.length = 2 := h2.1
        simp [leading, this]
      simp [hlead]
    next =>
      split at h
      next => rw [← Option.some.inj h]
      next =>
        split at h
        next => cases h
        next => rw [← Option.some.inj h]

/-- The part of `HandleMatMul` that writes the block of an answer into the output: the columns are
`h_dim`, the rows are recovered from the byte count. -/
def writeAnswer {β : Type*} (target : Tensor β) (p : MatrixPartition (List β)) (blockSize : Nat) :
    Option (Tensor β) :=
  match p.mat with
  | (oPtr, oSize) :: _ =>
    if p.hDim = 0 then none else
      let rowSize := oSize / p.hDim / elementSize
      let colSize := p.hDim
      (fromBlob oPtr [rowSize, colSize]).bind fun output =>
        indexPutMatrixBlock target output p.row p.col p.pivot blockSize
  | [] => none

/-- The whole way of a partition: its message, the device's answer, the write into the output. -/
def applyAnswer [CommSemiring R] [DecidableEq R] (matA matB : Tensor R) (blockSize : Nat)
    (target : Tensor (Option R)) (p : MatrixPartition DataPtr) : Option (Tensor (Option R)) := do
  let msg ← deliver matA matB p
  let answer ← handlePartition msg
  writeAnswer target answer blockSize

end Morphling
