import Morphling.Lib.Broadcast
import Morphling.Lib.Strided
import Morphling.Matrix.Tensor

/-!
# Tensors and operations of PyTorch

The part of PyTorch that the hooks use or replace, as its documentation has it, over a commutative
semiring.

* `StridedTensor`: a layout (extents, strides, offset) and the memory that it points into. `values`
  is what the tensor means; `raw` is what a reader of `data_ptr()` sees that ignores the strides.
* `contiguous`, `transposeLast`, `t`: views and copies.
* `Tensor.matmul`, `Tensor.bmm`, `Tensor.linear`: the operations, `none` where they raise an error
  about shapes. `matmul` has all its cases: vectors on either side, and batches that broadcast.

`raw_contiguous` says what `contiguous()` is for: the reader that ignores strides sees the values.
-/

namespace Morphling

open Index Strided List

/-- The last two entries change places. -/
def swapLast (l : List Nat) : List Nat := leading l ++ [colDim l, rowDim l]

@[simp] theorem swapLast_append (L : List Nat) (m n : Nat) :
    swapLast (L ++ [m, n]) = L ++ [n, m] := by
  simp [swapLast]

/-- Where the entries of a tensor are. -/
structure Layout where
  sizes : List Nat
  strides : List Nat
  offset : Nat := 0
  length_eq : strides.length = sizes.length

namespace Layout

variable (v : Layout)

def dim : Nat := v.sizes.length

/-- `is_contiguous()`. -/
def isContiguous : Bool := Strided.isContiguous v.sizes v.strides

/-- The strides of row-major order. -/
def rowStrides : List Nat → List Nat
  | [] => []
  | _ :: ss => ss.prod :: rowStrides ss

theorem length_rowStrides : ∀ sizes : List Nat, (rowStrides sizes).length = sizes.length
  | [] => rfl
  | _ :: ss => by rw [rowStrides, length_cons, length_cons, length_rowStrides ss]

/-- The layout of a new tensor. -/
def rowMajor (sizes : List Nat) : Layout where
  sizes := sizes
  strides := rowStrides sizes
  length_eq := length_rowStrides sizes

theorem rowMajor_rowStrides : ∀ sizes : List Nat, RowMajor sizes (rowStrides sizes)
  | [], [], _ => rfl
  | _ :: ss, i :: is, h => by rw [rowStrides, dot, flat, rowMajor_rowStrides ss is h.2]

end Layout

structure StridedTensor (R : Type*) extends Layout where
  storage : Nat → R

/-- A tensor with the given layout in the memory `x`. -/
def Layout.tensor {R : Type*} (v : Layout) (x : Nat → R) : StridedTensor R :=
  { v with storage := x }

namespace StridedTensor

variable {R : Type*} (x : StridedTensor R)

/-- The entry at `idx`. -/
def get (idx : List Nat) : R := x.storage (x.offset + dot idx x.strides)

/-- The entries. -/
def values : Tensor R := .ofFn x.sizes x.get

/-- The memory from `data_ptr()` on, read in row-major order of the extents. -/
def raw : Tensor R := .ofFn x.sizes fun idx => x.storage (x.offset + flat x.sizes idx)

/-- A new tensor. -/
def ofTensor [Zero R] (v : Tensor R) : StridedTensor R :=
  (Layout.rowMajor v.sizes).tensor fun n => v.data.getD n 0

/-- `contiguous()`: the tensor itself, or a copy. -/
def contiguous [Zero R] : StridedTensor R := if x.isContiguous then x else ofTensor x.values

/-- `transpose(-2, -1)`. -/
def transposeLast : Option (StridedTensor R) :=
  if 2 ≤ x.dim then
    some { x with
      sizes := swapLast x.sizes
      strides := swapLast x.strides
      length_eq := by simp [swapLast, leading, x.length_eq] }
  else none

/-- `t()`: for a matrix its transpose, for less than that the tensor itself. -/
def t : Option (StridedTensor R) :=
  if x.dim < 2 then some x else if x.dim = 2 then x.transposeLast else none

/-! ### Views and copies -/

@[simp] theorem sizes_values : x.values.sizes = x.sizes := rfl

/-- A reader that ignores the strides of a contiguous tensor sees its values. -/
theorem raw_eq_values {x : StridedTensor R} (h : x.isContiguous = true) : x.raw = x.values :=
  Tensor.ofFn_congr fun idx hv => by
    rw [get, (isContiguous_iff x.length_eq).mp h idx hv]

section Zero
variable {x} [Zero R] {idx : List Nat}

theorem get_values (h : Valid x.sizes idx) : x.values.get idx = x.get idx := Tensor.get_ofFn h

theorem get_raw (h : Valid x.sizes idx) :
    x.raw.get idx = x.storage (x.offset + flat x.sizes idx) := Tensor.get_ofFn h

theorem isContiguous_ofTensor (v : Tensor R) : (ofTensor v).isContiguous = true :=
  (isContiguous_iff (ofTensor v).length_eq).mpr (Layout.rowMajor_rowStrides v.sizes)

theorem values_ofTensor (v : Tensor R) : (ofTensor v).values = v := by
  refine Eq.trans (Tensor.ofFn_congr fun idx hv => ?_) v.ofFn_get
  have hdot : dot idx (Layout.rowStrides v.sizes) = flat v.sizes idx :=
    Layout.rowMajor_rowStrides v.sizes idx hv
  rw [Tensor.get_of_valid hv]
  simp [get, ofTensor, Layout.tensor, Layout.rowMajor, hdot]

@[simp] theorem sizes_contiguous : x.contiguous.sizes = x.sizes := by
  unfold contiguous
  split <;> rfl

theorem isContiguous_contiguous : x.contiguous.isContiguous = true := by
  unfold contiguous
  split
  next h => exact h
  next => exact isContiguous_ofTensor _

theorem values_contiguous : x.contiguous.values = x.values := by
  unfold contiguous
  split
  · rfl
  · exact values_ofTensor _

/-- After `contiguous()`, ignoring the strides does no harm. -/
theorem raw_contiguous : x.contiguous.raw = x.values :=
  (raw_eq_values isContiguous_contiguous).trans values_contiguous

end Zero

/-- What `transpose(-2, -1)` is. -/
theorem transposeLast_eq {x : StridedTensor R} (h : 2 ≤ x.dim) :
    ∃ y, x.transposeLast = some y ∧ y.sizes = swapLast x.sizes ∧
      ∀ l i j, l.length = x.dim - 2 → y.get (l ++ [i, j]) = x.get (l ++ [j, i]) := by
  refine ⟨_, if_pos h, rfl, fun l i j hl => ?_⟩
  have hs : 2 ≤ x.strides.length := by rw [x.length_eq]; exact h
  have hl' : l.length = (leading x.strides).length := by
    rw [hl, leading, length_take, x.length_eq, Layout.dim]
    omega
  have hdot : ∀ a b, dot (l ++ [i, j]) (leading x.strides ++ [a, b]) =
      dot l (leading x.strides) + (i * a + j * b) := fun a b => by
    rw [dot_append _ _ hl']
    rfl
  have hdot' : dot (l ++ [j, i]) x.strides =
      dot l (leading x.strides) + (j * rowDim x.strides + i * colDim x.strides) := by
    rw [eq_leading_append hs, dot_append _ _ (by simpa using hl')]
    simp [dot]
  simp only [get, swapLast]
  rw [hdot, hdot', Nat.add_comm (i * _)]

end StridedTensor

/-! ## Operations -/

namespace Tensor

variable {R : Type*}

/-- The same entries under other extents. -/
def view (x : Tensor R) (sizes : List Nat) : Option (Tensor R) :=
  if h : x.data.length = sizes.prod then some ⟨sizes, x.data, h⟩ else none

/-- `unsqueeze(0)`. -/
def unsqueeze (x : Tensor R) : Tensor R := ⟨1 :: x.sizes, x.data, by simp [x.size_eq]⟩

section Zero
variable [Zero R]

/-- `expand`. -/
def expand (x : Tensor R) (sizes : List Nat) : Option (Tensor R) :=
  if Expandable x.sizes sizes then some (ofFn sizes fun idx => x.get (restrict x.sizes idx))
  else none

/-- `transpose(-2, -1)`. -/
def transposeLast (x : Tensor R) : Option (Tensor R) :=
  if 2 ≤ x.dim then some (ofFn (swapLast x.sizes) fun idx => x.get (swapLast idx)) else none

/-- `t()`. -/
def t (x : Tensor R) : Option (Tensor R) :=
  if x.dim < 2 then some x else if x.dim = 2 then x.transposeLast else none

end Zero

section Ring
variable [CommSemiring R] {L : List Nat} {m n k : Nat} {a b : List Nat → Nat → Nat → R}

/-- The sum of two tensors of the same extents. -/
def add (x y : Tensor R) : Tensor R := ofFn x.sizes fun idx => x.get idx + y.get idx

/-- `sum(0)`. -/
def sum0 (x : Tensor R) : Tensor R :=
  match x.sizes with
  | [] => x
  | s :: ss => ofFn ss fun idx => ∑ i ∈ Finset.range s, x.get (i :: idx)

/-- A batch of products: matrix `l` of the result has the entries of `a l` times `b l`. -/
def product (L : List Nat) (m n k : Nat) (a b : List Nat → Nat → Nat → R) : Tensor R :=
  ofFn (L ++ [m, n]) fun idx =>
    ∑ h ∈ Finset.range k, a (leading idx) (rowDim idx) h * b (leading idx) h (colDim idx)

/-- `torch.matmul`. A vector on the left is a row and a vector on the right is a column, which the
result does not have; the leading extents broadcast. -/
def matmul (a b : Tensor R) : Option (Tensor R) :=
  if a.dim = 0 ∨ b.dim = 0 then none
  else
    let as := if a.dim = 1 then 1 :: a.sizes else a.sizes
    let bs := if b.dim = 1 then b.sizes ++ [1] else b.sizes
    if colDim as ≠ rowDim bs then none
    else
      (broadcast (leading as) (leading bs)).bind fun L =>
        (product L (rowDim as) (colDim bs) (colDim as)
          (fun l i h => a.get (if a.dim = 1 then [h] else restrict (leading as) l ++ [i, h]))
          fun l h j => b.get (if b.dim = 1 then [h] else restrict (leading bs) l ++ [h, j])).view
            (L ++ ((if a.dim = 1 then [] else [rowDim as]) ++
              if b.dim = 1 then [] else [colDim bs]))

/-- `torch.bmm`. -/
def bmm (a b : Tensor R) : Option (Tensor R) :=
  if a.dim = 3 ∧ b.dim = 3 ∧ leading a.sizes = leading b.sizes then matmul a b else none

/-- `torch.nn.functional.linear`: the weight has the extents `[out, in]` and the bias `[out]`, or
the weight has `[in]` and the bias none. -/
def linear (input weight : Tensor R) (bias : Option (Tensor R)) : Option (Tensor R) :=
  weight.t.bind fun w => (matmul input w).bind fun output =>
    match bias with
    | none => some output
    | some b =>
      if b.sizes = weight.sizes.dropLast then (b.expand output.sizes).map output.add else none

/-! ### Facts about them -/

theorem get_product {l : List Nat} {i j : Nat} (hl : Valid L l) (hi : i < m) (hj : j < n) :
    (product L m n k a b).get (l ++ [i, j]) = ∑ h ∈ Finset.range k, a l i h * b l h j := by
  have hv : Valid (L ++ [m, n]) (l ++ [i, j]) :=
    hl.append_pair hi hj
  rw [product, get_ofFn hv, leading_append, rowDim_append, colDim_append]

/-- An index of a batch of matrices: matrix, row, column. -/
theorem exists_of_valid {idx : List Nat} (hv : Valid (L ++ [m, n]) idx) :
    ∃ l i j, idx = l ++ [i, j] ∧ Valid L l ∧ i < m ∧ j < n := by
  have hlen := hv.length_eq
  rw [length_append] at hlen
  have h2 : 2 ≤ idx.length := hlen ▸ Nat.le_add_left 2 _
  have he := eq_leading_append h2
  have hl : (leading idx).length = L.length := by
    rw [leading, length_take, hlen]
    simp
  rw [he] at hv
  obtain ⟨h1, hi, hj, -⟩ := (valid_append _ _ hl).mp hv
  exact ⟨_, _, _, he, h1, hi, hj⟩

theorem product_congr {a' b' : List Nat → Nat → Nat → R}
    (ha : ∀ l i h, Valid L l → i < m → h < k → a l i h = a' l i h)
    (hb : ∀ l h j, Valid L l → h < k → j < n → b l h j = b' l h j) :
    product L m n k a b = product L m n k a' b' := by
  refine ofFn_congr fun idx hv => ?_
  obtain ⟨l, i, j, rfl, hl, hi, hj⟩ := exists_of_valid hv
  rw [leading_append, rowDim_append, colDim_append]
  refine Finset.sum_congr rfl fun h hh => ?_
  rw [ha l i h hl hi (Finset.mem_range.mp hh), hb l h j hl (Finset.mem_range.mp hh) hj]

/-- `matmul` of a batch of matrices with one matrix, or with a batch of the same extents. -/
theorem matmul_eq {a b : Tensor R} (ha : a.sizes = L ++ [m, k])
    (hb : b.sizes = [k, n] ∨ b.sizes = L ++ [k, n]) :
    matmul a b = some (product L m n k (fun l i h => a.get (l ++ [i, h]))
      fun l h j => b.get ((if b.dim = 2 then [] else l) ++ [h, j])) := by
  have hda : a.dim = L.length + 2 := by simp [dim, ha]
  obtain ⟨L', hb', hbr, hr⟩ : ∃ L', b.sizes = L' ++ [k, n] ∧ broadcast L L' = some L ∧
      ∀ l, Valid L l → restrict L' l = if b.dim = 2 then [] else l := by
    rcases hb with hb | hb
    · exact ⟨[], hb, broadcast_nil L, fun l _ => by simp [dim, hb, restrict]⟩
    · refine ⟨L, hb, broadcast_self L, fun l hl => ?_⟩
      rw [restrict_self hl]
      split
      next h =>
        have hL : L = [] := by
          simp only [dim, hb, length_append, length_cons, length_nil] at h
          exact length_eq_zero_iff.mp (by omega)
        subst hL
        exact length_eq_zero_iff.mp hl.length_eq
      next => rfl
  have hdb : b.dim = L'.length + 2 := by simp [dim, hb']
  unfold matmul
  rw [if_neg (by omega)]
  simp only [show ¬ a.dim = 1 by omega, show ¬ b.dim = 1 by omega, if_false, ha, hb', colDim_append,
    rowDim_append, leading_append, ne_eq, not_true, hbr, Option.bind_some]
  have hview : ∀ p : Tensor R, p.sizes = L ++ [m, n] → p.view (L ++ ([m] ++ [n])) = some p := by
    rintro ⟨sizes, data, h⟩ rfl
    exact dif_pos h
  rw [hview _ rfl]
  refine congrArg some (product_congr (fun l i h hl _ _ => ?_) fun l h j hl _ _ => ?_)
  · rw [restrict_self hl]
  · rw [hr l hl]

end Ring

end Tensor
end Morphling
