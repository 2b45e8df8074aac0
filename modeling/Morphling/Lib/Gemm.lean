import Mathlib.Algebra.BigOperators.Ring.Finset
import Mathlib.Tactic.Ring

/-!
# Column-major matrix multiplication

The operation `C := alpha * op(A) * op(B) + beta * C` of the BLAS interface, over a semiring. A
matrix is a buffer with a leading dimension: entry `(i, j)` is at position `i + j * ld`. A cell of
`C` may be undefined (`none`); it is not read where `beta = 0`.

`gemm` fails where a leading dimension is too small for its matrix or a buffer is too short, the
two things the interface asks of its caller.

A range of columns of `op(X)` is itself a matrix in the rest of the buffer from `colOffset` on
(`entry_drop`, `fits_cols`), so a product can be computed by ranges of columns.

`rowGemm` is the operation on row-major buffers: entry `(i, j)` is at position `i * ld + j`. A buffer
that is read the other way round holds the transposed matrix, so `rowGemm` is `gemm` with the
operands swapped (`rowGemm_eq_gemm`).
-/

namespace Morphling.Blas

open List

/-- `transa`, `transb`: the operand as it is, or transposed. -/
inductive Trans where
  | n
  | t
  deriving DecidableEq, Repr

/-- The arguments of one call. -/
structure Args (R : Type*) where
  transa : Trans
  transb : Trans
  m : Nat
  n : Nat
  k : Nat
  alpha : R
  beta : R
  a : List R
  lda : Nat
  b : List R
  ldb : Nat
  c : List (Option R)
  ldc : Nat

/-- Entry `(i, j)` of `op(X)`, where `X` is stored with leading dimension `ld`. -/
def entry {R : Type*} [Zero R] (tr : Trans) (x : List R) (ld i j : Nat) : R :=
  match tr with
  | .n => x.getD (i + j * ld) 0
  | .t => x.getD (j + i * ld) 0

/-- A stored matrix of `rows × cols` entries fits its leading dimension and its buffer. -/
def Fits (rows cols ld len : Nat) : Prop :=
  max 1 rows ≤ ld ∧ (cols ≠ 0 → (cols - 1) * ld + rows ≤ len)

instance (rows cols ld len : Nat) : Decidable (Fits rows cols ld len) :=
  inferInstanceAs (Decidable (_ ∧ _))

/-- Rows and columns of `X` as it is stored, when `op(X)` is `rows × cols`. -/
def stored (tr : Trans) (rows cols : Nat) : Nat × Nat :=
  match tr with
  | .n => (rows, cols)
  | .t => (cols, rows)

/-! ## Ranges of columns -/

/-- Where column `j` of `op(X)` begins. -/
def colOffset (tr : Trans) (j ld : Nat) : Nat :=
  match tr with
  | .n => j * ld
  | .t => j

@[simp] theorem colOffset_zero (tr : Trans) (ld : Nat) : colOffset tr 0 ld = 0 := by
  cases tr <;> simp [colOffset]

theorem index_lt {i j ld cols : Nat} (hi : i < ld) (hj : j < cols) : i + j * ld < ld * cols :=
  calc i + j * ld < ld + j * ld := Nat.add_lt_add_right hi _
    _ = ld * (j + 1) := by ring
    _ ≤ ld * cols := Nat.mul_le_mul_left _ hj

/-- Only the cells of whole stored columns are read. -/
theorem entry_take {R : Type*} [Zero R] {tr : Trans} {x : List R} {rows cols ld i j : Nat}
    (hld : (stored tr rows cols).1 ≤ ld) (hi : i < rows) (hj : j < cols) :
    entry tr (x.take (ld * (stored tr rows cols).2)) ld i j = entry tr x ld i j := by
  cases tr with
  | n =>
    have := index_lt (Nat.lt_of_lt_of_le hi hld) hj
    simp [entry, stored, getD_eq_getElem?_getD, getElem?_take_of_lt this]
  | t =>
    have := index_lt (Nat.lt_of_lt_of_le hj hld) hi
    simp [entry, stored, getD_eq_getElem?_getD, getElem?_take_of_lt this]

/-- The columns from `j₀` on. -/
theorem entry_drop {R : Type*} [Zero R] (tr : Trans) (x : List R) (j₀ ld i j : Nat) :
    entry tr (x.drop (colOffset tr j₀ ld)) ld i j = entry tr x ld i (j₀ + j) := by
  cases tr with
  | n =>
    simp only [entry, colOffset, getD_eq_getElem?_getD, getElem?_drop]
    rw [show j₀ * ld + (i + j * ld) = i + (j₀ + j) * ld by ring]
  | t =>
    simp only [entry, colOffset, getD_eq_getElem?_getD, getElem?_drop]
    rw [show j₀ + (j + i * ld) = j₀ + j + i * ld by ring]

/-- `cols` columns from `j` on, of the `total` that the buffer has. -/
theorem fits_cols (tr : Trans) {rows cols ld j total : Nat} (hrows : 1 ≤ rows) (hcols : 1 ≤ cols)
    (hld : (stored tr rows total).1 ≤ ld) (h : j + cols ≤ total) :
    Fits (stored tr rows cols).1 (stored tr rows cols).2 ld
      (ld * (stored tr rows total).2 - colOffset tr j ld) := by
  cases tr with
  | n =>
    simp only [stored, colOffset] at hld ⊢
    refine ⟨by omega, fun _ => ?_⟩
    obtain ⟨c, rfl⟩ := Nat.exists_eq_add_of_le hcols
    obtain ⟨d, rfl⟩ := Nat.exists_eq_add_of_le h
    have hmul : ld * (j + (1 + c) + d) = j * ld + c * ld + ld + ld * d := by ring
    rw [hmul, Nat.add_sub_cancel_left]
    omega
  | t =>
    simp only [stored, colOffset] at hld ⊢
    refine ⟨by omega, fun _ => ?_⟩
    obtain ⟨r, rfl⟩ := Nat.exists_eq_add_of_le hrows
    have hmul : ld * (1 + r) = r * ld + ld := by ring
    rw [hmul, Nat.add_sub_cancel_left]
    omega

variable {R : Type*} [CommSemiring R] [DecidableEq R]

/-- Entry `(i, j)` of the result; `old` is the cell of `C`. -/
def outEntry (g : Args R) (i j : Nat) (old : Option R) : Option R :=
  let s := ∑ l ∈ Finset.range g.k,
    entry g.transa g.a g.lda i l * entry g.transb g.b g.ldb l j
  if g.beta = 0 then some (g.alpha * s) else old.map fun c => g.alpha * s + g.beta * c

/-- `C := alpha * op(A) * op(B) + beta * C`. -/
def gemm (g : Args R) : Option (List (Option R)) :=
  let sa := stored g.transa g.m g.k
  let sb := stored g.transb g.k g.n
  if Fits sa.1 sa.2 g.lda g.a.length ∧ Fits sb.1 sb.2 g.ldb g.b.length ∧
      Fits g.m g.n g.ldc g.c.length then
    some (g.c.mapIdx fun p old =>
      if p % g.ldc < g.m ∧ p / g.ldc < g.n then outEntry g (p % g.ldc) (p / g.ldc) old else old)
  else none

/-- The result when the call is legal: the `m × n` entries are computed, the other cells of the
buffer stay. -/
theorem gemm_eq_some {g : Args R}
    (ha : Fits (stored g.transa g.m g.k).1 (stored g.transa g.m g.k).2 g.lda g.a.length)
    (hb : Fits (stored g.transb g.k g.n).1 (stored g.transb g.k g.n).2 g.ldb g.b.length)
    (hc : Fits g.m g.n g.ldc g.c.length) :
    ∃ out, gemm g = some out ∧ out.length = g.c.length ∧ ∀ p (hp : p < g.c.length),
      out[p]? = some (if p % g.ldc < g.m ∧ p / g.ldc < g.n then
        outEntry g (p % g.ldc) (p / g.ldc) g.c[p] else g.c[p]) := by
  refine ⟨_, if_pos ⟨ha, hb, hc⟩, by simp, fun p hp => ?_⟩
  rw [getElem?_mapIdx, getElem?_eq_getElem hp]
  rfl

/-! ## Row-major storage -/

/-- Entry `(i, j)` of `op(X)`, where `X` is stored by rows. -/
def rowEntry {R : Type*} [Zero R] (tr : Trans) (x : List R) (ld i j : Nat) : R :=
  match tr with
  | .n => x.getD (i * ld + j) 0
  | .t => x.getD (j * ld + i) 0

/-- Entry `(i, j)` of the result of `rowGemm`; `old` is the cell of `C`. -/
def rowOutEntry (g : Args R) (i j : Nat) (old : Option R) : Option R :=
  let s := ∑ l ∈ Finset.range g.k,
    rowEntry g.transa g.a g.lda i l * rowEntry g.transb g.b g.ldb l j
  if g.beta = 0 then some (g.alpha * s) else old.map fun c => g.alpha * s + g.beta * c

/-- `C := alpha * op(A) * op(B) + beta * C` on row-major buffers. -/
def rowGemm (g : Args R) : Option (List (Option R)) :=
  let sa := stored g.transa g.m g.k
  let sb := stored g.transb g.k g.n
  if Fits sa.2 sa.1 g.lda g.a.length ∧ Fits sb.2 sb.1 g.ldb g.b.length ∧
      Fits g.n g.m g.ldc g.c.length then
    some (g.c.mapIdx fun p old =>
      if p / g.ldc < g.m ∧ p % g.ldc < g.n then rowOutEntry g (p / g.ldc) (p % g.ldc) old else old)
  else none

/-- The call with the operands and the sides of the result swapped. -/
def Args.swap {R : Type*} (g : Args R) : Args R :=
  { g with
    transa := g.transb, transb := g.transa, m := g.n, n := g.m
    a := g.b, lda := g.ldb, b := g.a, ldb := g.lda }

theorem rowEntry_eq_entry {R : Type*} [Zero R] (tr : Trans) (x : List R) (ld i j : Nat) :
    rowEntry tr x ld i j = entry tr x ld j i := by
  cases tr <;> simp only [rowEntry, entry, Nat.add_comm]

theorem rowOutEntry_eq_outEntry (g : Args R) (i j : Nat) (old : Option R) :
    rowOutEntry g i j old = outEntry g.swap j i old := by
  simp only [rowOutEntry, outEntry, rowEntry_eq_entry, Args.swap, mul_comm]

/-- A row-major product is the column-major product of the transposed matrices. -/
theorem rowGemm_eq_gemm (g : Args R) : rowGemm g = gemm g.swap := by
  have hstored : ∀ tr rows cols, stored tr rows cols = (stored tr cols rows).swap := by
    intro tr rows cols
    cases tr <;> rfl
  have hcond : (Fits (stored g.transa g.m g.k).2 (stored g.transa g.m g.k).1 g.lda g.a.length ∧
      Fits (stored g.transb g.k g.n).2 (stored g.transb g.k g.n).1 g.ldb g.b.length ∧
      Fits g.n g.m g.ldc g.c.length) ↔
      Fits (stored g.transb g.n g.k).1 (stored g.transb g.n g.k).2 g.ldb g.b.length ∧
      Fits (stored g.transa g.k g.m).1 (stored g.transa g.k g.m).2 g.lda g.a.length ∧
      Fits g.n g.m g.ldc g.c.length := by
    rw [hstored g.transa g.m, hstored g.transb g.k]
    exact and_left_comm
  simp only [rowGemm, gemm, hcond, rowOutEntry_eq_outEntry, and_comm (a := _ < g.m)]
  rfl

end Morphling.Blas
