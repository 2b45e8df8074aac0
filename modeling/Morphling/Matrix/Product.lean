import Morphling.Matrix.Block

/-!
# Block products are products

The answers to the partitions of a product `A * Bᵀ`, written into the output in any order, give the
product (`blockMatMul_correct`).

Every answer writes the final value of each cell of its block (`applyAnswer_agrees`): the value of
cell `q` of the output is `Operands.value q`, the same for every partition. So the order of the
answers does not matter (`Buffer.foldlM_agrees`), and it is enough that the blocks cover the
output (`Operands.exists_covering`).
-/

namespace Morphling

open Index List Tensor

/-! ## One block -/

variable {b r c pivot : Nat}

/-- The copy loop writes the rows of `mat` into the target: cells that had their value keep it. -/
theorem indexPutMatrixBlock_agrees {β : Type*} {target : Tensor β} (mat : Tensor β) {L : List Nat}
    {n m nr nc : Nat} (ht : target.sizes = L ++ [n, m]) (hm : mat.sizes = [nr, nc])
    (hr : r * b + nr ≤ n) (hc : c * b + nc ≤ m) (hp : pivot < L.prod) {v : Nat → β}
    (hv : ∀ i < nr, ∀ j < nc,
      mat.data[i * nc + j]? = some (v ((pivot * n + r * b + i) * m + c * b + j))) :
    ∃ t', indexPutMatrixBlock target mat r c pivot b = some t' ∧ t'.sizes = target.sizes ∧
      ∀ q, (∃ i < nr, ∃ j < nc, q = (pivot * n + r * b + i) * m + c * b + j) ∨
        target.data[q]? = some (v q) → t'.data[q]? = some (v q) := by
  have hN : target.sizes.prod = L.prod * n * m := by rw [ht]; simp [Nat.mul_assoc]
  have hmd : mat.data.length = nr * nc := by rw [mat.size_eq, hm]; simp
  have hoff : ∀ i, pivot * n * m * elementSize + r * b * m * elementSize + c * b * elementSize +
      i * m * elementSize = ((pivot * n + r * b + i) * m + c * b) * elementSize := by
    intro i; ring
  have hrow : ∀ i < nr, (pivot * n + r * b + i) * m + m ≤ target.sizes.prod := by
    intro i hi
    rw [hN, ← Nat.succ_mul]
    apply Nat.mul_le_mul_right
    calc pivot * n + r * b + i + 1 ≤ (pivot + 1) * n := by rw [Nat.succ_mul]; omega
      _ ≤ L.prod * n := Nat.mul_le_mul_right _ hp
  obtain ⟨d, hf, hl, hd⟩ := Buffer.foldlM_agrees (fun (d : List β) q => d[q]?)
    (fun d => d.length = target.sizes.prod) v
    (fun i q => ∃ j < nc, q = (pivot * n + r * b + i) * m + c * b + j)
    (indexPutRow mat m (pivot * n * m * elementSize + r * b * m * elementSize + c * b * elementSize))
    (List.range nr) (by
      intro i hi d hd
      have hi : i < nr := mem_range.mp hi
      have hs : i * nc + nc ≤ mat.data.length := by
        rw [hmd, ← Nat.succ_mul]; exact Nat.mul_le_mul_right _ hi
      have ho : (pivot * n + r * b + i) * m + c * b + nc ≤ d.length := by
        rw [hd]; exact Nat.le_trans (by omega) (hrow i hi)
      have hlen : ((mat.data.drop (i * nc)).take nc).length = nc := by simp; omega
      refine ⟨_, ?_, (Buffer.length_splice (by rw [hlen]; exact ho)).trans hd, fun q hq => ?_⟩
      · simp only [indexPutRow, hm, hoff, show colDim [nr, nc] = nc from rfl]
        exact Buffer.memcpy_mul (by decide) hs ho
      · refine Buffer.splice_agrees (by rw [hlen]; exact ho) (fun j hj => ?_) ?_
        · rw [hlen] at hj
          rw [getElem?_take_of_lt hj, getElem?_drop, hv i hi j hj]
        · rw [hlen]
          exact hq.imp (fun ⟨j, hj, e⟩ => ⟨by omega, by omega⟩) id)
    target.data target.size_eq
  refine ⟨⟨target.sizes, d, hl⟩, ?_, rfl, fun q hq => hd q (hq.imp ?_ id)⟩
  · simp only [indexPutMatrixBlock, ht, hm, rowDim_append, colDim_append,
      show rowDim [nr, nc] = nr from rfl, hf, bind, Option.bind_some]
    rw [ht] at hl
    rw [dif_pos hl]
  · rintro ⟨i, hi, j, hj, e⟩
    exact ⟨i, mem_range.mpr hi, j, hj, e⟩

namespace Operands

variable {R : Type*} (o : Operands R)

/-- The value of cell `q` of the output: row `q / cols` of `A` times row `q % cols` of the matrix of
`B` that belongs to it. -/
def value [CommSemiring R] (q : Nat) : R :=
  ∑ k ∈ Finset.range o.h, o.matA.data.getD (q / o.cols * o.h + k) 0 *
    o.matB.data.getD ((o.pivotB (q / o.cols / o.rows) * o.cols + q % o.cols) * o.h + k) 0

/-- Block `(r, c)` of matrix `pivot` covers cell `q`. -/
def Covers (b r c pivot q : Nat) : Prop :=
  q / o.cols / o.rows = pivot ∧ q / o.cols % o.rows / b = r ∧ q % o.cols / b = c

/-- The cell at row `i` and column `j` of a matrix of the batch. -/
theorem cell_div_mod {p i j : Nat} (hi : i < o.rows) (hj : j < o.cols) :
    ((p * o.rows + i) * o.cols + j) / o.cols = p * o.rows + i ∧
      ((p * o.rows + i) * o.cols + j) % o.cols = j ∧ (p * o.rows + i) / o.rows = p := by
  refine ⟨?_, ?_, ?_⟩
  · rw [Nat.mul_comm, Nat.mul_add_div (by omega), Nat.div_eq_of_lt hj, Nat.add_zero]
  · rw [Nat.mul_comm, Nat.mul_add_mod, Nat.mod_eq_of_lt hj]
  · rw [Nat.mul_comm, Nat.mul_add_div (by omega), Nat.div_eq_of_lt hi, Nat.add_zero]

/-- A cell that a block covers, by its row and column in the block. -/
theorem Covers.exists_eq {q : Nat} (hb : 1 ≤ b) (hcov : o.Covers b r c pivot q)
    (hrows : 1 ≤ o.rows) :
    ∃ i < min b (o.rows - r * b), ∃ j < min b (o.cols - c * b),
      q = (pivot * o.rows + r * b + i) * o.cols + c * b + j := by
  obtain ⟨hp, hr, hc⟩ := hcov
  have e1 := Nat.div_add_mod' q o.cols
  have e2 := Nat.div_add_mod' (q / o.cols) o.rows
  have e3 := Nat.div_add_mod' (q / o.cols % o.rows) b
  have e4 := Nat.div_add_mod' (q % o.cols) b
  have l1 := Nat.mod_lt q o.cols_pos
  have l2 := Nat.mod_lt (q / o.cols) hrows
  have l3 := Nat.mod_lt (q / o.cols % o.rows) hb
  have l4 := Nat.mod_lt (q % o.cols) hb
  rw [hp] at e2
  rw [hr] at e3
  rw [hc] at e4
  refine ⟨q / o.cols % o.rows % b, by omega, q % o.cols % b, by omega, ?_⟩
  rw [Nat.add_assoc _ (r * b), e3, e2, Nat.add_assoc, e4, e1]

/-- The answer to a partition writes the final values of its block. -/
theorem applyAnswer_agrees [CommSemiring R] [DecidableEq R] (uuid64 : Nat) (hb : 1 ≤ b)
    (hr : r < numBlocks o.rows b) (hc : c < numBlocks o.cols b) (hp : pivot < o.lead.prod)
    {target : Tensor (Option R)} (ht : target.sizes = o.lead ++ [o.rows, o.cols]) :
    ∃ t', applyAnswer o.matA o.matB b target
        { calculateMatrixPartition o.matA o.matB r c pivot b with version := uuid64 } = some t' ∧
      t'.sizes = target.sizes ∧
      ∀ q, o.Covers b r c pivot q ∨ target.data[q]? = some (some (o.value q)) →
        t'.data[q]? = some (some (o.value q)) := by
  have hrb := mul_lt_of_lt_numBlocks hr
  have hcb := mul_lt_of_lt_numBlocks hc
  have hdel := o.deliver_calculateMatrixPartition uuid64 hr hc hp
  generalize hnr : min b (o.rows - r * b) = nr at hdel
  generalize hnc : min b (o.cols - c * b) = nc at hdel
  generalize hxs : (o.matA.data.drop ((r * b + pivot * o.rows) * o.h)).take (nr * o.h) = xs at hdel
  generalize hys : (o.matB.data.drop ((c * b + o.pivotB pivot * o.cols) * o.h)).take (nc * o.h) = ys
    at hdel
  have hlx : xs.length = nr * o.h := by
    rw [← hxs, length_take, length_drop, o.length_dataA, ← Nat.sub_mul, Nat.min_eq_left]
    apply Nat.mul_le_mul_right
    have : (pivot + 1) * o.rows ≤ o.lead.prod * o.rows := Nat.mul_le_mul_right _ hp
    rw [Nat.succ_mul] at this
    omega
  have hly : ys.length = nc * o.h := by
    rw [← hys, length_take, length_drop, Nat.min_eq_left]
    have h1 := o.pivotB_le hp
    have h2 : (c * b + o.pivotB pivot * o.cols + nc) * o.h ≤ (o.pivotB pivot + 1) * (o.cols * o.h) := by
      rw [← Nat.mul_assoc, Nat.succ_mul]
      exact Nat.mul_le_mul_right _ (by omega)
    rw [Nat.add_mul] at h2
    omega
  obtain ⟨out, hans, hlo, hout⟩ := handlePartition_eq (R := R)
    (p := ⟨uuid64, r, c, pivot, o.h, 0, 0, 0,
      [(xs, nr * o.h * elementSize), (ys, nc * o.h * elementSize)]⟩)
    o.h_pos (by omega) rfl rfl hlx hly
  have hblob : fromBlob out [nr * nc * elementSize / nc / elementSize, nc] =
      some ⟨[nr, nc], out, by simp [hlo]⟩ := by
    have e : nr * nc * elementSize / nc / elementSize = nr := by
      rw [Nat.div_div_eq_div_mul, Nat.mul_assoc, Nat.mul_div_cancel _ (by simp [elementSize]; omega)]
    simp [fromBlob, e, hlo]
  -- The value of a cell of the block, from the rows of the message.
  have hval : ∀ i < nr, ∀ j < nc, out[i * nc + j]? =
      some (some (o.value ((pivot * o.rows + r * b + i) * o.cols + c * b + j))) := by
    intro i hi j hj
    obtain ⟨e1, e2, e3⟩ := o.cell_div_mod (p := pivot) (i := r * b + i) (j := c * b + j)
      (by omega) (by omega)
    rw [hout i hi j hj, value, Nat.add_assoc _ (c * b), Nat.add_assoc _ (r * b), e1, e2, e3]
    congr 2
    refine Finset.sum_congr rfl fun k hk => ?_
    have hk : k < o.h := Finset.mem_range.mp hk
    have hik : i * o.h + k < nr * o.h := by
      calc i * o.h + k < (i + 1) * o.h := by rw [Nat.succ_mul]; omega
        _ ≤ nr * o.h := Nat.mul_le_mul_right _ hi
    have hjk : j * o.h + k < nc * o.h := by
      calc j * o.h + k < (j + 1) * o.h := by rw [Nat.succ_mul]; omega
        _ ≤ nc * o.h := Nat.mul_le_mul_right _ hj
    simp only [getD_eq_getElem?_getD, ← hxs, ← hys, getElem?_take_of_lt hik,
      getElem?_take_of_lt hjk, getElem?_drop]
    congr 3 <;> ring_nf
  obtain ⟨t', hput, hs, hd⟩ := indexPutMatrixBlock_agrees ⟨[nr, nc], out, by simp [hlo]⟩
    (r := r) (c := c) (b := b) (v := fun q => some (o.value q)) ht rfl (by omega) (by omega) hp hval
  refine ⟨t', ?_, hs, fun q hq => hd q (hq.imp (fun h => ?_) id)⟩
  · simp only [applyAnswer, hdel, hans, bind, Option.bind_some, writeAnswer, onComputeComplete]
    rw [if_neg (by omega), hblob]
    exact hput
  · rw [← hnr, ← hnc]
    exact h.exists_eq o hb (by omega)

/-! ## All blocks -/

variable {ps : List (MatrixPartition DataPtr)}

theorem mem_partitions {uuid64 : Nat} (hps : partitionMatrices o.matA o.matB b uuid64 = some ps)
    {p : MatrixPartition DataPtr} :
    p ∈ ps ↔ ∃ r < numBlocks o.rows b, ∃ c < numBlocks o.cols b, ∃ pivot < o.lead.prod,
      p = { calculateMatrixPartition o.matA o.matB r c pivot b with version := uuid64 } := by
  rw [o.partitionMatrices_eq] at hps
  obtain rfl := Option.some.inj hps
  simp only [mem_flatMap, mem_range, mem_map, eq_comm]

/-- Every cell of the output is in the block of a partition. -/
theorem exists_covering {uuid64 : Nat} (hb : 1 ≤ b)
    (hps : partitionMatrices o.matA o.matB b uuid64 = some ps) {q : Nat}
    (hq : q < o.lead.prod * o.rows * o.cols) : ∃ p ∈ ps, o.Covers b p.row p.col p.pivot q := by
  have hrow : q / o.cols < o.lead.prod * o.rows := Nat.div_lt_of_lt_mul (by rwa [Nat.mul_comm])
  have hrows : 0 < o.rows := Nat.pos_of_ne_zero (by rintro h; simp [h] at hrow)
  refine ⟨_, (o.mem_partitions hps).mpr ⟨q / o.cols % o.rows / b, ?_, q % o.cols / b, ?_,
    q / o.cols / o.rows, Nat.div_lt_of_lt_mul (by rwa [Nat.mul_comm]), rfl⟩, rfl, rfl, rfl⟩
  · exact div_lt_numBlocks hb (Nat.mod_lt _ hrows)
  · exact div_lt_numBlocks hb (Nat.mod_lt _ o.cols_pos)

theorem createOutputMatrix_eq : ∃ t, createOutputMatrix o.matA o.matB = some t ∧
    t.sizes = o.lead ++ [o.rows, o.cols] := by
  have hA := o.dimA
  have hB := o.two_le_dimB
  have hAB := o.dimB_le
  simp only [createOutputMatrix, rowDim_matA, rowDim_matB, leading_matA]
  rw [if_neg (by omega)]
  split
  next h =>
    have hL : o.lead = [] := length_eq_zero_iff.mp (by omega)
    exact ⟨_, rfl, by simp [hL]⟩
  next h2 =>
    split
    next => exact ⟨_, rfl, rfl⟩
    next h3 =>
      -- `B` is a batch: it is not shared, and its leading dimensions are those of `A`.
      have hl : leading o.matB.sizes = o.lead := by
        rcases o.sizesB with h | h
        · have h' : o.matB.dim = 2 := by simp [dim, h]
          omega
        · rw [h, leading_append]
      rw [if_neg (by simp [hl])]
      exact ⟨_, rfl, rfl⟩

/-- Row `j` of the operand `B` for the matrix `l` of the batch. -/
def indexB (l : List Nat) (j k : Nat) : List Nat := if o.matB.dim > 2 then l ++ [j, k] else [j, k]

/-- The value of a cell by its multi-index. -/
theorem value_flat [CommSemiring R] {l : List Nat} {i j : Nat} (hl : Valid o.lead l)
    (hi : i < o.rows) (hj : j < o.cols) :
    o.value (flat (o.lead ++ [o.rows, o.cols]) (l ++ [i, j])) =
      ∑ k ∈ Finset.range o.h, o.matA.get (l ++ [i, k]) * o.matB.get (o.indexB l j k) := by
  obtain ⟨e1, e2, e3⟩ := o.cell_div_mod (p := flat o.lead l) hi hj
  rw [flat_append_pair hl.length_eq, value, e1, e2, e3]
  refine Finset.sum_congr rfl fun k hk => ?_
  have hk : k < o.h := Finset.mem_range.mp hk
  have hA : o.matA.get (l ++ [i, k]) = o.matA.data.getD ((flat o.lead l * o.rows + i) * o.h + k) 0 := by
    rw [get_of_valid, o.sizesA, flat_append_pair hl.length_eq]
    rw [o.sizesA, valid_append _ _ hl.length_eq]
    exact ⟨hl, hi, hk, trivial⟩
  have hB : o.matB.get (o.indexB l j k) =
      o.matB.data.getD ((o.pivotB (flat o.lead l) * o.cols + j) * o.h + k) 0 := by
    unfold indexB pivotB
    rcases o.sizesB with h | h
    · rw [if_neg (by simp [dim, h]), if_neg (by simp [dim, h]), get_of_valid, h]
      · simp [flat]
      · rw [h]; exact ⟨hj, hk, trivial⟩
    · by_cases h2 : o.matB.dim > 2
      · rw [if_pos h2, if_pos h2, get_of_valid, h, flat_append_pair hl.length_eq]
        rw [h, valid_append _ _ hl.length_eq]
        exact ⟨hl, hj, hk, trivial⟩
      · -- No leading dimension: the batch has one matrix.
        have hL : o.lead = [] := by
          simp only [dim, h, length_append, length_cons, length_nil] at h2
          exact length_eq_zero_iff.mp (by omega)
        rw [if_neg h2, if_neg h2, get_of_valid, h, hL]
        · simp [flat]
        · rw [h, hL]; exact ⟨hj, hk, trivial⟩
  rw [hA, hB]

end Operands

/-- **Block products are products.** For operands of every shape and every block size, the answers
to the partitions, applied in any order, fill the output with `A * Bᵀ`. -/
theorem blockMatMul_correct {R : Type*} [CommSemiring R] [DecidableEq R] (o : Operands R)
    {blockSize : Nat} (hb : 1 ≤ blockSize) (uuid64 : Nat) :
    ∃ ps target, partitionMatrices o.matA o.matB blockSize uuid64 = some ps ∧
      createOutputMatrix o.matA o.matB = some target ∧
      ∀ order : List (MatrixPartition DataPtr), order.Perm ps →
        ∃ out, order.foldlM (applyAnswer o.matA o.matB blockSize) target = some out ∧
          out.sizes = o.lead ++ [o.rows, o.cols] ∧
          (∀ l i j, Valid o.lead l → i < o.rows → j < o.cols → out.get? (l ++ [i, j]) = some (some
            (∑ k ∈ Finset.range o.h, o.matA.get (l ++ [i, k]) * o.matB.get (o.indexB l j k)))) ∧
          ∀ x ∈ out.data, x ≠ none := by
  obtain ⟨target, htgt, hts⟩ := o.createOutputMatrix_eq
  refine ⟨_, target, o.partitionMatrices_eq blockSize uuid64, htgt, fun order hperm => ?_⟩
  have hmem := fun p => o.mem_partitions (o.partitionMatrices_eq blockSize uuid64) (p := p)
  obtain ⟨out, hf, hs, hv⟩ := Buffer.foldlM_agrees (fun (t : Tensor (Option R)) q => t.data[q]?)
    (fun t => t.sizes = o.lead ++ [o.rows, o.cols]) (fun q => some (o.value q))
    (fun (p : MatrixPartition DataPtr) q => o.Covers blockSize p.row p.col p.pivot q)
    (applyAnswer o.matA o.matB blockSize) order (by
      intro p hp t ht
      obtain ⟨r, hr, c, hc, pivot, hpv, rfl⟩ := (hmem p).mp (hperm.mem_iff.mp hp)
      obtain ⟨t', h1, h2, h3⟩ := o.applyAnswer_agrees uuid64 hb hr hc hpv ht
      exact ⟨t', h1, h2.trans ht, h3⟩)
    target hts
  have hcell : ∀ q < out.data.length, out.data[q]? = some (some (o.value q)) := by
    intro q hq
    rw [out.size_eq, hs] at hq
    obtain ⟨p, hp, hcov⟩ := o.exists_covering hb (o.partitionMatrices_eq blockSize uuid64)
      (q := q) (by simpa [Nat.mul_assoc] using hq)
    exact hv q (.inl ⟨p, hperm.mem_iff.mpr hp, hcov⟩)
  refine ⟨out, hf, hs, fun l i j hl hi hj => ?_, fun x hx => ?_⟩
  · have hvalid : Valid out.sizes (l ++ [i, j]) := by
      rw [hs, valid_append _ _ hl.length_eq]; exact ⟨hl, hi, hj, trivial⟩
    rw [get?_of_valid hvalid, hcell _ (by rw [out.size_eq]; exact flat_lt hvalid), hs,
      o.value_flat hl hi hj]
  · obtain ⟨q, hq, rfl⟩ := mem_iff_getElem.mp hx
    have := hcell q hq
    rw [getElem?_eq_getElem hq] at this
    rw [Option.some.inj this]
    simp

/-- A batch of two matrices of three rows, with one shared `B`. -/
def sampleOperands : Operands Nat where
  matA := ⟨[2, 3, 2], List.range 12, rfl⟩
  matB := ⟨[2, 2], [1, 2, 3, 4], rfl⟩
  lead := [2]
  rows := 3
  cols := 2
  h := 2
  sizesA := rfl
  sizesB := .inl rfl
  pos := by decide

theorem blockMatMul_sample : ∃ ps target out,
    partitionMatrices sampleOperands.matA sampleOperands.matB 2 7 = some ps ∧
      createOutputMatrix sampleOperands.matA sampleOperands.matB = some target ∧
      ps.reverse.foldlM (applyAnswer sampleOperands.matA sampleOperands.matB 2) target = some out ∧
      out.get? [1, 2, 1] = some (some (10 * 3 + 11 * 4)) := by
  obtain ⟨ps, target, hps, ht, h⟩ := blockMatMul_correct sampleOperands (show 1 ≤ 2 by decide) 7
  obtain ⟨out, hf, -, hv, -⟩ := h ps.reverse ps.reverse_perm
  exact ⟨ps, target, out, hps, ht, hf, hv [1] 2 1 (by decide) (by decide) (by decide)⟩

end Morphling
