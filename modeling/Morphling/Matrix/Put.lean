import Morphling.Matrix.Block

/-!
# Writing a block at any position (`matrix_partition.cpp`)

`IndexPutMatrixBlock` does not look at the position that it is given, and a device's answer can name
any. This is the function on 64-bit integers, for a block that is a pointer and its extents: offsets
wrap around, and a copy that leaves the output is an error. `writes` records the copies.

* `indexPutBlock_eq_some_iff`: it succeeds where every row lands inside the output.
* `indexPutBlock_of_indexPutMatrixBlock`: at a position in memory it is `indexPutMatrixBlock`.
* `Fits.inBlock`, `fits_of_inBlock`: a block that is written at the position of a partition covers
  only cells of the partition exactly where its extents fit.
-/

namespace Morphling

open List Buffer Option

variable {β : Type*} {i n cols b : Nat} {data : List β} {ws : List (Write β)}
  {target : Tensor β} {r c pivot : Int}

/-- The value of a 64-bit signed integer. -/
def wrap64 (x : Int) : Int := x.bmod (2 ^ 64)

theorem wrap64_of_lt (h : n < 2 ^ 63) : wrap64 n = n := by
  unfold wrap64
  rw [Int.bmod_eq_of_le] <;> omega

/-- `target_row_offset` of row `i`. -/
def targetRowOffset (sizes : List Nat) (r c pivot : Int) (blockSize i : Nat) : Int :=
  let inDim := rowDim sizes
  let outDim := colDim sizes
  let offsetR := r * blockSize * outDim * elementSize
  let offsetC := c * blockSize * elementSize
  let targetOffset := pivot * inDim * outDim * elementSize + offsetR + offsetC
  wrap64 (targetOffset + i * outDim * elementSize)

/-- Row `i` of the block. -/
def blockRow (mat : Nat → β) (matNCols i : Nat) : List β :=
  (List.range matNCols).map fun j => mat (i * matNCols + j)

/-- One iteration of the copy loop. -/
def putRow (mat : Nat → β) (matNCols : Nat) (offset : Nat → Int)
    (s : List β × List (Write β)) (i : Nat) : Option (List β × List (Write β)) :=
  if 0 ≤ offset i then
    (write elementSize s.1 (offset i).toNat (blockRow mat matNCols i)).map fun data =>
      (data, s.2 ++ [((offset i).toNat / elementSize, blockRow mat matNCols i)])
  else none

/-- `IndexPutMatrixBlock` of the `matNRows` by `matNCols` elements at `mat`, and its copies. -/
def indexPutBlock (target : Tensor β) (mat : Nat → β) (matNRows matNCols : Nat) (r c pivot : Int)
    (blockSize : Nat) : Option (Tensor β × List (Write β)) :=
  let offset := targetRowOffset target.sizes r c pivot blockSize
  ((List.range matNRows).foldlM (putRow mat matNCols offset) (target.data, [])).bind fun s =>
    if h : s.1.length = target.sizes.prod then some (⟨target.sizes, s.1, h⟩, s.2) else none

/-! ## The rows -/

/-- The first cell of row `i`. -/
def rowCell (sizes : List Nat) (r c pivot : Int) (blockSize i : Nat) : Nat :=
  (targetRowOffset sizes r c pivot blockSize i).toNat / elementSize

/-- Row `i` lands inside a buffer of `len` cells. -/
def RowInside (sizes : List Nat) (len matNCols : Nat) (r c pivot : Int) (blockSize i : Nat) :
    Prop :=
  0 ≤ targetRowOffset sizes r c pivot blockSize i ∧
    rowCell sizes r c pivot blockSize i + matNCols ≤ len

/-- The copies of the first `n` rows. -/
def rowWrites (sizes : List Nat) (mat : Nat → β) (n matNCols : Nat) (r c pivot : Int)
    (blockSize : Nat) : List (Write β) :=
  (List.range n).map fun i => (rowCell sizes r c pivot blockSize i, blockRow mat matNCols i)

@[simp] theorem length_blockRow (mat : Nat → β) (n i : Nat) : (blockRow mat n i).length = n := by
  simp [blockRow]

/-- Offsets are whole elements. -/
theorem dvd_targetRowOffset (sizes : List Nat) (r c pivot : Int) (b i : Nat) :
    (elementSize : Int) ∣ targetRowOffset sizes r c pivot b i := by
  have hdvd : (elementSize : Int) ∣ pivot * rowDim sizes * colDim sizes * elementSize +
      r * b * colDim sizes * elementSize + c * b * elementSize + i * colDim sizes * elementSize :=
    dvd_add (dvd_add (dvd_add (Dvd.intro_left _ rfl) (Dvd.intro_left _ rfl))
      (Dvd.intro_left _ rfl)) (Dvd.intro_left _ rfl)
  simp only [targetRowOffset, wrap64]
  generalize pivot * rowDim sizes * colDim sizes * elementSize +
    r * b * colDim sizes * elementSize + c * b * elementSize +
      i * colDim sizes * elementSize = x at hdvd
  have := Int.bmod_add_bdiv x (2 ^ 64)
  simp only [elementSize] at hdvd ⊢
  omega

section Rows
variable {sizes : List Nat} {mat : Nat → β} {n cols : Nat} {r c pivot : Int} {b : Nat}
  {buf : List β}

theorem putRow_eq (s : List β × List (Write β)) (i : Nat) :
    putRow mat cols (targetRowOffset sizes r c pivot b) s i =
      (put s.1 (rowCell sizes r c pivot b i, blockRow mat cols i)).bind fun data =>
        if 0 ≤ targetRowOffset sizes r c pivot b i then
          some (data, s.2 ++ [(rowCell sizes r c pivot b i, blockRow mat cols i)])
        else none := by
  obtain ⟨x, hx⟩ := dvd_targetRowOffset sizes r c pivot b i
  unfold putRow write put rowCell
  by_cases h0 : 0 ≤ targetRowOffset sizes r c pivot b i
  · have hcell : (targetRowOffset sizes r c pivot b i).toNat =
        (targetRowOffset sizes r c pivot b i).toNat / elementSize * elementSize := by
      simp only [elementSize] at hx ⊢
      omega
    have hdvd : elementSize ∣ (targetRowOffset sizes r c pivot b i).toNat := ⟨_, by
      rw [Nat.mul_comm]; exact hcell⟩
    have hle : (targetRowOffset sizes r c pivot b i).toNat +
        elementSize * (blockRow mat cols i).length ≤ elementSize * s.1.length ↔
        (targetRowOffset sizes r c pivot b i).toNat / elementSize +
          (blockRow mat cols i).length ≤ s.1.length := by
      simp only [elementSize] at hcell ⊢
      omega
    simp only [h0, if_true, hdvd, true_and, hle]
    split <;> rfl
  · simp [h0]

theorem rowWrites_inside (mat : Nat → β) {len : Nat}
    (h : ∀ i < n, RowInside sizes len cols r c pivot b i) :
    ∀ w ∈ rowWrites sizes mat n cols r c pivot b, w.1 + w.2.length ≤ len := by
  intro w hw
  obtain ⟨i, hi, rfl⟩ := mem_map.mp hw
  rw [length_blockRow]
  exact (h i (mem_range.mp hi)).2

/-- The loop makes the copies of its rows, as long as they stay inside. -/
theorem foldlM_putRow_eq_some_iff :
    (List.range n).foldlM (putRow mat cols (targetRowOffset sizes r c pivot b)) (buf, []) =
        some (data, ws) ↔
      (∀ i < n, RowInside sizes buf.length cols r c pivot b i) ∧
        ws = rowWrites sizes mat n cols r c pivot b ∧
        (rowWrites sizes mat n cols r c pivot b).foldlM put buf = some data := by
  induction n generalizing data ws with
  | zero => simp [rowWrites, eq_comm, and_comm]
  | succ n ih =>
    have hsucc : rowWrites sizes mat (n + 1) cols r c pivot b =
        rowWrites sizes mat n cols r c pivot b ++
          [(rowCell sizes r c pivot b n, blockRow mat cols n)] := by
      simp [rowWrites, range_succ]
    rw [range_succ, foldlM_append, hsucc, foldlM_append]
    simp only [foldlM_cons, foldlM_nil, putRow_eq, put, bind_pure,
      bind_eq_bind, bind_eq_some_iff, Prod.exists, ih, ite_none_right_eq_some,
      some.injEq, Prod.mk.injEq, length_blockRow]
    constructor
    · rintro ⟨data₁, ws₁, ⟨hin, rfl, hfold⟩, data₂, ⟨hle, rfl⟩, h0, rfl, rfl⟩
      have hlen := length_of_foldlM_put hfold
      refine ⟨fun i hi => ?_, rfl, data₁, hfold, hle, rfl⟩
      rcases Nat.lt_succ_iff_lt_or_eq.mp hi with hi | rfl
      · exact hin i hi
      · exact ⟨h0, hlen ▸ hle⟩
    · rintro ⟨hin, rfl, data₁, hfold, hle, rfl⟩
      exact ⟨data₁, _, ⟨fun i hi => hin i (by omega), rfl, hfold⟩, _, ⟨hle, rfl⟩,
        (hin n (by omega)).1, rfl, rfl⟩

end Rows

/-- A block is written where all its rows land inside the output; each cell then has what the last
row over it puts there. -/
theorem indexPutBlock_eq_some_iff {target' : Tensor β} {mat : Nat → β} :
    indexPutBlock target mat n cols r c pivot b = some (target', ws) ↔
      (∀ i < n, RowInside target.sizes target.data.length cols r c pivot b i) ∧
        ws = rowWrites target.sizes mat n cols r c pivot b ∧ target'.sizes = target.sizes ∧
        ∀ q, target'.data[q]? = (lastWrite ws q).or target.data[q]? := by
  simp only [indexPutBlock, bind_eq_some_iff, Prod.exists, foldlM_putRow_eq_some_iff]
  constructor
  · rintro ⟨data, ws', ⟨hin, rfl, hfold⟩, hres⟩
    obtain ⟨buf', hbuf, -, hcell⟩ := foldlM_put (rowWrites_inside mat hin)
    obtain rfl := some.inj (hfold.symm.trans hbuf)
    split at hres
    · obtain ⟨rfl, rfl⟩ := Prod.mk.inj (some.inj hres)
      exact ⟨hin, rfl, rfl, hcell⟩
    · cases hres
  · rintro ⟨hin, rfl, hsizes, hcell⟩
    obtain ⟨buf', hbuf, hlen, hcell'⟩ := foldlM_put (rowWrites_inside mat hin)
    refine ⟨buf', _, ⟨hin, rfl, hbuf⟩, ?_⟩
    rw [dif_pos (hlen.trans target.size_eq)]
    obtain ⟨sizes', data', hsize'⟩ := target'
    obtain rfl : sizes' = target.sizes := hsizes
    obtain rfl : buf' = data' := ext_getElem? fun q => by rw [hcell' q, hcell q]
    rfl

theorem exists_indexPutBlock (mat : Nat → β)
    (h : ∀ i < n, RowInside target.sizes target.data.length cols r c pivot b i) :
    ∃ target', indexPutBlock target mat n cols r c pivot b =
      some (target', rowWrites target.sizes mat n cols r c pivot b) := by
  obtain ⟨data, -, hlen, hcell⟩ := foldlM_put (rowWrites_inside mat h)
  exact ⟨⟨target.sizes, data, hlen.trans target.size_eq⟩,
    indexPutBlock_eq_some_iff.mpr ⟨h, rfl, rfl, hcell⟩⟩

/-! ## Blocks of partitions -/

/-- Cell `q` is in block `(r, c)` of matrix `pivot` of the output. -/
def InBlock (sizes : List Nat) (b r c pivot q : Nat) : Prop :=
  ∃ i < min b (rowDim sizes - r * b), ∃ j < min b (colDim sizes - c * b),
    q = (pivot * rowDim sizes + r * b + i) * colDim sizes + c * b + j

/-- A block of `rows` by `cols` elements fits into block `(r, c)`. Where the output has one column
of blocks, the rows of the block are one piece of memory, and a longer row runs on into the next. -/
def Fits (sizes : List Nat) (b r c rows cols : Nat) : Prop :=
  let nr := min b (rowDim sizes - r * b)
  let nc := min b (colDim sizes - c * b)
  rows = 0 ∨ if nc = colDim sizes then (rows - 1) * nc + cols ≤ nr * nc else rows ≤ nr ∧ cols ≤ nc

instance (sizes : List Nat) (b r c rows cols : Nat) : Decidable (Fits sizes b r c rows cols) :=
  inferInstanceAs (Decidable (_ ∨ ite _ _ _))

section Blocks
variable {sizes : List Nat} {b r c pivot rows cols : Nat}

theorem Fits.inBlock (pivot : Nat) (h : Fits sizes b r c rows cols) (hc : c * b < colDim sizes)
    {j : Nat} (hi : i < rows) (hj : j < cols) :
    InBlock sizes b r c pivot
      ((pivot * rowDim sizes + r * b + i) * colDim sizes + c * b + j) := by
  unfold Fits at h
  generalize hnr : min b (rowDim sizes - r * b) = nr at h
  generalize hnc : min b (colDim sizes - c * b) = nc at h
  unfold InBlock
  rw [hnr, hnc]
  rcases h with h | h
  · omega
  split at h
  next hm =>
    -- One column of blocks: row and column come from the distance to the start of the block.
    have hcb : c * b = 0 := by omega
    have hlt : i * nc + j < nr * nc := by
      have : i * nc ≤ (rows - 1) * nc := Nat.mul_le_mul_right _ (by omega)
      omega
    have hpos : 0 < nc := by omega
    refine ⟨(i * nc + j) / nc, (Nat.div_lt_iff_lt_mul hpos).mpr hlt, (i * nc + j) % nc,
      Nat.mod_lt _ hpos, ?_⟩
    have hdm := Nat.div_add_mod' (i * nc + j) nc
    rw [← hm, hcb, Nat.add_mul _ i, Nat.add_mul _ ((i * nc + j) / nc)]
    omega
  next => exact ⟨i, by omega, j, by omega, rfl⟩

/-- The rows up to the first one behind the block decide. -/
theorem fits_of_inBlock (pivot : Nat) (hc : c * b < colDim sizes) (hcols : 0 < cols)
    (h : ∀ i < rows, i ≤ min b (rowDim sizes - r * b) → ∀ j < cols, InBlock sizes b r c pivot
      ((pivot * rowDim sizes + r * b + i) * colDim sizes + c * b + j)) :
    Fits sizes b r c rows cols := by
  unfold Fits
  unfold InBlock at h
  generalize hnr : min b (rowDim sizes - r * b) = nr at h
  generalize hnc : min b (colDim sizes - c * b) = nc at h
  -- Distances to the start of the block.
  have hdist : ∀ i < rows, i ≤ nr → ∀ j < cols, ∃ i' < nr, ∃ j' < nc,
      i * colDim sizes + j = i' * colDim sizes + j' := by
    intro i hi hile j hj
    obtain ⟨i', hi', j', hj', e⟩ := h i hi hile j hj
    refine ⟨i', hi', j', hj', ?_⟩
    rw [Nat.add_mul _ i, Nat.add_mul _ i'] at e
    omega
  have hend : ∀ i' < nr, ∀ j' < nc, i' * colDim sizes + j' < nr * colDim sizes := by
    intro i' hi' j' hj'
    have : (i' + 1) * colDim sizes ≤ nr * colDim sizes := Nat.mul_le_mul_right _ hi'
    rw [Nat.succ_mul] at this
    omega
  by_cases hrows : rows = 0
  · exact .inl hrows
  refine .inr ?_
  split
  next hm =>
    rw [hm]
    by_contra hlt
    have hi : min (rows - 1) nr * colDim sizes + (cols - 1) ≥ nr * colDim sizes := by
      rcases Nat.le_total (rows - 1) nr with hle | hle
      · rw [Nat.min_eq_left hle]; omega
      · rw [Nat.min_eq_right hle]; omega
    obtain ⟨i', hi', j', hj', e⟩ := hdist (min (rows - 1) nr) (by omega) (by omega) (cols - 1)
      (by omega)
    have := hend i' hi' j' hj'
    omega
  next hm =>
    constructor
    · by_contra hlt
      obtain ⟨i', hi', j', hj', e⟩ := hdist nr (by omega) (by omega) 0 hcols
      have := hend i' hi' j' hj'
      omega
    · by_contra hlt
      obtain ⟨i', hi', j', hj', e⟩ := hdist 0 (by omega) (by omega) nc (by omega)
      rcases Nat.eq_zero_or_pos i' with rfl | hpos
      · omega
      · have : 1 * colDim sizes ≤ i' * colDim sizes := Nat.mul_le_mul_right _ hpos
        omega

/-- Nothing wraps around at a position in memory. -/
theorem targetRowOffset_eq (h : ((pivot * rowDim sizes + r * b + i) * colDim sizes +
    c * b) * elementSize < 2 ^ 63) : targetRowOffset sizes r c pivot b i =
      (((pivot * rowDim sizes + r * b + i) * colDim sizes + c * b) * elementSize : Nat) := by
  rw [← wrap64_of_lt h, targetRowOffset]
  congr 1
  push_cast
  ring

theorem rowCell_eq (h : ((pivot * rowDim sizes + r * b + i) * colDim sizes +
    c * b) * elementSize < 2 ^ 63) : rowCell sizes r c pivot b i =
      (pivot * rowDim sizes + r * b + i) * colDim sizes + c * b := by
  rw [rowCell, targetRowOffset_eq h, Int.toNat_natCast, Nat.mul_div_cancel _ (by decide)]

/-- The cells of a block are cells of the output. -/
theorem InBlock.lt {q : Nat} (h : InBlock sizes b r c pivot q) (hdim : 2 ≤ sizes.length)
    (hp : pivot < (leading sizes).prod) : q < sizes.prod := by
  obtain ⟨i, hi, j, hj, rfl⟩ := h
  rw [show sizes.prod = (leading sizes).prod * rowDim sizes * colDim sizes by
    conv_lhs => rw [eq_leading_append hdim]
    simp [Nat.mul_assoc]]
  calc (pivot * rowDim sizes + r * b + i) * colDim sizes + c * b + j
      < (pivot * rowDim sizes + r * b + i + 1) * colDim sizes := by rw [Nat.succ_mul]; omega
    _ ≤ (leading sizes).prod * rowDim sizes * colDim sizes := by
      apply Nat.mul_le_mul_right
      calc pivot * rowDim sizes + r * b + i + 1 ≤ (pivot + 1) * rowDim sizes := by
            rw [Nat.succ_mul]; omega
        _ ≤ (leading sizes).prod * rowDim sizes := Nat.mul_le_mul_right _ hp

end Blocks

/-! ## Positions in memory -/

section Memory
variable {target mat : Tensor β} {ptr : Nat → β} {b r c pivot : Nat}

/-- A copy of the loop of `indexPutMatrixBlock` is one of `indexPutBlock`. -/
theorem putRow_of_indexPutRow {data' : List β} (ws : List (Write β))
    (hptr : ∀ k < mat.data.length, mat.data[k]? = some (ptr k))
    (hmem : data.length * elementSize < 2 ^ 63)
    (h : indexPutRow mat (colDim target.sizes)
      (pivot * rowDim target.sizes * colDim target.sizes * elementSize +
        r * b * colDim target.sizes * elementSize + c * b * elementSize) data i = some data') :
    ∃ ws', putRow ptr (colDim mat.sizes) (targetRowOffset target.sizes r c pivot b) (data, ws) i =
      some (data', ws') ∧ data'.length = data.length := by
  unfold indexPutRow memcpy at h
  obtain ⟨xs, hread, hwrite⟩ := bind_eq_some_iff.mp h
  obtain ⟨⟨-, -, hin⟩, hxs⟩ := ite_none_right_eq_some.mp hread
  obtain ⟨⟨hdvd, hfit⟩, hdata⟩ := ite_none_right_eq_some.mp hwrite
  have hsrc : i * colDim mat.sizes + colDim mat.sizes ≤ mat.data.length := by
    simp only [elementSize] at hin
    omega
  have hrow : xs = blockRow ptr (colDim mat.sizes) i := by
    rw [← some.inj hxs, Nat.mul_div_cancel _ (by decide), Nat.mul_div_cancel _ (by decide)]
    refine ext_getElem? fun j => ?_
    by_cases hj : j < colDim mat.sizes
    · rw [getElem?_take_of_lt hj, getElem?_drop, hptr _ (by omega)]
      simp [blockRow, hj]
    · rw [getElem?_eq_none (by simp; omega), getElem?_eq_none (by simp; omega)]
  have hlt : pivot * rowDim target.sizes * colDim target.sizes * elementSize +
      r * b * colDim target.sizes * elementSize + c * b * elementSize +
      i * colDim target.sizes * elementSize < 2 ^ 63 := by
    simp only [elementSize] at hfit hmem ⊢
    omega
  have hoff : targetRowOffset target.sizes r c pivot b i =
      (pivot * rowDim target.sizes * colDim target.sizes * elementSize +
        r * b * colDim target.sizes * elementSize + c * b * elementSize +
        i * colDim target.sizes * elementSize : Nat) := by
    rw [← wrap64_of_lt hlt, targetRowOffset]
    simp only [Int.natCast_add, Int.natCast_mul]
  have h0 : 0 ≤ targetRowOffset target.sizes r c pivot b i := hoff ▸ Int.natCast_nonneg _
  have hput : write elementSize data (targetRowOffset target.sizes r c pivot b i).toNat
      (blockRow ptr (colDim mat.sizes) i) = some data' := by
    rw [hoff, Int.toNat_natCast, ← hrow, hwrite]
  refine ⟨ws ++ [(rowCell target.sizes r c pivot b i, blockRow ptr (colDim mat.sizes) i)], ?_, ?_⟩
  · simp only [putRow, h0, if_true, hput, map_some, rowCell]
  · rw [← some.inj hdata, length_splice]
    have := Nat.div_mul_cancel hdvd
    simp only [elementSize] at this hfit ⊢
    omega

/-- Where nothing wraps around, `indexPutBlock` writes what `indexPutMatrixBlock` does. -/
theorem indexPutBlock_of_indexPutMatrixBlock {target' : Tensor β}
    (hptr : ∀ k < mat.data.length, mat.data[k]? = some (ptr k))
    (hmem : target.data.length * elementSize < 2 ^ 63)
    (h : indexPutMatrixBlock target mat r c pivot b = some target') :
    ∃ ws, indexPutBlock target ptr (rowDim mat.sizes) (colDim mat.sizes) r c pivot b =
      some (target', ws) := by
  simp only [indexPutMatrixBlock, bind_eq_bind, bind_eq_some_iff] at h
  obtain ⟨data, hfold, hres⟩ := h
  suffices hloop : ∀ (is : List Nat) (buf : List β) (ws : List (Write β)),
      buf.length = target.data.length →
      is.foldlM (indexPutRow mat (colDim target.sizes)
        (pivot * rowDim target.sizes * colDim target.sizes * elementSize +
          r * b * colDim target.sizes * elementSize + c * b * elementSize)) buf = some data →
      ∃ ws', is.foldlM (putRow ptr (colDim mat.sizes) (targetRowOffset target.sizes r c pivot b))
        (buf, ws) = some (data, ws') by
    obtain ⟨ws, hws⟩ := hloop _ _ [] rfl hfold
    refine ⟨ws, ?_⟩
    rw [indexPutBlock, hws, bind_some]
    split at hres
    next hsize => rw [dif_pos hsize, some.inj hres]
    next => cases hres
  intro is
  induction is with
  | nil => exact fun buf ws _ hbuf => ⟨ws, by rw [← some.inj hbuf]; rfl⟩
  | cons i is ih =>
    intro buf ws hlen hbuf
    rw [foldlM_cons, bind_eq_bind, bind_eq_some_iff] at hbuf
    obtain ⟨buf₁, hrow, hrest⟩ := hbuf
    obtain ⟨ws₁, hput, hlen₁⟩ := putRow_of_indexPutRow ws hptr (hlen ▸ hmem) hrow
    obtain ⟨ws', hws'⟩ := ih buf₁ ws₁ (hlen₁.trans hlen) hrest
    exact ⟨ws', by rw [foldlM_cons, hput]; exact hws'⟩

theorem indexPutBlock_second : ∃ ws, indexPutBlock ⟨[1, 2], [5, 6], rfl⟩ (fun _ => 7) 1 1 0 1 0 1 =
    some (⟨[1, 2], [5, 7], rfl⟩, ws) :=
  @indexPutBlock_of_indexPutMatrixBlock Nat ⟨[1, 2], [5, 6], rfl⟩ ⟨[1, 1], [7], rfl⟩ _ 1 0 1 0 _
    (by simp) (by decide) rfl

end Memory
end Morphling
