import Morphling.Matrix.Put
import Morphling.Server.OperationId
import Morphling.Tracker.PartitionIndex
import Morphling.Wire.Message

/-!
# What an answer may touch (`proxy_svr.cpp`)

`HandleMatMul` takes the operation, the position and the extents of a block from the answer, and
checks none of them. This is the whole call, on the outputs, the counters and the tracker, for an
answer with any fields.

* An answer is a decoded partition. Its pointers see what follows the frame as well.
* `Reached`: the states that dispatches, answers and the tracker's own operations lead to.
* `Contained`: the answer changed nothing, or it answered a tracked partition and stayed in its
  block.
* `contained_iff`: the answers for which this holds (`Admissible`).

The device statistics and the send times that the call also updates are left out.
-/

namespace Morphling

open List Function PartitionTracker

/-- `GetPartitionKey` of an answer: the text `[version:pivot:row:col]`. -/
structure AnswerKey where
  version : Nat
  pivot : Int
  row : Int
  col : Int
  deriving DecidableEq, Repr

def Wire.WirePartition.getPartitionKey {P : Type*} (part : Wire.WirePartition P) : AnswerKey :=
  ⟨part.version, part.pivot, part.row, part.col⟩

/-- The same text for a partition of the server. -/
def MatrixPartition.answerKey {P : Type*} (part : MatrixPartition P) : AnswerKey :=
  ⟨part.version, part.pivot, part.row, part.col⟩

/-- The value of an `int64_t` that is passed as an `int`. -/
def asInt (oid : Int) : Int := oid.bmod (2 ^ 32)

/-- The place of an operation in `outputs_` and `rsp_cb_counts_`. -/
def operationIndex (oid : Int) : Option (Fin kMaxLifetimeOperationCount) :=
  if h : 0 ≤ asInt oid ∧ asInt oid < kMaxLifetimeOperationCount then
    some ⟨(asInt oid).toNat, by omega⟩
  else none

/-- What `HandleMatMul` works on. An output that was not dispatched is `torch::empty({0, 0})`, and
NaN is `none`. -/
structure ProxySvrImpl (R : Type*) where
  blockSize : Nat
  blockSize_pos : 0 < blockSize
  partitions : PartitionTracker AnswerKey := {}
  outputs : Fin kMaxLifetimeOperationCount → Tensor (Option R) := fun _ => ⟨[0, 0], [], rfl⟩
  rspCbCounts : Fin kMaxLifetimeOperationCount → Nat := fun _ => 0
  mmCount : Nat := 0

/-- A decoded answer. -/
abbrev Answer (R : Type*) := Wire.WirePartition (Nat → Option R)

/-- An error that no exception reports. -/
inductive Fault where
  /-- `mat[0]` of an answer without matrices. -/
  | missingMatrix
  /-- A division by zero, or one whose result is no `int64_t`. -/
  | division
  /-- `outputs_[oid]` outside the vector. -/
  | outputIndex
  /-- A copy that leaves the output. -/
  | outOfBounds
  deriving DecidableEq, Repr

/-- How a call of `HandleMatMul` ends. -/
inductive Handled (R : Type*) where
  /-- It returned; `written` are its copies into the output. -/
  | done (s : ProxySvrImpl R) (written : List (Buffer.Write (Option R)))
  /-- `torch::from_blob` threw, before anything was changed. -/
  | threw
  | fault (f : Fault)

/-- `o_size / h_dim / sizeof(float)`: the quotient becomes a `size_t`. -/
def rowSize (oSize hDim : Int) : Nat := (oSize.tdiv hDim % 2 ^ 64).toNat / elementSize

/-- The division traps. -/
def DivisionTraps (oSize hDim : Int) : Prop := hDim = 0 ∨ (oSize = -2 ^ 63 ∧ hDim = -1)

instance (oSize hDim : Int) : Decidable (DivisionTraps oSize hDim) :=
  inferInstanceAs (Decidable (_ ∨ _))

namespace ProxySvrImpl

variable {R : Type*} (s : ProxySvrImpl R)

/-- `IncRspCbCount(oid, 1)`: the counter stays at zero. -/
def incRspCbCount (i : Fin kMaxLifetimeOperationCount) : ProxySvrImpl R :=
  { s with rspCbCounts := update s.rspCbCounts i (s.rspCbCounts i - 1) }

/-- `MarkPartitionFinished` and `RemovePartitionByKey`. -/
def finishPartition (key : AnswerKey) : ProxySvrImpl R :=
  { s with partitions := (s.partitions.markPartitionFinished key).removePartitionByKey key }

/-- `HandleMatMul`, after the answer was decoded. -/
def handleMatMul (msg : Answer R) : Handled R :=
  match msg.mat with
  | [] => .fault .missingMatrix
  | (oPtr, oSize) :: _ =>
    if DivisionTraps oSize msg.hDim then .fault .division
    -- `from_blob` does not take a negative extent.
    else if msg.hDim < 0 then .threw
    else
      match operationIndex msg.oid with
      | none => .fault .outputIndex
      | some i =>
        match indexPutBlock (s.outputs i) oPtr (rowSize oSize msg.hDim) msg.hDim.toNat msg.row
          msg.col msg.pivot s.blockSize with
        | none => .fault .outOfBounds
        | some (output, written) =>
          let s₁ := { s with outputs := update s.outputs i output }
          .done ((s₁.finishPartition msg.getPartitionKey).incRspCbCount i) written

/-! ## Dispatches -/

/-- `AddPartition` of a partition, as part of operation `oid`. -/
def addPartition (oid : Int) (t : PartitionTracker AnswerKey) (part : MatrixPartition DataPtr) :
    PartitionTracker AnswerKey :=
  t.addPartition (-1) part.answerKey oid { part with oid := oid, devId := -1 }

/-- `DispatchMatMulAsync`, behind the gate. `shuffle` is `random_shuffle`; an operation without
partitions, or one whose output cannot be made, only uses up its id. -/
def dispatchMatMulAsync (matA matB : Tensor R) (uuid64 : Nat)
    (shuffle : List (MatrixPartition DataPtr) → List (MatrixPartition DataPtr)) : ProxySvrImpl R :=
  if h : s.mmCount < kMaxLifetimeOperationCount then
    let oid : Fin kMaxLifetimeOperationCount := ⟨s.mmCount, h⟩
    let s₁ := { s with mmCount := s.mmCount + 1 }
    match partitionMatrices matA matB s.blockSize uuid64, createOutputMatrix matA matB with
    | some (part :: parts), some out =>
      { s₁ with
        outputs := update s.outputs oid out
        rspCbCounts :=
          update s.rspCbCounts oid (s.rspCbCounts oid + (part :: parts).length)
        partitions := (shuffle (part :: parts)).foldl (addPartition oid.val) s.partitions }
    | _, _ => s₁
  else s

/-- The operations that the server calls on tracked partitions between their dispatch and their
answer. -/
def Between : Op AnswerKey → Prop
  | .reassignPartitionToDevice .. | .markDevicePartitionsFailed _ | .markPartitionRunning _
  | .markPartitionFailed _ | .markPartitionIdle _ | .markDevicePartitionsRunning _
  | .claimIdlePartitions => True
  | _ => False

/-- The states that dispatches and answers lead to. The output of a dispatch is in memory, which no
`2 ^ 62` bytes are. -/
inductive Reached : ProxySvrImpl R → Prop
  | init (blockSize : Nat) (h : 0 < blockSize) : Reached { blockSize, blockSize_pos := h }
  | dispatch {s : ProxySvrImpl R} (hs : Reached s) (matA matB : Tensor R) (uuid64 : Nat)
      {shuffle : List (MatrixPartition DataPtr) → List (MatrixPartition DataPtr)}
      (hshuffle : ∀ l, (shuffle l).Perm l)
      (hmem : ∀ out ∈ createOutputMatrix matA matB, out.data.length * elementSize < 2 ^ 62) :
      Reached (s.dispatchMatMulAsync matA matB uuid64 shuffle)
  | answer {s s' : ProxySvrImpl R} (hs : Reached s) {msg : Answer R}
      {written : List (Buffer.Write (Option R))} (h : s.handleMatMul msg = .done s' written) :
      Reached s'
  | tracker {s : ProxySvrImpl R} (hs : Reached s) {op : Op AnswerKey}
      (h : Between op) : Reached { s with partitions := s.partitions.apply op }

/-! ## Containment -/

/-- The cells of the block that a key names. -/
def InBlockOf (sizes : List Nat) (b : Nat) (key : AnswerKey) (q : Nat) : Prop :=
  InBlock sizes b key.row.toNat key.col.toNat key.pivot.toNat q

/-- Nothing was changed. -/
def Unchanged (s' : ProxySvrImpl R) : Prop :=
  s'.outputs = s.outputs ∧ s'.rspCbCounts = s.rspCbCounts ∧ s'.partitions = s.partitions

/-- `msg` answered a partition that was tracked, and changed its block and its counter only. -/
structure Answered (msg : Answer R) (s' : ProxySvrImpl R)
    (written : List (Buffer.Write (Option R))) (i : Fin kMaxLifetimeOperationCount) : Prop where
  operation : operationIndex msg.oid = some i
  tracked : ∃ info, s.partitions.find msg.getPartitionKey = some info ∧ info.oid = msg.oid
  others : ∀ j, j ≠ i → s'.outputs j = s.outputs j
  block : ∀ w ∈ written, ∀ q, w.Covers q →
    InBlockOf (s.outputs i).sizes s.blockSize msg.getPartitionKey q
  frame : ∀ q, ¬ InBlockOf (s.outputs i).sizes s.blockSize msg.getPartitionKey q →
    (s'.outputs i).data[q]? = (s.outputs i).data[q]?
  count : s'.rspCbCounts i + 1 = s.rspCbCounts i
  counts : ∀ j, j ≠ i → s'.rspCbCounts j = s.rspCbCounts j

/-- The call changed nothing or answered a partition; no division trapped, no matrix was missing,
and nothing outside the output was accessed. -/
def Contained (msg : Answer R) : Prop :=
  match s.handleMatMul msg with
  | .done s' written => s.Unchanged s' ∨ ∃ i, s.Answered msg s' written i
  | .threw => True
  | .fault _ => False

/-- The answer belongs to a tracked partition of its operation, its block fits, and the operation
still waits. -/
structure AnswersTracked (msg : Answer R) (i : Fin kMaxLifetimeOperationCount) (rows : Nat) :
    Prop where
  tracked : ∃ info, s.partitions.find msg.getPartitionKey = some info ∧ info.oid = msg.oid
  fits : Fits (s.outputs i).sizes s.blockSize msg.row.toNat msg.col.toNat rows msg.hDim.toNat
  waits : 0 < s.rspCbCounts i

/-- The answer belongs to no partition, its operation waits for nothing, and every cell that it
covers is in the output and has the value already. -/
structure Repeats (msg : Answer R) (i : Fin kMaxLifetimeOperationCount) (oPtr : Nat → Option R)
    (rows : Nat) : Prop where
  untracked : s.partitions.find msg.getPartitionKey = none
  complete : s.rspCbCounts i = 0
  inside : ∀ k < rows, RowInside (s.outputs i).sizes (s.outputs i).data.length msg.hDim.toNat
    msg.row msg.col msg.pivot s.blockSize k
  same : ∀ q v, Buffer.lastWrite (rowWrites (s.outputs i).sizes oPtr rows msg.hDim.toNat msg.row
    msg.col msg.pivot s.blockSize) q = some v → (s.outputs i).data[q]? = some v

/-- The answers that are contained. -/
def Admissible (msg : Answer R) : Prop :=
  ∃ oPtr oSize rest, msg.mat = (oPtr, oSize) :: rest ∧ ¬ DivisionTraps oSize msg.hDim ∧
    (msg.hDim < 0 ∨ ∃ i, operationIndex msg.oid = some i ∧
      (s.AnswersTracked msg i (rowSize oSize msg.hDim) ∨
        s.Repeats msg i oPtr (rowSize oSize msg.hDim)))

/-! ## Reached states -/

/-- The key names a block of an output with these extents. -/
structure Placed (sizes : List Nat) (b : Nat) (key : AnswerKey) : Prop where
  row_nonneg : 0 ≤ key.row
  col_nonneg : 0 ≤ key.col
  pivot_nonneg : 0 ≤ key.pivot
  dim : 2 ≤ sizes.length
  row_lt : key.row.toNat * b < rowDim sizes
  col_lt : key.col.toNat * b < colDim sizes
  pivot_lt : key.pivot.toNat < (leading sizes).prod
  memory : sizes.prod * elementSize < 2 ^ 62

/-- What holds in every reached state: the maps of the tracker have the same keys, and every
partition that was ever added names a block of its output. -/
structure Inv (s : ProxySvrImpl R) : Prop where
  indexed : s.partitions.Indexed
  placed : ∀ {p oid key}, s.partitions.labelOf p = some (oid, key) →
    ∃ i, operationIndex oid = some i ∧ i.val < s.mmCount ∧
      Placed (s.outputs i).sizes s.blockSize key

theorem operationIndex_natCast {n : Nat} (h : n < kMaxLifetimeOperationCount) :
    operationIndex n = some ⟨n, h⟩ := by
  have hint : asInt n = n := by
    unfold asInt
    unfold kMaxLifetimeOperationCount at h
    rw [Int.bmod_eq_of_le] <;> omega
  have hlt : 0 ≤ asInt n ∧ asInt n < kMaxLifetimeOperationCount := by
    rw [hint]
    exact ⟨Int.natCast_nonneg n, Int.ofNat_lt.mpr h⟩
  rw [operationIndex, dif_pos hlt]
  simp only [hint, Int.toNat_natCast]

variable {s s' : ProxySvrImpl R} {written : List (Buffer.Write (Option R))} {rows b : Nat}
  {msg : Answer R}

/-- The partitions of an operation name blocks of its output. -/
theorem placed_of_mem {matA matB : Tensor R} {uuid64 : Nat} {ps : List (MatrixPartition DataPtr)}
    {out : Tensor (Option R)} (hps : partitionMatrices matA matB b uuid64 = some ps)
    (hout : createOutputMatrix matA matB = some out) (hmem : out.data.length * elementSize < 2 ^ 62)
    {part : MatrixPartition DataPtr} (hp : part ∈ ps) : Placed out.sizes b part.answerKey := by
  obtain ⟨hrow, hcol, hpivot⟩ := mem_partitionMatrices hps hp
  obtain ⟨-, -, hsizes⟩ := sizes_of_createOutputMatrix hout
  have hr := mul_lt_of_lt_numBlocks hrow
  have hc := mul_lt_of_lt_numBlocks hcol
  exact {
    row_nonneg := Int.natCast_nonneg _
    col_nonneg := Int.natCast_nonneg _
    pivot_nonneg := Int.natCast_nonneg _
    dim := by simp [hsizes]
    row_lt := by simpa [hsizes, MatrixPartition.answerKey] using hr
    col_lt := by simpa [hsizes, MatrixPartition.answerKey] using hc
    pivot_lt := by simpa [hsizes, MatrixPartition.answerKey] using hpivot
    memory := by rwa [← out.size_eq] }

/-- Adding partitions: the labels are the old ones, and those of the new partitions. -/
theorem foldl_addPartition {t : PartitionTracker AnswerKey} (h : t.Indexed) (oid : Int)
    (ps : List (MatrixPartition DataPtr)) :
    (ps.foldl (addPartition oid) t).Indexed ∧
      ∀ {p label}, (ps.foldl (addPartition oid) t).labelOf p = some label →
        t.labelOf p = some label ∨ ∃ part ∈ ps, label = (oid, part.answerKey) := by
  induction ps generalizing t with
  | nil => exact ⟨h, .inl⟩
  | cons part ps ih =>
    obtain ⟨hidx, hlabels⟩ := ih (t := addPartition oid t part) (h.addPartition _ _ _ _)
    refine ⟨hidx, fun {p label} hl => ?_⟩
    rcases hlabels hl with hl | ⟨part', hp, rfl⟩
    · rw [addPartition, labelOf_addPartition] at hl
      split at hl
      · exact .inr ⟨part, mem_cons_self, (Option.some.inj hl).symm⟩
      · exact .inl hl
    · exact .inr ⟨part', mem_cons_of_mem _ hp, rfl⟩

theorem Inv.dispatch (h : s.Inv) (matA matB : Tensor R) (uuid64 : Nat)
    {shuffle : List (MatrixPartition DataPtr) → List (MatrixPartition DataPtr)}
    (hshuffle : ∀ l, (shuffle l).Perm l)
    (hmem : ∀ out ∈ createOutputMatrix matA matB, out.data.length * elementSize < 2 ^ 62) :
    (s.dispatchMatMulAsync matA matB uuid64 shuffle).Inv := by
  unfold dispatchMatMulAsync
  split
  next hlt =>
    dsimp only
    split
    next part parts out hps hout =>
      obtain ⟨hidx, hlabels⟩ := foldl_addPartition h.indexed s.mmCount (shuffle (part :: parts))
      refine ⟨hidx, fun {p oid key} hl => ?_⟩
      rcases hlabels hl with hl | ⟨part', hp, hl⟩
      · obtain ⟨i, hi, hcount, hplaced⟩ := h.placed hl
        -- The id of the new operation is behind those of all earlier ones.
        have hne : i ≠ ⟨s.mmCount, hlt⟩ := by
          rintro rfl
          exact Nat.lt_irrefl _ hcount
        refine ⟨i, hi, Nat.lt_succ_of_lt hcount, ?_⟩
        simpa only [update_of_ne hne] using hplaced
      · obtain ⟨rfl, rfl⟩ := Prod.mk.inj hl
        refine ⟨_, operationIndex_natCast hlt, Nat.lt_succ_self _, ?_⟩
        have hplaced := placed_of_mem hps hout (hmem out hout) ((hshuffle _).mem_iff.mp hp)
        simpa only [update_self] using hplaced
    next =>
      refine ⟨h.indexed, fun hl => ?_⟩
      obtain ⟨i, hi, hcount, hplaced⟩ := h.placed hl
      exact ⟨i, hi, Nat.lt_succ_of_lt hcount, hplaced⟩
  next => exact h

theorem Inv.tracker (h : s.Inv) {op : Op AnswerKey} (hop : Between op) :
    ({ s with partitions := s.partitions.apply op } : ProxySvrImpl R).Inv := by
  suffices hkeep : (s.partitions.apply op).Indexed ∧
      (s.partitions.apply op).labelOf = s.partitions.labelOf from
    ⟨hkeep.1, fun hl => h.placed (hkeep.2 ▸ hl)⟩
  cases op with
  | reassignPartitionToDevice k d => exact h.indexed.reassignPartitionToDevice k d
  | markDevicePartitionsFailed d =>
    exact h.indexed.foldl_modify (fun i => by split <;> exact ⟨rfl, rfl⟩) _
  | markDevicePartitionsRunning d =>
    exact h.indexed.foldl_modify (fun i => by split <;> exact ⟨rfl, rfl⟩) _
  | markPartitionRunning k | markPartitionFailed k | markPartitionIdle k =>
    exact ⟨h.indexed.markPartition _ k, labelOf_markPartition _⟩
  | claimIdlePartitions => exact h.indexed.claimIdlePartitions
  | _ => exact hop.elim

/-- A call that returned: the operation, and what was copied. -/
theorem handleMatMul_eq_done (h : s.handleMatMul msg = .done s' written) :
    ∃ oPtr oSize rest i output, msg.mat = (oPtr, oSize) :: rest ∧
      ¬ DivisionTraps oSize msg.hDim ∧ 0 ≤ msg.hDim ∧ operationIndex msg.oid = some i ∧
      indexPutBlock (s.outputs i) oPtr (rowSize oSize msg.hDim) msg.hDim.toNat msg.row msg.col
        msg.pivot s.blockSize = some (output, written) ∧
      s' = (({ s with outputs := update s.outputs i output } :
        ProxySvrImpl R).finishPartition msg.getPartitionKey).incRspCbCount i := by
  unfold handleMatMul at h
  split at h
  next => cases h
  next oPtr oSize rest hmat =>
    split at h
    next => cases h
    next hdiv =>
      split at h
      next => cases h
      next hneg =>
        split at h
        next => cases h
        next i hi =>
          split at h
          next => cases h
          next output ws hput =>
            obtain ⟨rfl, rfl⟩ := Handled.done.inj h
            exact ⟨oPtr, oSize, rest, i, output, hmat, hdiv, by omega, hi, hput, rfl⟩

theorem Inv.answer (h : s.Inv) (hdone : s.handleMatMul msg = .done s' written) : s'.Inv := by
  obtain ⟨oPtr, oSize, rest, i, output, -, -, -, -, hput, rfl⟩ := handleMatMul_eq_done hdone
  obtain ⟨-, -, hsizes, -⟩ := indexPutBlock_eq_some_iff.mp hput
  refine ⟨(h.indexed.markPartition _ _).removePartitionByKey _, fun {p oid key} hl => ?_⟩
  have hl : s.partitions.labelOf p = some (oid, key) := by
    rwa [incRspCbCount, finishPartition, labelOf_removePartitionByKey,
      markPartitionFinished, labelOf_markPartition] at hl
  obtain ⟨j, hj, hcount, hplaced⟩ := h.placed hl
  refine ⟨j, hj, hcount, ?_⟩
  by_cases hji : j = i
  · subst hji
    simpa [incRspCbCount, finishPartition, hsizes] using hplaced
  · simpa [incRspCbCount, finishPartition, update_of_ne hji] using hplaced

theorem Reached.inv (h : Reached s) : s.Inv := by
  induction h with
  | init b hb => exact ⟨⟨fun _ => by simp, nofun⟩, nofun⟩
  | dispatch _ matA matB uuid64 hshuffle hmem ih => exact ih.dispatch matA matB uuid64 hshuffle hmem
  | answer _ hdone ih => exact ih.answer hdone
  | tracker _ hop ih => exact ih.tracker hop

/-! ## Where an answer writes -/

/-- At the position of a partition, the extents decide whether a block stays in the partition's. -/
theorem Placed.fits_iff {β : Type*} {target : Tensor β} {key : AnswerKey}
    (h : Placed target.sizes b key) (mat : Nat → β) {cols : Nat} (hcols : 0 < cols) :
    Fits target.sizes b key.row.toNat key.col.toNat rows cols ↔
      (∀ i < rows, RowInside target.sizes target.data.length cols key.row key.col key.pivot b i) ∧
        ∀ w ∈ rowWrites target.sizes mat rows cols key.row key.col key.pivot b, ∀ q, w.Covers q →
          InBlockOf target.sizes b key q := by
  obtain ⟨hr0, hc0, hp0, hdim, hr, hc, hp, hmem⟩ := h
  obtain ⟨version, pivot, row, col⟩ := key
  obtain ⟨pivot, rfl⟩ := Int.eq_ofNat_of_zero_le hp0
  obtain ⟨row, rfl⟩ := Int.eq_ofNat_of_zero_le hr0
  obtain ⟨col, rfl⟩ := Int.eq_ofNat_of_zero_le hc0
  simp only [Int.toNat_natCast, InBlockOf] at hr hc hp ⊢
  have hlen := target.size_eq
  generalize target.data.length = len at hlen ⊢
  generalize target.sizes = sizes at *
  have hprod : sizes.prod = (leading sizes).prod * rowDim sizes * colDim sizes := by
    conv_lhs => rw [eq_leading_append hdim]
    simp [Nat.mul_assoc]
  constructor
  · intro hfits
    have hcell : ∀ i < rows, ∀ j < cols,
        (pivot * rowDim sizes + row * b + i) * colDim sizes + col * b + j < sizes.prod :=
      fun i hi j hj => (hfits.inBlock pivot hc hi hj).lt hdim hp
    have hsmall : ∀ i < rows, ((pivot * rowDim sizes + row * b + i) * colDim sizes + col * b) *
        elementSize < 2 ^ 63 := by
      intro i hi
      have := hcell i hi 0 hcols
      simp only [elementSize] at hmem ⊢
      omega
    refine ⟨fun i hi => ⟨?_, ?_⟩, fun w hw q hq => ?_⟩
    · rw [targetRowOffset_eq (hsmall i hi)]
      exact Int.natCast_nonneg _
    · have := hcell i hi (cols - 1) (by omega)
      rw [rowCell_eq (hsmall i hi)]
      omega
    · obtain ⟨i, hi, rfl⟩ := mem_map.mp hw
      have hi := mem_range.mp hi
      simp only [Buffer.Write.Covers, rowCell_eq (hsmall i hi), length_blockRow] at hq
      have := hfits.inBlock pivot hc hi
        (show q - ((pivot * rowDim sizes + row * b + i) * colDim sizes + col * b) < cols by omega)
      rwa [Nat.add_sub_cancel' hq.1] at this
  · rintro ⟨-, hblock⟩
    refine fits_of_inBlock pivot hc hcols fun i hi hile j hj => ?_
    -- Up to the first row behind the block, offsets stay in twice the output.
    have hsmall : ((pivot * rowDim sizes + row * b + i) * colDim sizes + col * b) *
        elementSize < 2 ^ 63 := by
      have h1 : (pivot * rowDim sizes + row * b + i) * colDim sizes ≤ sizes.prod := by
        rw [hprod]
        apply Nat.mul_le_mul_right
        calc pivot * rowDim sizes + row * b + i ≤ (pivot + 1) * rowDim sizes := by
              rw [Nat.succ_mul]; omega
          _ ≤ (leading sizes).prod * rowDim sizes := Nat.mul_le_mul_right _ hp
      have h2 : 1 * colDim sizes ≤ sizes.prod := by
        rw [hprod]
        exact Nat.mul_le_mul_right _ (Nat.mul_pos (by omega) (by omega))
      simp only [elementSize] at hmem ⊢
      omega
    refine hblock _ (mem_map.mpr ⟨i, mem_range.mpr hi, rfl⟩) _ ?_
    simp only [Buffer.Write.Covers, rowCell_eq hsmall, length_blockRow]
    omega

/-! ## The answers that are contained -/

section Contained
variable {msg : Answer R} {i : Fin kMaxLifetimeOperationCount} {oPtr : Nat → Option R} {oSize : Int}
  {rest : List ((Nat → Option R) × Int)} {output : Tensor (Option R)}

/-- The call from the copy on. -/
theorem handleMatMul_of_put (hmat : msg.mat = (oPtr, oSize) :: rest)
    (hdiv : ¬ DivisionTraps oSize msg.hDim) (hneg : ¬ msg.hDim < 0)
    (hi : operationIndex msg.oid = some i)
    (hput : indexPutBlock (s.outputs i) oPtr (rowSize oSize msg.hDim) msg.hDim.toNat msg.row
      msg.col msg.pivot s.blockSize = some (output, written)) :
    s.handleMatMul msg = .done ((({ s with outputs := update s.outputs i output } :
      ProxySvrImpl R).finishPartition msg.getPartitionKey).incRspCbCount i) written := by
  simp only [handleMatMul, hmat, hdiv, hneg, if_false, hi, hput]

theorem finishPartition_of_untracked (h : s.Inv) {key : AnswerKey}
    (hkey : s.partitions.find key = none) :
    (s.partitions.markPartitionFinished key).removePartitionByKey key = s.partitions := by
  have hmap := h.indexed.find_eq_none_iff.mp hkey
  have hdev := (h.indexed.device_iff key).mpr hmap
  simp [markPartitionFinished, markPartition, hmap,
    removePartitionByKey, hdev]

/-- A tracked partition leaves the tracker with its answer. -/
theorem find_finishPartition (h : s.Inv) (key : AnswerKey) :
    ((s.partitions.markPartitionFinished key).removePartitionByKey key).find key = none := by
  have hidx := h.indexed.markPartition .finished key
  rw [markPartitionFinished, (hidx.removePartitionByKey key).find_eq_none_iff,
    (hidx.removePartitionByKey_fields key).1, update_self]

/-- The partition that an answer belongs to names a block of the output. -/
theorem Inv.placed_of_find (h : s.Inv) {info : PartitionInfo AnswerKey}
    (hfind : s.partitions.find msg.getPartitionKey = some info) (hoid : info.oid = msg.oid)
    (hi : operationIndex msg.oid = some i) :
    Placed (s.outputs i).sizes s.blockSize msg.getPartitionKey := by
  obtain ⟨p, hl⟩ := h.indexed.labelOf_of_find hfind
  obtain ⟨j, hj, -, hplaced⟩ := h.placed hl
  rw [hoid, hi] at hj
  rwa [Option.some.inj hj]

theorem AnswersTracked.contained (h : s.Inv) (hmat : msg.mat = (oPtr, oSize) :: rest)
    (hdiv : ¬ DivisionTraps oSize msg.hDim) (hpos : 0 < msg.hDim)
    (hi : operationIndex msg.oid = some i) (ha : s.AnswersTracked msg i (rowSize oSize msg.hDim)) :
    s.Contained msg := by
  obtain ⟨⟨info, hfind, hoid⟩, hfits, hwaits⟩ := ha
  have hplaced := h.placed_of_find hfind hoid hi
  obtain ⟨hin, hblock⟩ := (hplaced.fits_iff oPtr (show 0 < msg.hDim.toNat by omega)).mp hfits
  obtain ⟨output, hput⟩ := exists_indexPutBlock oPtr hin
  obtain ⟨-, -, hsizes, hcell⟩ := indexPutBlock_eq_some_iff.mp hput
  simp only [Contained, handleMatMul_of_put hmat hdiv (by omega) hi hput]
  refine .inr ⟨i, ⟨hi, ⟨info, hfind, hoid⟩, fun j hj => ?_, hblock, fun q hq => ?_, ?_,
    fun j hj => ?_⟩⟩
  · simp [incRspCbCount, finishPartition, update_of_ne hj]
  · have hlast := Buffer.lastWrite_eq_none fun w hw hcov => hq (hblock w hw q hcov)
    simp [incRspCbCount, finishPartition, hcell, hlast]
  · simp only [incRspCbCount, finishPartition, update_self]
    omega
  · simp [incRspCbCount, finishPartition, update_of_ne hj]

theorem Repeats.contained (h : s.Inv) (hmat : msg.mat = (oPtr, oSize) :: rest)
    (hdiv : ¬ DivisionTraps oSize msg.hDim) (hneg : ¬ msg.hDim < 0)
    (hi : operationIndex msg.oid = some i) (hr : s.Repeats msg i oPtr (rowSize oSize msg.hDim)) :
    s.Contained msg := by
  obtain ⟨output, hput⟩ := exists_indexPutBlock oPtr hr.inside
  obtain ⟨-, -, hsizes, hcell⟩ := indexPutBlock_eq_some_iff.mp hput
  have hsame : output = s.outputs i := by
    refine Tensor.ext_data hsizes (ext_getElem? fun q => ?_)
    rw [hcell q]
    cases hlast : Buffer.lastWrite (rowWrites (s.outputs i).sizes oPtr (rowSize oSize msg.hDim)
      msg.hDim.toNat msg.row msg.col msg.pivot s.blockSize) q with
    | none => rfl
    | some v => exact (hr.same q v hlast).symm
  simp only [Contained, handleMatMul_of_put hmat hdiv hneg hi hput]
  refine .inl ⟨?_, ?_, finishPartition_of_untracked h hr.untracked⟩
  · simp [incRspCbCount, finishPartition, hsame]
  · simp [incRspCbCount, finishPartition, hr.complete]

/-- A call that changed nothing repeated what was there. -/
theorem Unchanged.repeats (h : s.Inv)
    (hput : indexPutBlock (s.outputs i) oPtr rows msg.hDim.toNat msg.row msg.col msg.pivot
      s.blockSize = some (output, written))
    (hu : s.Unchanged ((({ s with outputs := update s.outputs i output } :
      ProxySvrImpl R).finishPartition msg.getPartitionKey).incRspCbCount i)) :
    s.Repeats msg i oPtr rows := by
  obtain ⟨hin, rfl, -, hcell⟩ := indexPutBlock_eq_some_iff.mp hput
  obtain ⟨hout, hcounts, hpart⟩ := hu
  have hpart : (s.partitions.markPartitionFinished msg.getPartitionKey).removePartitionByKey
    msg.getPartitionKey = s.partitions := hpart
  refine ⟨?_, ?_, hin, fun q v hv => ?_⟩
  · rw [← hpart]
    exact find_finishPartition h _
  · have := congrFun hcounts i
    simp only [incRspCbCount, finishPartition, update_self] at this
    omega
  · have hi := congrFun hout i
    simp only [incRspCbCount, finishPartition, update_self] at hi
    rw [← hi, hcell q, hv, Option.some_or]

theorem Answered.answersTracked (h : s.Inv) (hpos : 0 < msg.hDim)
    (hput : indexPutBlock (s.outputs i) oPtr rows msg.hDim.toNat msg.row msg.col msg.pivot
      s.blockSize = some (output, written)) (ha : s.Answered msg s' written i) :
    s.AnswersTracked msg i rows := by
  obtain ⟨hin, rfl, -, -⟩ := indexPutBlock_eq_some_iff.mp hput
  obtain ⟨info, hfind, hoid⟩ := ha.tracked
  have hplaced := h.placed_of_find hfind hoid ha.operation
  have hcount := ha.count
  exact ⟨ha.tracked, (hplaced.fits_iff oPtr (show 0 < msg.hDim.toNat by omega)).mpr ⟨hin, ha.block⟩,
    by omega⟩

end Contained

/-- An answer stays in the block that it answers, or changes nothing, exactly where it is
admissible. -/
theorem contained_iff (h : Reached s) (msg : Answer R) : s.Contained msg ↔ s.Admissible msg := by
  have hinv := h.inv
  constructor
  · intro hc
    cases hres : s.handleMatMul msg with
    | fault f => simp [Contained, hres] at hc
    | threw =>
      unfold handleMatMul at hres
      split at hres
      next => cases hres
      next oPtr oSize rest hmat =>
        split at hres
        next => cases hres
        next hdiv =>
          split at hres
          next hneg => exact ⟨oPtr, oSize, rest, hmat, hdiv, .inl hneg⟩
          next =>
            split at hres
            next => cases hres
            next => split at hres <;> cases hres
    | done s' written =>
      simp only [Contained, hres] at hc
      obtain ⟨oPtr, oSize, rest, i, output, hmat, hdiv, hnn, hi, hput, rfl⟩ :=
        handleMatMul_eq_done hres
      have hpos : 0 < msg.hDim := by
        unfold DivisionTraps at hdiv
        omega
      refine ⟨oPtr, oSize, rest, hmat, hdiv, .inr ⟨i, hi, ?_⟩⟩
      rcases hc with hu | ⟨j, ha⟩
      · exact .inr (hu.repeats hinv hput)
      · obtain rfl : i = j := Option.some.inj (hi.symm.trans ha.operation)
        exact .inl (ha.answersTracked hinv hpos hput)
  · rintro ⟨oPtr, oSize, rest, hmat, hdiv, hneg | ⟨i, hi, ha | hr⟩⟩
    · simp [Contained, handleMatMul, hmat, hdiv, hneg]
    · by_cases hneg : msg.hDim < 0
      · simp [Contained, handleMatMul, hmat, hdiv, hneg]
      · have hpos : 0 < msg.hDim := by
          unfold DivisionTraps at hdiv
          omega
        exact ha.contained hinv hmat hdiv hpos hi
    · by_cases hneg : msg.hDim < 0
      · simp [Contained, handleMatMul, hmat, hdiv, hneg]
      · exact hr.contained hinv hmat hdiv hneg hi

/-! ## A product of one element -/

/-- The product of two matrices of one element was dispatched as operation 0, with version 7. -/
def dispatched : ProxySvrImpl Int :=
  dispatchMatMulAsync { blockSize := 1, blockSize_pos := Nat.one_pos } ⟨[1, 1], [2], rfl⟩
    ⟨[1, 1], [3], rfl⟩ 7 id

/-- An answer of one element to operation 0, for the block `(0, 0)` of a version. -/
def oneElement (version : Nat) : Answer Int :=
  { version, row := 0, col := 0, pivot := 0, hDim := 1, devId := 0, oid := 0, gemmId := 0
    timestamp := 0, mat := [(fun _ => some 5, 4)] }

theorem reached_dispatched : Reached dispatched := by
  refine .dispatch (.init 1 (by decide)) _ _ 7 (fun _ => .rfl) fun out hout => ?_
  obtain rfl := Option.some.inj hout
  decide

/-- The place of operation 0. -/
def operationZero : Fin kMaxLifetimeOperationCount := ⟨0, by decide⟩

theorem operationIndex_zero : operationIndex 0 = some operationZero :=
  operationIndex_natCast (n := 0) (by decide)

theorem rspCbCounts_dispatched : dispatched.rspCbCounts operationZero = 1 := by decide +kernel

/-- The answer of another version belongs to no partition. It overwrites the output and is
counted. -/
theorem stray_not_contained : Reached dispatched ∧ ¬ dispatched.Contained (oneElement 8) := by
  refine ⟨reached_dispatched, fun hc => ?_⟩
  have hdone : (match dispatched.handleMatMul (oneElement 8) with
    | .done .. => true
    | _ => false) = true := by decide +kernel
  have hfind : (dispatched.partitions.find (oneElement 8).getPartitionKey).isNone = true := by
    decide +kernel
  unfold Contained at hc
  cases hres : dispatched.handleMatMul (oneElement 8) with
  | fault f => simp [hres] at hdone
  | threw => simp [hres] at hdone
  | done s' written =>
    rw [hres] at hc
    rcases hc with ⟨-, hcounts, -⟩ | ⟨i, ha⟩
    · obtain ⟨_, _, _, i, _, -, -, -, hi, -, rfl⟩ := handleMatMul_eq_done hres
      obtain rfl : i = operationZero := Option.some.inj (hi.symm.trans operationIndex_zero)
      have := congrFun hcounts operationZero
      simp [incRspCbCount, finishPartition, rspCbCounts_dispatched] at this
    · obtain ⟨info, hinfo, -⟩ := ha.tracked
      simp [hinfo] at hfind

/-- The product of two matrices of two rows was dispatched in blocks of one element. -/
def fourBlocks : ProxySvrImpl Int :=
  dispatchMatMulAsync { blockSize := 1, blockSize_pos := Nat.one_pos } ⟨[2, 2], [1, 2, 3, 4], rfl⟩
    ⟨[2, 2], [5, 6, 7, 8], rfl⟩ 7 id

/-- The answer for the block `(1, 0)`. -/
def lowerLeft : Answer Int := { oneElement 7 with row := 1, mat := [(fun _ => some 39, 4)] }

theorem contained_fourBlocks : fourBlocks.Contained lowerLeft := by
  have hreached : Reached fourBlocks := by
    refine .dispatch (.init 1 (by decide)) _ _ 7 (fun _ => .rfl) fun out hout => ?_
    obtain rfl := Option.some.inj hout
    decide
  have hfind : (fourBlocks.partitions.find lowerLeft.getPartitionKey).any (·.oid = 0) := by
    decide +kernel
  obtain ⟨info, hinfo, hoid⟩ : ∃ info,
      fourBlocks.partitions.find lowerLeft.getPartitionKey = some info ∧ info.oid = 0 := by
    simpa [Option.any_eq_true] using hfind
  exact (contained_iff hreached lowerLeft).mpr ⟨_, _, _, rfl, by decide,
    .inr ⟨operationZero, operationIndex_zero, .inl ⟨⟨info, hinfo, hoid⟩, by decide +kernel,
      by decide +kernel⟩⟩⟩

end ProxySvrImpl
end Morphling
