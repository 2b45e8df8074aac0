import Morphling.Gate.Barrier
import Morphling.Server.Response

/-!
# What becomes of operation ids (`proxy_svr.cpp`)

`DispatchMatMulAsync` with its gate, in runs of calls by any callers while devices join and leave.

* The call reserves its id before it cuts the operands and makes the output. Where there is nothing
  to cut it returns -1, and leading dimensions that differ make `CreateOutputMatrix` throw; the id
  is gone in both cases (`dispatchResult`).
* Without a device, the gate of `DYNAMIC` mode keeps a closure that makes the call once more, and
  the caller gets -1. The closure drops what the second call returns.
* `returned`, `failures` and `replayed` are not in the source: they record what callers got, for
  `Accounted`.

`accounted_iff`: all ids went to callers, and failed calls left no trace, exactly if calls that get
an id have operands that give an output with at least one block, and no closure is taken out of the
queue.

A registration that takes closures out of the queue runs them under the tracker's mutex, which they
lock again; nothing goes on after that (`halted`).
-/

namespace Morphling

open List

/-- How a call of `DispatchMatMulAsync` ends. -/
inductive Dispatched where
  | returned (oid : Int)
  /-- `CreateOutputMatrix` threw. -/
  | threw
  /-- The operands fail the assertion of `PartitionMatrices`, or are read out of bounds. -/
  | fault
  deriving DecidableEq, Repr

/-- The shapes `a` and `b` have a product with at least one block. -/
structure Multipliable (a b : List Nat) : Prop where
  rank : 2 ≤ b.length ∧ b.length ≤ a.length
  rows : 0 < rowDim a
  cols : 0 < rowDim b
  batch : 0 < (leading a).prod
  /-- `b` is one matrix, or it has one for each of `a`. -/
  same : b.length = 2 ∨ leading a = leading b

/-- `ProxySvrImpl::DispatchMatMulAsync` behind the gate, up to its result. -/
def ProxySvrImpl.dispatchResult {R : Type*} (s : ProxySvrImpl R) (matA matB : Tensor R)
    (uuid64 : Nat) : Dispatched :=
  if s.mmCount < kMaxLifetimeOperationCount then
    match partitionMatrices matA matB s.blockSize uuid64 with
    | none => .fault
    | some [] => .returned (-1)
    | some (_ :: _) =>
      match createOutputMatrix matA matB with
      | none => .threw
      | some _ => .returned s.mmCount
  else .returned (-1)

/-- The server with its gate, and what its callers got. -/
structure DispatchRun (R : Type*) where
  impl : ProxySvrImpl R
  tracker : DevicePartitionTracker := {}
  gate : Option (DispatchGate (Tensor R × Tensor R)) := none
  halted : Bool := false
  /-- The closures that `FlushQueue` has still to run. -/
  toFlush : List (Tensor R × Tensor R) := []
  /-- The ids that callers got, in order. -/
  returned : List Nat := []
  /-- The server before and after each call that returned -1 or threw. -/
  failures : List (ProxySvrImpl R × ProxySvrImpl R) := []
  /-- How many closures were taken out of the queue. -/
  replayed : Nat := 0

/-- How a dispatch leaves the gate. -/
inductive GateEntry (W : Type*) where
  | pass
  /-- The call returns -1. -/
  | refused (gate : DispatchGate W)
  /-- The call waits for room in the queue. -/
  | blocked

namespace DispatchRun

variable {R : Type*} (s : DispatchRun R)

/-- What happens next. A call that waits is one that comes later. -/
inductive Event (R : Type*) where
  | dispatchMatMulAsync (matA matB : Tensor R) (uuid64 : Nat)
      (shuffle : List (MatrixPartition DataPtr) → List (MatrixPartition DataPtr))
  /-- `FlushQueue` runs its next closure. -/
  | replay (uuid64 : Nat)
      (shuffle : List (MatrixPartition DataPtr) → List (MatrixPartition DataPtr))
  | flushQueue
  | registerDevice (connAddr : String) (uuid : Nat) (now : Int)
  | disconnectDevice (deviceId now : Int)
  | purgeDevice (deviceId : Int)
  | handleMatMul (msg : Answer R)
  /-- An operation on the partitions between their dispatch and their answer. -/
  | partitions (op : PartitionTracker.Op AnswerKey)

/-- The first part of `DispatchMatMulAsync`. `WaitForReady` gives up on a barrier not met. -/
def enter (matA matB : Tensor R) : GateEntry (Tensor R × Tensor R) :=
  match s.gate with
  | none => .pass
  | some g =>
    match g.mode with
    | .barrier => if g.barrierMet then .pass else .refused g
    | .dynamic =>
      if s.tracker.getConnectedDeviceCount = 0 then
        match g.enqueueWork (matA, matB) with
        | some g' => .refused g'
        | none => .blocked
      else .pass

/-- `DispatchMatMulAsync`; no result while it is blocked. -/
def dispatchMatMulAsync (matA matB : Tensor R) (uuid64 : Nat)
    (shuffle : List (MatrixPartition DataPtr) → List (MatrixPartition DataPtr)) :
    DispatchRun R × Option Dispatched :=
  match s.enter matA matB with
  | .pass =>
    let result := s.impl.dispatchResult matA matB uuid64
    ({ s with
        impl := s.impl.dispatchMatMulAsync matA matB uuid64 shuffle
        halted := result = .fault }, some result)
  | .refused g => ({ s with gate := some g }, some (.returned (-1)))
  | .blocked => (s, none)

/-- A caller has its result; `before` is the server at the call. -/
def record (before : ProxySvrImpl R) : Option Dispatched → DispatchRun R
  | some (.returned oid) =>
    if 0 ≤ oid then { s with returned := s.returned ++ [oid.toNat] }
    else { s with failures := s.failures ++ [(before, s.impl)] }
  | some .threw => { s with failures := s.failures ++ [(before, s.impl)] }
  | some .fault | none => s

/-- The next closure of `FlushQueue`. An exception ends the loop over them. -/
def replay (uuid64 : Nat)
    (shuffle : List (MatrixPartition DataPtr) → List (MatrixPartition DataPtr)) : DispatchRun R :=
  match s.toFlush with
  | [] => s
  | (matA, matB) :: rest =>
    match s.dispatchMatMulAsync matA matB uuid64 shuffle with
    | (_, none) => s
    | (s', some .threw) => { s' with toFlush := [] }
    | (s', some _) => { s' with toFlush := rest }

/-- The closures go from the gate to `FlushQueue`. -/
def flushQueue : DispatchRun R :=
  match s.gate with
  | none => s
  | some g =>
    { s with
      gate := some g.flushQueue.2
      toFlush := s.toFlush ++ g.flushQueue.1
      replayed := s.replayed + g.flushQueue.1.length }

def registerDevice (connAddr : String) (uuid : Nat) (now : Int) : DispatchRun R :=
  let (r, t) := s.tracker.registerDevice connAddr uuid now
  match s.gate with
  | none => { s with tracker := t }
  | some g =>
    if r.notifiesGate then
      let (closures, g') := g.notifyDeviceJoined
      { s with
        tracker := t
        gate := some g'
        halted := !closures.isEmpty
        replayed := s.replayed + closures.length }
    else { s with tracker := t }

def handleMatMul (msg : Answer R) : DispatchRun R :=
  match s.impl.handleMatMul msg with
  | .done impl _ => { s with impl := impl }
  | .threw => s
  | .fault _ => { s with halted := true }

def next (e : Event R) : DispatchRun R :=
  if s.halted then s else
  match e with
  | .dispatchMatMulAsync matA matB uuid64 shuffle =>
    let (s', result) := s.dispatchMatMulAsync matA matB uuid64 shuffle
    s'.record s.impl result
  | .replay uuid64 shuffle => s.replay uuid64 shuffle
  | .flushQueue => s.flushQueue
  | .registerDevice connAddr uuid now => s.registerDevice connAddr uuid now
  | .disconnectDevice deviceId now =>
    { s with tracker := s.tracker.disconnectDevice deviceId now }
  | .purgeDevice deviceId =>
    { s with
      tracker := s.tracker.purgeDevice deviceId
      gate :=
        if (s.tracker.devicesMap.lookup deviceId).isSome then
          s.gate.map DispatchGate.notifyDeviceLeft
        else s.gate }
  | .handleMatMul msg => s.handleMatMul msg
  | .partitions op =>
    { s with impl := { s.impl with partitions := s.impl.partitions.apply op } }

/-- A server that was just started, with the gate that `SetDispatchGate` got, if any. -/
def start (blockSize : Nat) (blockSize_pos : 0 < blockSize) (config : CircuitBreakerConfig)
    (gate : Option (DispatchGate (Tensor R × Tensor R))) : DispatchRun R where
  impl := { blockSize := blockSize, blockSize_pos := blockSize_pos }
  tracker := { circuitBreakerConfig := config }
  gate := gate

/-- Every id went to one caller, and a call that failed changed nothing and is not made again. -/
structure Accounted : Prop where
  ids : s.returned = List.range s.impl.mmCount
  unchanged : ∀ call ∈ s.failures, call.2 = call.1
  replayed : s.replayed = 0

/-- A call that passes the gate while there are ids has operands with a product, and no closure is
taken out of the queue. -/
def Accountable : Event R → Prop
  | .dispatchMatMulAsync matA matB _ _ =>
    s.halted = false → s.enter matA matB = .pass → s.impl.mmCount < kMaxLifetimeOperationCount →
      Multipliable matA.sizes matB.sizes
  | .flushQueue => s.halted = false → ∀ g, s.gate = some g → g.workQueue = []
  | .registerDevice connAddr uuid now =>
    s.halted = false → Fleet.Notifies s.tracker connAddr uuid now →
      ∀ g, s.gate = some g → g.mode = .dynamic → g.workQueue = []
  | _ => True

/-! ## The result of a call -/

variable {s} {matA matB : Tensor R} {uuid64 b : Nat}
  {shuffle : List (MatrixPartition DataPtr) → List (MatrixPartition DataPtr)}

theorem numBlocks_pos {dim : Nat} (hb : 0 < b) : 0 < numBlocks dim b ↔ 0 < dim := by
  constructor
  · intro h
    have := mul_lt_of_lt_numBlocks h
    omega
  · intro h
    exact Nat.lt_of_le_of_lt (Nat.zero_le _) (div_lt_numBlocks hb h)

/-- There is a block exactly if no extent of the output is zero. -/
theorem exists_partition_iff (hb : 0 < b) (uuid64 : Nat) :
    (∃ part parts, partitionMatrices matA matB b uuid64 = some (part :: parts)) ↔
      (2 ≤ matB.dim ∧ matB.dim ≤ matA.dim) ∧ 0 < rowDim matA.sizes ∧ 0 < rowDim matB.sizes ∧
        0 < (leading matA.sizes).prod := by
  constructor
  · rintro ⟨part, parts, h⟩
    obtain ⟨hrow, hcol, hpivot⟩ := mem_partitionMatrices h mem_cons_self
    have hrank : 2 ≤ matB.dim ∧ matB.dim ≤ matA.dim := by
      by_contra hrank
      simp [partitionMatrices, hrank] at h
    refine ⟨hrank, (numBlocks_pos hb).mp ?_, (numBlocks_pos hb).mp ?_, ?_⟩ <;> omega
  · rintro ⟨hrank, hrows, hcols, hbatch⟩
    have hr := (numBlocks_pos hb).mpr hrows
    have hc := (numBlocks_pos hb).mpr hcols
    -- The block in the first row, the first column and the first matrix of the batch.
    suffices h : ∃ ps, partitionMatrices matA matB b uuid64 = some ps ∧ ps ≠ [] by
      obtain ⟨ps, hps, hne⟩ := h
      obtain ⟨part, parts, rfl⟩ := exists_cons_of_ne_nil hne
      exact ⟨part, parts, hps⟩
    refine ⟨_, if_pos hrank, ?_⟩
    simp only [ne_eq, flatMap_eq_nil_iff, mem_range, not_forall]
    refine ⟨0, hr, 0, hc, ?_⟩
    split
    · simp
    · rename_i hdim
      have hlead : leading matA.sizes ≠ [] := by
        intro hnil
        have : (leading matA.sizes).length = 0 := by simp [hnil]
        simp only [leading, length_take] at this
        unfold Tensor.dim at *
        omega
      rw [mapIdx_eq_nil_iff, ← length_eq_zero_iff, length_cartesianProduct hlead]
      omega

/-- The output can be made exactly if the leading dimensions agree. -/
theorem exists_output_iff (hrank : 2 ≤ matB.dim ∧ matB.dim ≤ matA.dim) :
    (∃ out, createOutputMatrix matA matB = some out) ↔
      matB.dim = 2 ∨ leading matA.sizes = leading matB.sizes := by
  unfold createOutputMatrix
  dsimp only
  rw [if_neg (by omega)]
  by_cases hB : matB.dim = 2
  · by_cases hA : matA.dim = 2
    · simp [hA, hB]
    · have hA' : matA.dim > 2 := by omega
      simp [hA, hB, hA']
  · by_cases hlead : leading matA.sizes = leading matB.sizes <;> simp [hB, hlead]

theorem multipliable_iff (hb : 0 < b) (uuid64 : Nat) :
    Multipliable matA.sizes matB.sizes ↔
      (∃ part parts, partitionMatrices matA matB b uuid64 = some (part :: parts)) ∧
      ∃ out, createOutputMatrix matA matB = some out := by
  constructor
  · rintro ⟨hrank, hrows, hcols, hbatch, hsame⟩
    exact ⟨(exists_partition_iff hb uuid64).mpr ⟨hrank, hrows, hcols, hbatch⟩,
      (exists_output_iff hrank).mpr hsame⟩
  · rintro ⟨hparts, hout⟩
    obtain ⟨hrank, hrows, hcols, hbatch⟩ := (exists_partition_iff hb uuid64).mp hparts
    exact ⟨hrank, hrows, hcols, hbatch, (exists_output_iff hrank).mp hout⟩

/-- Operands with a product get the id. -/
theorem dispatchResult_eq (impl : ProxySvrImpl R) (hlt : impl.mmCount < kMaxLifetimeOperationCount)
    (h : Multipliable matA.sizes matB.sizes) :
    impl.dispatchResult matA matB uuid64 = .returned impl.mmCount := by
  obtain ⟨⟨part, parts, hparts⟩, out, hout⟩ := (multipliable_iff impl.blockSize_pos uuid64).mp h
  simp only [ProxySvrImpl.dispatchResult, hlt, if_true, hparts, hout]

/-- All others get none. -/
theorem multipliable_of_dispatchResult (impl : ProxySvrImpl R) {oid : Int} (hoid : 0 ≤ oid)
    (h : impl.dispatchResult matA matB uuid64 = .returned oid) :
    Multipliable matA.sizes matB.sizes := by
  unfold ProxySvrImpl.dispatchResult at h
  split at h
  · split at h
    · cases h
    · cases h
      omega
    · rename_i part parts hparts
      split at h
      · cases h
      · rename_i out hout
        exact (multipliable_iff impl.blockSize_pos uuid64).mpr ⟨⟨part, parts, hparts⟩, out, hout⟩
  · cases h
    omega

/-- The id is gone in any case. -/
theorem mmCount_dispatchMatMulAsync (impl : ProxySvrImpl R)
    (hlt : impl.mmCount < kMaxLifetimeOperationCount) :
    (impl.dispatchMatMulAsync matA matB uuid64 shuffle).mmCount = impl.mmCount + 1 := by
  simp only [ProxySvrImpl.dispatchMatMulAsync, hlt, dif_pos]
  split <;> rfl

/-- Without an id the call does nothing. -/
theorem dispatch_exhausted (impl : ProxySvrImpl R)
    (h : ¬impl.mmCount < kMaxLifetimeOperationCount) (matA matB : Tensor R) (uuid64 : Nat)
    (shuffle : List (MatrixPartition DataPtr) → List (MatrixPartition DataPtr)) :
    impl.dispatchMatMulAsync matA matB uuid64 shuffle = impl ∧
      impl.dispatchResult matA matB uuid64 = .returned (-1) :=
  ⟨dif_neg h, if_neg h⟩

theorem mmCount_handleMatMul {impl impl' : ProxySvrImpl R} {msg : Answer R}
    {written : List (Buffer.Write (Option R))} (h : impl.handleMatMul msg = .done impl' written) :
    impl'.mmCount = impl.mmCount := by
  unfold ProxySvrImpl.handleMatMul at h
  split at h
  · cases h
  · split at h
    · cases h
    · split at h
      · cases h
      · split at h
        · cases h
        · split at h
          · cases h
          · cases h
            rfl

/-! ## Steps -/

theorem returned_record (before : ProxySvrImpl R) (result : Option Dispatched)
    (h : ∀ oid, 0 ≤ oid → result ≠ some (.returned oid)) :
    (s.record before result).returned = s.returned := by
  unfold record
  split
  · rename_i oid
    rw [if_neg fun hoid => h oid hoid rfl]
  all_goals rfl

theorem record_fields (before : ProxySvrImpl R) (result : Option Dispatched) :
    (s.record before result).impl = s.impl ∧ (s.record before result).replayed = s.replayed ∧
      (s.record before result).toFlush = s.toFlush := by
  unfold record
  split
  · split <;> exact ⟨rfl, rfl, rfl⟩
  all_goals exact ⟨rfl, rfl, rfl⟩

/-- A failed call that changed nothing. -/
theorem Accounted.failed (h : s.Accounted) :
    (s.record s.impl (some (.returned (-1)))).Accounted where
  ids := h.ids
  unchanged := by
    intro call hcall
    rcases mem_append.mp hcall with hcall | hcall
    · exact h.unchanged call hcall
    · rw [mem_singleton.mp hcall]
  replayed := h.replayed

/-- A call of `DispatchMatMulAsync`, by the three ways out of the gate. -/
theorem accounted_dispatch (h : s.Accounted) :
    ((s.dispatchMatMulAsync matA matB uuid64 shuffle).1.record s.impl
      (s.dispatchMatMulAsync matA matB uuid64 shuffle).2).Accounted ↔
      (s.enter matA matB = .pass → s.impl.mmCount < kMaxLifetimeOperationCount →
        Multipliable matA.sizes matB.sizes) := by
  unfold dispatchMatMulAsync
  cases henter : s.enter matA matB with
  | blocked => simpa [record] using h
  | refused g =>
    simp only [reduceCtorEq, false_implies, iff_true]
    exact Accounted.failed (s := { s with gate := some g }) { h with }
  | pass =>
    simp only [true_implies]
    by_cases hlt : s.impl.mmCount < kMaxLifetimeOperationCount
    · simp only [hlt, true_implies]
      constructor
      · intro hacc
        by_contra hmul
        -- The id is used up, and nobody got it.
        have hids := congrArg List.length hacc.ids
        rw [returned_record s.impl (some (s.impl.dispatchResult matA matB uuid64))
            fun oid hoid heq =>
              hmul (multipliable_of_dispatchResult s.impl hoid (Option.some.inj heq)),
          (record_fields _ _).1, mmCount_dispatchMatMulAsync s.impl hlt, h.ids] at hids
        simp at hids
      · intro hmul
        rw [dispatchResult_eq s.impl hlt hmul]
        refine ⟨?_, ?_, ?_⟩
        · simp [record, mmCount_dispatchMatMulAsync s.impl hlt, h.ids, range_succ]
        · simpa [record] using h.unchanged
        · simpa [record] using h.replayed
    · obtain ⟨himpl, hresult⟩ := dispatch_exhausted s.impl hlt matA matB uuid64 shuffle
      simp only [hlt, false_implies, iff_true, himpl, hresult]
      exact Accounted.failed (s := { s with halted := _ }) { h with }

theorem closures_notifyDeviceJoined {W : Type*} (g : DispatchGate W) :
    g.notifyDeviceJoined.1 = [] ↔ (g.mode = .dynamic → g.workQueue = []) := by
  unfold DispatchGate.notifyDeviceJoined
  cases hmode : g.mode with
  | barrier =>
    dsimp only
    split <;> simp
  | dynamic => simp

theorem accounted_register (h : s.Accounted) (connAddr : String) (uuid : Nat) (now : Int) :
    (s.registerDevice connAddr uuid now).Accounted ↔
      (Fleet.Notifies s.tracker connAddr uuid now →
        ∀ g, s.gate = some g → g.mode = .dynamic → g.workQueue = []) := by
  unfold registerDevice
  cases hg : s.gate with
  | none => simpa using { h with }
  | some g =>
    by_cases hn : Fleet.Notifies s.tracker connAddr uuid now
    · simp only [(Fleet.registerDevice_notifies hn).1, if_true, hn, true_implies,
        Option.some.injEq, forall_eq', ← closures_notifyDeviceJoined]
      constructor
      · intro hacc
        exact length_eq_zero_iff.mp (Nat.add_eq_zero_iff.mp hacc.replayed).2
      · intro hnil
        exact { h with replayed := by simp [hnil, h.replayed] }
    · simp only [(Fleet.registerDevice_quiet s.tracker hn).1, Bool.false_eq_true, if_false, hn,
        false_implies, iff_true]
      exact { h with }

theorem accounted_flush (h : s.Accounted) :
    s.flushQueue.Accounted ↔ ∀ g, s.gate = some g → g.workQueue = [] := by
  unfold flushQueue
  cases hg : s.gate with
  | none => simpa using h
  | some g =>
    simp only [Option.some.injEq, forall_eq', DispatchGate.flushQueue]
    constructor
    · intro hacc
      exact length_eq_zero_iff.mp (Nat.add_eq_zero_iff.mp hacc.replayed).2
    · intro hnil
      exact { h with replayed := by simp [hnil, h.replayed] }

/-- A step keeps the account exactly if it meets the condition. -/
theorem accounted_next (h : s.Accounted) (hflush : s.toFlush = []) (e : Event R) :
    (s.next e).Accounted ↔ s.Accountable e := by
  unfold next
  cases hhalted : s.halted with
  | true => cases e <;> simpa [Accountable, hhalted] using h
  | false =>
    cases e with
    | dispatchMatMulAsync matA matB uuid64 shuffle =>
      simpa [Accountable, hhalted] using accounted_dispatch h
    | replay uuid64 shuffle => simpa [Accountable, replay, hflush] using h
    | flushQueue => simpa [Accountable, hhalted] using accounted_flush h
    | registerDevice connAddr uuid now =>
      simpa [Accountable, hhalted] using accounted_register h connAddr uuid now
    | disconnectDevice deviceId now => simpa [Accountable] using { h with }
    | purgeDevice deviceId => simpa [Accountable] using { h with }
    | handleMatMul msg =>
      simp only [Accountable, iff_true, Bool.false_eq_true, if_false, handleMatMul]
      split
      · rename_i impl written hdone
        exact { h with ids := by rw [h.ids, mmCount_handleMatMul hdone] }
      · exact h
      · exact { h with }
    | partitions op => simpa [Accountable] using { h with }

/-- Nothing waits to be run as long as nothing is taken out of the queue. -/
theorem toFlush_next (hflush : s.toFlush = []) {e : Event R} (he : s.Accountable e) :
    (s.next e).toFlush = [] := by
  unfold next
  cases hhalted : s.halted with
  | true => simpa using hflush
  | false =>
    simp only [Bool.false_eq_true, if_false]
    cases e with
    | dispatchMatMulAsync matA matB uuid64 shuffle =>
      rw [(record_fields _ _).2.2, dispatchMatMulAsync]
      split <;> exact hflush
    | replay uuid64 shuffle => simp [replay, hflush]
    | flushQueue =>
      simp only [flushQueue]
      split
      · exact hflush
      · rename_i g hg
        simp [hflush, DispatchGate.flushQueue, he hhalted g hg]
    | registerDevice connAddr uuid now =>
      simp only [registerDevice]
      split
      · exact hflush
      · split <;> exact hflush
    | handleMatMul msg =>
      simp only [handleMatMul]
      split <;> exact hflush
    | disconnectDevice deviceId now | purgeDevice deviceId | partitions op => exact hflush

/-! ## Runs -/

/-- The ids are accounted for in all states of a run exactly if its steps all meet the condition. -/
theorem accounted_iff (blockSize : Nat) (hb : 0 < blockSize) (config : CircuitBreakerConfig)
    (gate : Option (DispatchGate (Tensor R × Tensor R))) (es : List (Event R)) :
    Run.Always next Accounted (start blockSize hb config gate) es ↔
      Run.Along next Accountable (start blockSize hb config gate) es :=
  Run.always_iff_along (P := fun _ _ => True) (J := fun s => s.Accounted ∧ s.toFlush = [])
    (fun _ h => h.1)
    (fun _ e h _ he => ⟨(accounted_next h.1 h.2 e).mpr he, toFlush_next h.2 he⟩)
    (fun _ e h _ hacc => (accounted_next h.1 h.2 e).mp hacc)
    (Run.Along.of_forall fun _ _ => trivial)
    ⟨⟨rfl, fun _ h => absurd h not_mem_nil, rfl⟩, rfl⟩

/-- Zeros of some extents. -/
def zeros (sizes : List Nat) : Tensor Nat where
  sizes := sizes
  data := List.replicate sizes.prod 0
  size_eq := length_replicate

/-- A dispatch of zeros. -/
def dispatchZeros (a b : List Nat) : Event Nat := .dispatchMatMulAsync (zeros a) (zeros b) 1 id

/-- A product of two matrices. -/
theorem product_accounted :
    Run.Always next Accounted (start 2 (by decide) {} none) [dispatchZeros [2, 4] [2, 4]] :=
  (accounted_iff 2 (by decide) {} none _).mpr
    ⟨fun _ _ _ => ⟨by decide, by decide, by decide, by decide, .inl rfl⟩, trivial⟩

/-- No rows, leading dimensions that differ, and a call that is made again when a device joins. -/
theorem empty_not_accounted :
    ¬Run.Always next Accounted (start 2 (by decide) {} none) [dispatchZeros [0, 4] [2, 4]] ∧
    ¬Run.Always next Accounted (start 2 (by decide) {} none)
      [dispatchZeros [2, 2, 4] [3, 2, 4]] ∧
    ¬Run.Always next Accounted
      (start 2 (by decide) {} (some { mode := .dynamic, barrierCount := 0, maxQueueSize := 16 }))
      [dispatchZeros [2, 4] [2, 4], .registerDevice "a" 0 0] := by
  refine ⟨fun h => ?_, fun h => ?_, fun h => ?_⟩
  · exact absurd h.last.ids (by decide)
  · exact absurd h.last.ids (by decide)
  · exact absurd h.last.replayed (by decide)

end DispatchRun
end Morphling
