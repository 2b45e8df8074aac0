import Mathlib.Data.List.Count
import Mathlib.Data.List.Nodup
import Morphling.Checkpoint.TensorHandle

/-!
# Transfers by priority (`archer_prio_aio_handle.cpp`, `archer_aio_thread.cpp`)

`Read` and `Write` cut a transfer into blocks, put the request into one of two queues, and wait until
its counter is zero. The scheduler thread takes requests from the queues and gives their blocks to
the I/O thread; a request of high priority at once, one of low priority block by block. The pool has
one I/O thread.

A step is a critical section, an atomic operation, a notification, or the call of a block.

* `Caller`, `Sched` with `Stage`, `Io`: where each thread is between two steps. A caller tests the
  counter with the mutex of its request, which no other thread takes; then it blocks, and a
  notification before that is forgotten. It may also wake up without one.
* A request is known by a number. The blocks in the queue of the I/O thread carry it.
* `began`, `notified` and `trace` are not in the source: they record what happened.

The end of the threads is left out, and so are the files and the results of the transfers.
-/

namespace Morphling
open List
open Checkpoint (alignUp kBlockSize)

namespace PrioAio

/-! ## Blocks -/

/-- A call of `ArcherReadFile` or `ArcherWriteFile` with its arguments. -/
structure AioCallback where
  readOp : Bool
  fd : Nat
  xferBuffer : Nat
  byteCount : Nat
  xferOffset : Nat
  deriving DecidableEq, Repr

/-- The arguments of `Read` and `Write`, with the descriptor of the file. The buffer of a write is
the copy in host memory. -/
structure Call where
  readOp : Bool
  fd : Nat
  buffer : Nat
  highPrio : Bool
  numBytes : Nat
  offset : Nat
  deriving DecidableEq, Repr

def prepIocbs (readOp : Bool) (buffer fd blockSize offset totalSize : Nat) : List AioCallback :=
  (Checkpoint.prepIocbs blockSize totalSize).map fun (shift, byteCount) =>
    ⟨readOp, fd, buffer + shift, byteCount, offset + shift⟩

/-- The blocks of a call. -/
def Call.blocks (c : Call) : List AioCallback :=
  prepIocbs c.readOp c.buffer c.fd kBlockSize c.offset (alignUp c.numBytes)

/-! ## Threads -/

/-- Where a call of `Read` or `Write` is. -/
inductive Caller where
  /-- There is no call yet. -/
  | absent
  /-- Before `AcceptRequest`. -/
  | accepting
  /-- Has the mutex, or is about to take it, and tests the counter. -/
  | testing
  /-- The counter was not zero; before it blocks. -/
  | blocking
  | blocked
  | returned
  deriving DecidableEq, Repr

/-- `AioRequest`, with its call. -/
structure AioRequest where
  call : Call := ⟨false, 0, 0, false, 0, 0⟩
  callbacks : List AioCallback := []
  pendingCallbacks : Int := 0
  caller : Caller := .absent
  /-- `notify_one` was called. -/
  notified : Bool := false
  deriving DecidableEq, Repr

/-- The request that `Read` and `Write` make. -/
def AioRequest.new (c : Call) : AioRequest where
  call := c
  callbacks := c.blocks
  pendingCallbacks := c.blocks.length
  caller := .accepting

/-- How far `Schedule` is with the request that it took. `high` tells its two branches apart. -/
inductive Stage where
  /-- In the loop over the blocks of a request of high priority. -/
  | enqueueAll
  /-- Before `Enqueue` of a block of low priority. -/
  | enqueueOne (cb : AioCallback)
  /-- In the loop of `Wait`. -/
  | wait (high : Bool)
  /-- Before `Wait` clears the queue. -/
  | clear (high : Bool)
  /-- Before the counter of the request is changed. -/
  | complete (high : Bool)
  /-- Before the counter is tested. -/
  | load
  | notify
  deriving DecidableEq, Repr

/-- Where the scheduler thread is. -/
inductive Sched where
  /-- Before `Schedule`. -/
  | idle
  | checkHigh
  | checkLow
  | on (r : Nat) (stage : Stage)
  /-- `back` of an empty vector was called: what follows is undefined. -/
  | undefined
  deriving DecidableEq, Repr

/-- Where the I/O thread is in `Run`. -/
inductive Io where
  | idle
  /-- In the call of a block. -/
  | running (r : Nat) (cb : AioCallback)
  /-- Before `pending_callbacks_` is decreased. -/
  | finished
  deriving DecidableEq, Repr

inductive Action where
  /-- `Enqueue`, and whether a request of high priority was queued when the pass began. -/
  | enqueue (r : Nat) (cb : AioCallback) (high began : Bool)
  | start (r : Nat) (cb : AioCallback)
  | finish (r : Nat) (cb : AioCallback)
  deriving DecidableEq, Repr

end PrioAio

open PrioAio

/-- `ArcherPrioAioHandle` with its threads. -/
structure PrioAio where
  requests : Nat → AioRequest := fun _ => {}
  ioQueueHigh : List Nat := []
  ioQueueLow : List Nat := []
  sched : Sched := .idle
  /-- A request of high priority was queued when the pass began. -/
  began : Bool := false
  /-- `ArcherAioThread::callbacks_`. -/
  callbacks : List (Nat × AioCallback) := []
  pendingCallbacks : Int := 0
  io : Io := .idle
  trace : List Action := []

namespace PrioAio

variable (s : PrioAio)

def modify (r : Nat) (f : AioRequest → AioRequest) : PrioAio :=
  { s with requests := Function.update s.requests r (f (s.requests r)) }

/-- `ArcherAioThread::Enqueue`. -/
def enqueue (r : Nat) (cb : AioCallback) (high : Bool) : PrioAio :=
  { s with
    callbacks := s.callbacks ++ [(r, cb)]
    pendingCallbacks := s.pendingCallbacks + 1
    trace := s.trace ++ [.enqueue r cb high s.began] }

/-- The next step with the request that `Schedule` took. -/
def scheduleOn (r : Nat) : Stage → PrioAio
  | .enqueueAll =>
    match (s.requests r).callbacks with
    -- `Enqueue` moves the block out of the vector.
    | cb :: cbs => (s.modify r fun q => { q with callbacks := cbs }).enqueue r cb true
    | [] => { s with sched := .on r (.wait true) }
  | .enqueueOne cb => { s.enqueue r cb false with sched := .on r (.wait false) }
  | .wait high => if s.pendingCallbacks = 0 then { s with sched := .on r (.clear high) } else s
  | .clear high => { s with callbacks := [], sched := .on r (.complete high) }
  | .complete true =>
    { s.modify r fun q => { q with callbacks := [], pendingCallbacks := 0 } with
      sched := .on r .notify }
  | .complete false =>
    { s.modify r fun q => { q with pendingCallbacks := q.pendingCallbacks - 1 } with
      sched := .on r .load }
  | .load =>
    { s with sched := if (s.requests r).pendingCallbacks = 0 then .on r .notify else .idle }
  | .notify =>
    { s.modify r fun q =>
        { q with notified := true, caller := if q.caller = .blocked then .testing else q.caller } with
      sched := .idle }

/-- The next step of the scheduler thread. -/
def schedule : PrioAio :=
  match s.sched with
  | .idle => { s with sched := .checkHigh, began := !s.ioQueueHigh.isEmpty }
  | .checkHigh =>
    match s.ioQueueHigh with
    | r :: rest => { s with ioQueueHigh := rest, sched := .on r .enqueueAll }
    | [] => { s with sched := .checkLow }
  | .checkLow =>
    match s.ioQueueLow with
    | [] => { s with sched := .idle }
    | r :: rest =>
      match (s.requests r).callbacks.getLast? with
      | none => { s with sched := .undefined }
      | some cb =>
        let cbs := (s.requests r).callbacks.dropLast
        { s.modify r fun q => { q with callbacks := cbs } with
          ioQueueLow := if cbs.isEmpty then rest else r :: rest
          sched := .on r (.enqueueOne cb) }
  | .on r stage => s.scheduleOn r stage
  | .undefined => s

/-- The next step of the I/O thread. -/
def run : PrioAio :=
  match s.io with
  | .idle =>
    match s.callbacks with
    | [] => s
    | (r, cb) :: rest =>
      { s with callbacks := rest, io := .running r cb, trace := s.trace ++ [.start r cb] }
  | .running r cb => { s with io := .finished, trace := s.trace ++ [.finish r cb] }
  | .finished => { s with pendingCallbacks := s.pendingCallbacks - 1, io := .idle }

/-- `Read` and `Write` up to `AcceptRequest`. -/
def prepare (r : Nat) (c : Call) : PrioAio := s.modify r fun _ => .new c

def acceptRequest (r : Nat) : PrioAio :=
  let s' := s.modify r fun q => { q with caller := .testing }
  if (s.requests r).call.highPrio then { s' with ioQueueHigh := s.ioQueueHigh ++ [r] }
  else { s' with ioQueueLow := s.ioQueueLow ++ [r] }

/-- What happens next. -/
inductive Event where
  | call (r : Nat) (c : Call)
  | accept (r : Nat)
  /-- A caller tests the counter of its request. -/
  | test (r : Nat)
  /-- A caller gives up the mutex and blocks. -/
  | block (r : Nat)
  /-- A blocked caller wakes up without a notification. -/
  | wake (r : Nat)
  | schedule
  | run
  deriving DecidableEq, Repr

/-- A step. An event that cannot happen changes nothing. -/
def next (s : PrioAio) : Event → PrioAio
  | .call r c => if (s.requests r).caller = .absent then s.prepare r c else s
  | .accept r => if (s.requests r).caller = .accepting then s.acceptRequest r else s
  | .test r =>
    if (s.requests r).caller = .testing then
      s.modify r fun q =>
        { q with caller := if q.pendingCallbacks = 0 then .returned else .blocking }
    else s
  | .block r =>
    if (s.requests r).caller = .blocking then s.modify r fun q => { q with caller := .blocked } else s
  | .wake r =>
    if (s.requests r).caller = .blocked then s.modify r fun q => { q with caller := .testing } else s
  | .schedule => s.schedule
  | .run => s.run

/-! ## Lemmas about the blocks of a call -/

/-- The block moves byte `x` of the call. -/
def AioCallback.moves (c : Call) (x : Nat) (cb : AioCallback) : Bool :=
  decide (cb.xferOffset ≤ c.offset + x ∧ c.offset + x < cb.xferOffset + cb.byteCount)

/-- A block is a part of the transfer: as far into the buffer as into the file. -/
structure AioCallback.PartOf (c : Call) (cb : AioCallback) : Prop where
  readOp : cb.readOp = c.readOp
  fd : cb.fd = c.fd
  place : ∃ shift, cb.xferBuffer = c.buffer + shift ∧ cb.xferOffset = c.offset + shift ∧
    shift + cb.byteCount ≤ alignUp c.numBytes

/-- Blocks without gap and overlap. -/
structure Tiles (c : Call) (cbs : List AioCallback) : Prop where
  partOf : ∀ cb ∈ cbs, cb.PartOf c
  once : ∀ x, cbs.countP (AioCallback.moves c x) = if x < alignUp c.numBytes then 1 else 0

theorem nIocbs_bounds {b : Nat} (hb : 0 < b) (total i : Nat) :
    i < total / b + (if total % b > 0 then 1 else 0) ↔ i * b < total := by
  have hdm := Nat.div_add_mod' total b
  have hlt := Nat.mod_lt total hb
  rcases Nat.lt_or_ge i (total / b) with hi | hi
  · have := Nat.mul_le_mul_right b hi
    rw [Nat.succ_mul] at this
    constructor <;> intro <;> omega
  · have := Nat.mul_le_mul_right b hi
    split
    · rcases Nat.eq_or_lt_of_le hi with rfl | hi
      · constructor <;> intro <;> omega
      · have := Nat.mul_le_mul_right b hi
        rw [Nat.succ_mul] at this
        constructor <;> intro <;> omega
    · constructor <;> intro <;> omega

/-- Block `i` covers the bytes from `i * blockSize` on, to the next block or to the end. -/
theorem prepIocbs_eq_map (readOp : Bool) (buffer fd offset total : Nat) {b : Nat} (hb : 0 < b) :
    ∃ n, (∀ i, i < n ↔ i * b < total) ∧ prepIocbs readOp buffer fd b offset total =
      (List.range n).map fun i =>
        ⟨readOp, fd, buffer + i * b, min b (total - i * b), offset + i * b⟩ := by
  refine ⟨_, nIocbs_bounds hb total, ?_⟩
  rw [prepIocbs, Checkpoint.prepIocbs, map_map]
  refine map_congr_left fun i _ => ?_
  dsimp only [Function.comp_apply]
  congr 1
  split <;> omega

theorem kBlockSize_pos : 0 < kBlockSize := by decide

theorem Call.tiles (c : Call) : Tiles c c.blocks := by
  obtain ⟨n, hn, heq⟩ := prepIocbs_eq_map c.readOp c.buffer c.fd c.offset (alignUp c.numBytes)
    kBlockSize_pos
  rw [Call.blocks, heq]
  refine ⟨fun cb hcb => ?_, fun x => ?_⟩
  · obtain ⟨i, hi, rfl⟩ := mem_map.mp hcb
    have := (hn i).mp (mem_range.mp hi)
    exact ⟨rfl, rfl, _, rfl, rfl, by dsimp only; omega⟩
  · -- block `i` moves byte `x` exactly if `i` is `x / kBlockSize`
    have hmoves : ∀ i, AioCallback.moves c x ⟨c.readOp, c.fd, c.buffer + i * kBlockSize,
        min kBlockSize (alignUp c.numBytes - i * kBlockSize), c.offset + i * kBlockSize⟩ = true ↔
        i = x / kBlockSize ∧ x < alignUp c.numBytes := by
      intro i
      have hdm := Nat.div_add_mod' x kBlockSize
      have hlt := Nat.mod_lt x kBlockSize_pos
      simp only [AioCallback.moves, decide_eq_true_eq]
      constructor
      · rintro ⟨h₁, h₂⟩
        refine ⟨?_, by omega⟩
        rw [eq_comm, Nat.div_eq_iff kBlockSize_pos]
        omega
      · rintro ⟨rfl, hx⟩
        omega
    rw [countP_map]
    split
    next hx =>
      have hmem : x / kBlockSize ∈ List.range n := by
        rw [mem_range, hn]
        exact Nat.lt_of_le_of_lt (Nat.div_mul_le_self _ _) hx
      rw [← count_eq_one_of_mem nodup_range hmem, List.count]
      refine countP_congr fun i _ => ?_
      rw [Function.comp_apply, hmoves, beq_iff_eq, and_iff_left hx]
    next hx =>
      refine countP_eq_zero.mpr fun i _ => ?_
      rw [Function.comp_apply, hmoves]
      exact fun h => hx h.2

theorem Call.nodup_blocks (c : Call) : c.blocks.Nodup := by
  obtain ⟨n, -, heq⟩ := prepIocbs_eq_map c.readOp c.buffer c.fd c.offset (alignUp c.numBytes)
    kBlockSize_pos
  rw [Call.blocks, heq]
  refine List.Nodup.map (fun i j hij => ?_) nodup_range
  have h : i * kBlockSize = j * kBlockSize := by
    have := congrArg AioCallback.xferOffset hij
    exact Nat.add_left_cancel this
  exact Nat.eq_of_mul_eq_mul_right kBlockSize_pos h

theorem Call.blocks_eq_nil {c : Call} : c.blocks = [] ↔ c.numBytes = 0 := by
  obtain ⟨n, hn, heq⟩ := prepIocbs_eq_map c.readOp c.buffer c.fd c.offset (alignUp c.numBytes)
    kBlockSize_pos
  have hpos := hn 0
  have halign : 0 < alignUp c.numBytes ↔ c.numBytes ≠ 0 := by
    unfold alignUp Checkpoint.kAioAlignment
    omega
  rw [Call.blocks, heq, map_eq_nil_iff, range_eq_nil]
  rw [Nat.zero_mul] at hpos
  omega

end PrioAio
end Morphling
