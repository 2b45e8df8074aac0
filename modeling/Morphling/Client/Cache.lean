import Morphling.Client.Lru
import Morphling.Wire.Codec

/-!
# The client's tensor cache (`proxy_cli.cpp`)

A client answers a partition by a product of two blocks. A block comes with the message or was sent
before, under the same key; the client keeps copies of the blocks, and the partitions that wait for
a block.

* `Memory`: the buffers of the client by their contents. A buffer that was freed, and the frame once
  it was drained, have arbitrary contents: `none`.
* `handleMatMul` and the functions it calls. A division by `h_dim = 0` ends the process: `none`.
* `HandlePartition` hands a copy of the partition, with its pointers, to a worker pool: `submitted`.
  Before, it allocates the output: `allocates` are the sizes for which it gets a buffer, from
  `cudaMallocManaged` or `malloc` as `ShouldUseGpu` decides. `cudaMallocManaged` fails for 0 bytes.

Other allocations succeed, there is a worker pool, and `assert` is off as in a release build. A
pointer stands for its whole block. Devices, logs and the statistics of the tracker are left out.
-/

namespace Morphling.Client

open Wire List

/-! ## Keys and memory -/

/-- `TensorKey`: version, pivot, row or column, and which of the two. -/
structure TensorKey where
  version : Nat
  pivot : Int
  index : Int
  isRow : Bool
  deriving DecidableEq, Repr

/-- `sizeof(TensorKey)`. -/
def sizeofTensorKey : Nat := 32

/-- What `GetPartitionKey` writes as a text: version, pivot, row and column. -/
structure PartitionText where
  version : Nat
  pivot : Int
  row : Int
  col : Int
  deriving DecidableEq, Repr

section Keys
variable {P : Type*} (p : WirePartition P)

def getRowKey : TensorKey := ⟨p.version, p.pivot, p.row, true⟩

def getColKey : TensorKey := ⟨p.version, p.pivot, p.col, false⟩

def getPartitionKey : PartitionText := ⟨p.version, p.pivot, p.row, p.col⟩

/-- A partition with other blocks. -/
def withMat {Q : Type*} (mat : List (Q × Int)) : WirePartition Q :=
  { version := p.version
    row := p.row
    col := p.col
    pivot := p.pivot
    hDim := p.hDim
    devId := p.devId
    oid := p.oid
    gemmId := p.gemmId
    timestamp := p.timestamp
    mat := mat }

end Keys

/-- A request for a partition: the fields, and the blocks that come with it; an empty block was
left out. -/
structure Request where
  fields : WirePartition Empty
  rowBytes : List UInt8
  colBytes : List UInt8
  deriving DecidableEq

/-- A pointer: into the frame with this number, or to a buffer from `malloc`. -/
inductive Ptr where
  | null
  | frame (seq : Nat) (isRow : Bool)
  | heap (n : Nat)
  deriving DecidableEq, Repr

/-- The buffers by their contents, the number of the last frame, and the frame unless it was
drained. -/
structure Memory where
  heap : List (Option (List UInt8)) := []
  seq : Nat := 0
  frame : Option Request := none

namespace Memory

variable (m : Memory)

/-- What is read at a pointer; `none` is anything. -/
def contents : Ptr → Option (List UInt8)
  | .null => none
  | .frame seq isRow =>
    if seq = m.seq then m.frame.map fun q => if isRow then q.rowBytes else q.colBytes else none
  | .heap n => m.heap[n]?.join

/-- `malloc` and `memcpy` of a block. -/
def copy (p : Ptr) : Memory × Ptr :=
  ({ m with heap := m.heap ++ [m.contents p] }, .heap m.heap.length)

def free : Ptr → Memory
  | .heap n => { m with heap := m.heap.set n none }
  | _ => m

def freeAll (ps : List Ptr) : Memory := ps.foldl free m

end Memory

/-! ## The client -/

/-- `CachedTensor`; nothing reads its rows and columns. -/
structure CachedTensor where
  data : Ptr
  bytes : Int
  deriving DecidableEq

/-- `ProxyCliImpl`, with the memory and the partitions that were handed to a worker pool. -/
structure ProxyCliImpl where
  cachedTensors : FixSizeLRUCache TensorKey CachedTensor
  cachedPartitions : List (WirePartition Ptr) := []
  memory : Memory := {}
  submitted : List (WirePartition Ptr) := []

/-- A new client; the source has `maxBytes = 8 GB`. -/
def ProxyCliImpl.init (maxBytes : Nat) : ProxyCliImpl :=
  { cachedTensors := { sizeofKey := sizeofTensorKey, maxBytes := maxBytes } }

/-- `partition.mat[i]`. -/
def matAt (p : WirePartition Ptr) (i : Nat) : Ptr × Int := p.mat.getD i (.null, 0)

/-- `size / h_dim / sizeof(float)`: the second division is one of `size_t`. -/
def extent (size hDim : Int) : Nat := (size.tdiv hDim % 2 ^ 64).toNat / 4

/-- `out_bytes` of `HandlePartition`, as the allocator gets it. -/
def outBytes (hDim rSize cSize : Int) : Nat :=
  extent rSize hDim * extent cSize hDim * 4 % 2 ^ 64

/-- `cudaMallocManaged` while there is memory. -/
def cudaMallocManaged (bytes : Nat) : Bool := 0 < bytes

/-- `HandlePartition` gets a buffer for the output of the partition. -/
def granted (allocates : Nat → Bool) (p : WirePartition Ptr) : Bool :=
  allocates (outBytes p.hDim (matAt p 0).2 (matAt p 1).2)

namespace ProxyCliImpl

variable (c : ProxyCliImpl)

def cacheTensor (key : TensorKey) (ptr : Ptr) (size hDim : Int) : ProxyCliImpl :=
  if c.cachedTensors.exist key then c
  else if ptr = .null then c
  else if size ≤ 0 then c
  else if hDim ≤ 0 then c
  else
    let (memory, cpyPtr) := c.memory.copy ptr
    let (cachedTensors, deleted) := c.cachedTensors.put key ⟨cpyPtr, size⟩ size.toNat
    -- The deleter of `cached_tensors_` frees `t.data`.
    { c with
      cachedTensors := cachedTensors
      memory := memory.freeAll (deleted.map CachedTensor.data) }

/-- One half of `FillPartition`: the block `i` from the cache. -/
def fillBlock (key : TensorKey) (i : Nat) (p : WirePartition Ptr) :
    ProxyCliImpl × WirePartition Ptr :=
  match c.cachedTensors.get key with
  | none => (c, p)
  | some (t, cachedTensors) =>
    ({ c with cachedTensors := cachedTensors }, { p with mat := p.mat.set i (t.data, t.bytes) })

def fillPartition (p : WirePartition Ptr) : ProxyCliImpl × WirePartition Ptr :=
  let (c, p) := c.fillBlock (getRowKey p) 0 p
  c.fillBlock (getColKey p) 1 p

def savePartition (p : WirePartition Ptr) : ProxyCliImpl :=
  { c with
    cachedPartitions := c.cachedPartitions ++ [{ p with mat := p.mat.map fun _ => (.null, 0) }] }

/-- `HandlePartition`: it divides by `h_dim`, allocates the output and submits. Without a buffer it
returns. -/
def handlePartition (allocates : Nat → Bool) (p : WirePartition Ptr) : Option ProxyCliImpl :=
  if p.hDim = 0 then none
  else if granted allocates p then some { c with submitted := c.submitted ++ [p] }
  else some c

/-- The first loop of `CheckCachedPartition`, over the partitions that wait: the partitions as it
leaves them, and the keys of those it handled. -/
def checkLoop (allocates : Nat → Bool) : List (WirePartition Ptr) → ProxyCliImpl →
    Option (ProxyCliImpl × List (WirePartition Ptr) × List PartitionText)
  | [], c => some (c, [], [])
  | p :: ps, c =>
    let (c, p) := c.fillPartition p
    if (matAt p 0).2 > 0 ∧ (matAt p 1).2 > 0 then do
      let c ← c.handlePartition allocates p
      let (c, ps, keys) ← checkLoop allocates ps c
      return (c, p :: ps, getPartitionKey p :: keys)
    else do
      let (c, ps, keys) ← checkLoop allocates ps c
      return (c, p :: ps, keys)

def checkCachedPartition (allocates : Nat → Bool) : Option ProxyCliImpl := do
  let (c, ps, keys) ← checkLoop allocates c.cachedPartitions c
  return { c with cachedPartitions := ps.filter (getPartitionKey · ∉ keys) }

/-- The part of `HandleMatMul` that caches the blocks of the message. -/
def cacheBlocks (p : WirePartition Ptr) : ProxyCliImpl :=
  let (rPtr, rSize) := matAt p 0
  let (cPtr, cSize) := matAt p 1
  let c := if rSize > 0 then c.cacheTensor (getRowKey p) rPtr rSize p.hDim else c
  if cSize > 0 then c.cacheTensor (getColKey p) cPtr cSize p.hDim else c

def handleMatMul (allocates : Nat → Bool) (p : WirePartition Ptr) : Option ProxyCliImpl :=
  let rSize := (matAt p 0).2
  let cSize := (matAt p 1).2
  -- `r_size / partition.h_dim`
  if p.hDim = 0 then none else do
  let c := c.cacheBlocks p
  let rCached := c.cachedTensors.exist (getRowKey p)
  let cCached := c.cachedTensors.exist (getColKey p)
  let (c, p) := c.fillPartition p
  let c ← c.checkCachedPartition allocates
  if rSize = 0 ∧ !rCached then return c.savePartition p
  if cSize = 0 ∧ !cCached then return c.savePartition p
  c.handlePartition allocates p

/-! ## Frames -/

end ProxyCliImpl

/-- The partition as it is read from the frame with number `seq`. -/
def Request.partition (q : Request) (seq : Nat) : WirePartition Ptr :=
  withMat q.fields [(.frame seq true, q.rowBytes.length), (.frame seq false, q.colBytes.length)]

/-- A partition without blocks has nothing but its fields. -/
theorem scalars_self (p : WirePartition Empty) : p.scalars = p := by
  have hmat : p.mat = [] := eq_nil_iff_forall_not_mem.mpr fun e => e.1.elim
  rw [WirePartition.scalars, ← hmat]

/-- The block that a request sends under a key. -/
def Request.block (q : Request) (k : TensorKey) : Option (List UInt8) :=
  if k = getRowKey q.fields ∧ q.rowBytes ≠ [] then some q.rowBytes
  else if k = getColKey q.fields ∧ q.colBytes ≠ [] then some q.colBytes
  else none

namespace ProxyCliImpl

variable (c : ProxyCliImpl)

/-- A frame is in the buffer. -/
def arrive (q : Request) : ProxyCliImpl :=
  { c with memory := { c.memory with seq := c.memory.seq + 1, frame := some q } }

/-- `RequestCb` up to the return of `HandleMatMul`. -/
def receive (allocates : Nat → Bool) (q : Request) : Option ProxyCliImpl :=
  (c.arrive q).handleMatMul allocates (q.partition (c.memory.seq + 1))

/-- The frame is drained. -/
def drain : ProxyCliImpl := { c with memory := { c.memory with frame := none } }

end ProxyCliImpl

/-! ## What memory keeps -/

namespace Memory

variable {m : Memory} {p p' : Ptr} {n : Nat}

theorem contents_of_length_le (h : m.heap.length ≤ n) : m.contents (.heap n) = none := by
  rw [contents, getElem?_eq_none h]
  rfl

theorem contents_copy_self : (m.copy p).1.contents (.heap m.heap.length) = m.contents p := by
  simp [contents, copy]

theorem contents_copy_of_ne (h : p' ≠ .heap m.heap.length) :
    (m.copy p).1.contents p' = m.contents p' := by
  cases p' with
  | null => rfl
  | frame seq isRow => rfl
  | heap n =>
    have hn : n ≠ m.heap.length := fun e => h (e ▸ rfl)
    rcases Nat.lt_or_gt_of_ne hn with hlt | hgt
    · simp only [contents, copy, getElem?_append_left hlt]
    · rw [contents_of_length_le hgt.le, contents_of_length_le]
      simpa [copy] using Nat.succ_le_of_lt hgt

theorem contents_free_self (n : Nat) : (m.free (.heap n)).contents (.heap n) = none := by
  simp only [contents, free, getElem?_set_self']
  cases m.heap[n]? <;> rfl

theorem contents_free_of_ne (h : p ≠ p') : (m.free p).contents p' = m.contents p' := by
  cases p with
  | null => rfl
  | frame seq isRow => rfl
  | heap n =>
    cases p' with
    | null => rfl
    | frame seq isRow => rfl
    | heap n' =>
      have hn : n ≠ n' := fun e => h (e ▸ rfl)
      simp only [contents, free, getElem?_set_ne hn]

theorem contents_free_eq_none (h : m.contents p' = none) : (m.free p).contents p' = none := by
  by_cases hp : p = p'
  · subst hp
    cases p with
    | heap n => exact contents_free_self n
    | null => exact h
    | frame seq isRow => exact h
  · rw [contents_free_of_ne hp, h]

variable {ps : List Ptr}

/-- Freeing leaves the frame, and the number of buffers. -/
theorem freeAll_fields (ps : List Ptr) :
    (m.freeAll ps).seq = m.seq ∧ (m.freeAll ps).frame = m.frame ∧
      (m.freeAll ps).heap.length = m.heap.length := by
  induction ps generalizing m with
  | nil => exact ⟨rfl, rfl, rfl⟩
  | cons p ps ih =>
    obtain ⟨hseq, hframe, hlen⟩ := ih (m := m.free p)
    rw [freeAll, foldl_cons, ← freeAll, hseq, hframe, hlen]
    cases p <;> simp [free]

theorem contents_freeAll_of_notMem (h : p ∉ ps) : (m.freeAll ps).contents p = m.contents p := by
  induction ps generalizing m with
  | nil => rfl
  | cons p' ps ih =>
    rw [mem_cons, not_or] at h
    exact (ih h.2).trans (contents_free_of_ne (Ne.symm h.1))

theorem contents_freeAll_eq_none (h : m.contents p = none) : (m.freeAll ps).contents p = none := by
  induction ps generalizing m with
  | nil => exact h
  | cons p' ps ih => exact ih (contents_free_eq_none h)

theorem contents_freeAll_of_mem (h : .heap n ∈ ps) : (m.freeAll ps).contents (.heap n) = none := by
  induction ps generalizing m with
  | nil => cases h
  | cons p ps ih =>
    rcases mem_cons.mp h with rfl | h
    · change ((m.free (.heap n)).freeAll ps).contents (.heap n) = none
      exact contents_freeAll_eq_none (contents_free_self n)
    · exact ih h

end Memory

end Morphling.Client
