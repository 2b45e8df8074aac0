import Mathlib.Data.Rat.Floor
import Morphling.Lib.Gemm
import Morphling.Lib.Streams
import Morphling.Matrix.Partition

/-!
# The GPU worker (`scheduler/gpu_worker.cpp`)

`RunChunkedGemm` multiplies on the GPU. With dynamic switching it cuts the output into chunks of
columns; before each chunk it reads how many SMs it may use, and changes to the context slot for
that number. The width of the next chunk comes from the time of the chunks so far.

What a call does depends on the readings of the source and on the measured times, and on nothing
that the device computes. So it is modelled as the list of its actions (`runChunkedGemm`);
`Action.cmds` are the commands of an action to the CUDA streams, and `GemmOp.run` is what an
operation does to the memory.

* Each slot has a stream, named by the slot's SM count.
* `FloatEnv.round` stands for the rounding of the double arithmetic, of which nothing is assumed.
* The creation of contexts, the allocator and the creation of the two events are left out.
-/

namespace Morphling

/-- `SmTargetSource::kNoChange`. -/
def kNoChange : Int := -1

/-! ## The worker -/

/-- `XtGemmWorker`: the slots by their SM counts, and the active one. -/
structure XtGemmWorker where
  smStep : Int
  partitionSmCount : Int
  contextSlots : List Int
  active : Int
  deriving DecidableEq, Repr

/-- `XtGemmWorker::DynConfig`. -/
structure DynConfig where
  enabled : Bool := false
  chunkTargetUs : Int := 500
  minChunkCols : Int := 64
  maxChunkCols : Int := 0
  minGemmChunkThreshold : Int := 0
  minDwellChunks : Int := 0
  deriving DecidableEq, Repr

namespace XtGemmWorker

/-- `SnapDown`. -/
def snapDown (w : XtGemmWorker) (target : Int) : Int :=
  if target ≤ 0 ∨ target ≥ w.partitionSmCount then w.partitionSmCount
  else
    w.contextSlots.foldl (fun best sms => if sms ≤ target ∧ sms > best then sms else best) w.smStep

/-- `SwitchContext`. -/
def switchContext (w : XtGemmWorker) (numSms : Int) : XtGemmWorker :=
  if numSms ∈ w.contextSlots then { w with active := numSms } else w

end XtGemmWorker

/-! ## A call -/

/-- `GemmArgs`; `c` is the host's buffer before the call. -/
structure GemmArgs (R : Type*) where
  transa : Char
  transb : Char
  m : Nat
  n : Nat
  k : Nat
  alpha : R
  a : List R
  lda : Nat
  b : List R
  ldb : Nat
  beta : R
  c : List R
  ldc : Nat

/-- `trans == 'N' || trans == 'n'`. -/
def isN (trans : Char) : Bool := trans = 'N' || trans = 'n'

/-- `CUDA_TRANS_OP`. -/
def cudaTransOp (trans : Char) : Blas.Trans := if isN trans then .n else .t

namespace GemmArgs

variable {R : Type*} (args : GemmArgs R)

def aElems : Nat := if isN args.transa then args.lda * args.k else args.lda * args.m

def bElems : Nat := if isN args.transb then args.ldb * args.n else args.ldb * args.k

def cElems : Nat := args.ldc * args.n

/-- `static_cast<int64_t>(m) * n * k`. -/
def work : Int := Int.bmod (args.m * args.n * args.k) (2 ^ 64)

end GemmArgs

/-- What a call to the GPU does, in order. -/
inductive Action where
  /-- A reading of the source; `before` and `after` are the active slots around it. -/
  | retarget (reading before after : Int)
  /-- `SwitchContext(partition_sm_count_)`. -/
  | useAll (before after : Int)
  /-- A copy to the device. -/
  | stageA (slot : Int)
  | stageB (slot : Int)
  | stageC (slot : Int)
  /-- `cudaStreamSynchronize`. -/
  | synchronize (slot : Int)
  /-- `cudaEventRecord` of `ev0` (`false`) or `ev1`. -/
  | eventRecord (slot : Int) (ev : Bool)
  /-- `run_chunk`: `cublasSgemm` and the copy back. -/
  | runChunk (slot : Int) (j cw : Nat)
  /-- `cudaEventSynchronize`. -/
  | eventSynchronize (ev : Bool)
  deriving DecidableEq, Repr

/-- Rounding of the double arithmetic. -/
structure FloatEnv where
  round : Rat → Rat

/-- `std::lround`: halves away from zero. -/
def lround (q : Rat) : Int := if 0 ≤ q then (q + 1 / 2).floor else (q - 1 / 2).ceil

/-- `static_cast<int>`. -/
def toInt32 (x : Int) : Int := Int.bmod x (2 ^ 32)

/-- The variables of the chunk loop. -/
structure ChunkLoop where
  worker : XtGemmWorker
  j : Nat
  cw : Int
  dwell : Int
  colsPerUs : Rat
  deriving DecidableEq, Repr

namespace ChunkLoop

/-- `cols_per_us` after a chunk of `cw` columns that took `ms` milliseconds. -/
def measure (env : FloatEnv) (l : ChunkLoop) (cw : Nat) (ms : Rat) : Rat :=
  let us := max (env.round (ms * 1000)) 1
  let inst := env.round (cw / us)
  if l.colsPerUs > 0 then
    env.round (env.round (1 / 2 * l.colsPerUs) + env.round (1 / 2 * inst))
  else inst

/-- The next chunk width. -/
def nextWidth (env : FloatEnv) (cfg : DynConfig) (colsPerUs : Rat) : Int :=
  let next := toInt32 (lround (env.round (colsPerUs * cfg.chunkTargetUs)))
  let next := max next cfg.minChunkCols
  if cfg.maxChunkCols > 0 then min next cfg.maxChunkCols else next

/-- `this_cw`. -/
def thisCw (l : ChunkLoop) (n : Nat) : Nat :=
  let cw := min l.cw (n - l.j)
  (if cw < 1 then 1 else cw).toNat

/-- The change of context at the start of an iteration. -/
def retarget (cfg : DynConfig) (l : ChunkLoop) (reading : Int) : List Action × ChunkLoop :=
  let want := l.worker.snapDown reading
  if want ≠ l.worker.active ∧ l.dwell ≥ cfg.minDwellChunks then
    let worker := l.worker.switchContext want
    ([.synchronize l.worker.active, .retarget reading l.worker.active worker.active],
      { l with worker := worker, dwell := 0 })
  else ([.retarget reading l.worker.active l.worker.active], l)

/-- `run_chunk` between its two events, and the wait for the second. -/
def timedChunk (slot : Int) (j cw : Nat) : List Action :=
  [.eventRecord slot false, .runChunk slot j cw, .eventRecord slot true, .eventSynchronize true]

/-- An iteration: `reading` is what the source returns and `ms` the time of the chunk. -/
def body (env : FloatEnv) (cfg : DynConfig) (n : Nat) (reading : Int) (ms : Rat) (l : ChunkLoop) :
    List Action × ChunkLoop :=
  let (acts, l) := l.retarget cfg reading
  let cw := l.thisCw n
  let colsPerUs := l.measure env cw ms
  (acts ++ timedChunk l.worker.active l.j cw,
    { l with
      j := l.j + cw
      dwell := toInt32 (l.dwell + 1)
      colsPerUs := colsPerUs
      cw := nextWidth env cfg colsPerUs })

/-- The loop, with a bound on its iterations; iteration `i` takes reading `i` and time `i`. -/
def run (env : FloatEnv) (cfg : DynConfig) (n : Nat) (readings : Nat → Int) (times : Nat → Rat) :
    Nat → Nat → ChunkLoop → Option (List Action × ChunkLoop)
  | fuel, i, l =>
    if n ≤ l.j then some ([], l)
    else match fuel with
      | 0 => none
      | fuel + 1 =>
        let (acts, l) := l.body env cfg n (readings i) (times i)
        (run env cfg n readings times fuel (i + 1) l).map fun (rest, l) => (acts ++ rest, l)

end ChunkLoop

/-- The copies to the device. -/
def stageActions {R : Type*} [Zero R] [DecidableEq R] (args : GemmArgs R) (slot : Int) :
    List Action :=
  [.stageA slot, .stageB slot] ++ if args.beta = 0 then [] else [.stageC slot]

section RunChunkedGemm
variable {R : Type*} [Zero R] [DecidableEq R] (env : FloatEnv) (cfg : DynConfig) (w : XtGemmWorker)

/-- The loop variables at the start, after the first reading. -/
def ChunkLoop.start (reading : Int) : ChunkLoop :=
  { worker := w.switchContext (w.snapDown reading)
    j := 0
    cw := max cfg.minChunkCols 1
    dwell := cfg.minDwellChunks
    colsPerUs := 0 }

/-- A call that is `chunked`. -/
def runChunks (readings : Nat → Int) (times : Nat → Rat) (args : GemmArgs R) :
    Option (List Action × XtGemmWorker) :=
  let l := ChunkLoop.start cfg w (readings 0)
  (l.run env cfg args.n (fun i => readings (i + 1)) times args.n 0).map fun (acts, l') =>
    (.retarget (readings 0) w.active l.worker.active :: stageActions args l.worker.active ++ acts ++
      [.synchronize l'.worker.active], l'.worker)

/-- A call that is not. -/
def runWhole (args : GemmArgs R) : List Action × XtGemmWorker :=
  let w' := w.switchContext w.partitionSmCount
  (.useAll w.active w'.active :: stageActions args w'.active ++ [.runChunk w'.active 0 args.n] ++
    [.synchronize w'.active], w')

/-- `RunChunkedGemm`: the actions and the worker after the call. `source` are the results of the
successive calls of `Read()`, and `times` the times of the chunks. -/
def runChunkedGemm (source : Option (Nat → Int)) (times : Nat → Rat) (args : GemmArgs R) :
    Option (List Action × XtGemmWorker) :=
  match source with
  | none => some (runWhole w args)
  | some readings =>
    if cfg.enabled ∧ args.work ≥ cfg.minGemmChunkThreshold then
      runChunks env cfg w readings times args
    else some (runWhole w args)

end RunChunkedGemm

/-! ## The device -/

/-- The operations on the streams. -/
inductive GemmOp where
  | copyA
  | copyB
  | copyC
  | gemm (j cw : Nat)
  | copyBack (j cw : Nat)
  deriving DecidableEq, Repr

/-- The commands of an action. -/
def Action.cmds : Action → List (Streams.Cmd Int Bool GemmOp)
  | .retarget _ _ _ => []
  | .useAll _ _ => []
  | .stageA slot => [.launch slot .copyA]
  | .stageB slot => [.launch slot .copyB]
  | .stageC slot => [.launch slot .copyC]
  | .synchronize slot => [.syncStream slot]
  | .eventRecord slot ev => [.record slot ev]
  | .runChunk slot j cw => [.launch slot (.gemm j cw), .launch slot (.copyBack j cw)]
  | .eventSynchronize ev => [.syncEvent ev]

/-- The buffers of a call: `C` of the host, and the three of the device. A cell of `C` may be
undefined. -/
structure GemmMem (R : Type*) where
  hostC : List (Option R)
  dA : List R
  dB : List R
  dC : List (Option R)

/-- The call of `cublasSgemm` in `run_chunk`. -/
def GemmArgs.chunkCall {R : Type*} (args : GemmArgs R) (mem : GemmMem R) (j cw : Nat) :
    Blas.Args R :=
  { transa := cudaTransOp args.transa
    transb := cudaTransOp args.transb
    m := args.m
    n := cw
    k := args.k
    alpha := args.alpha
    beta := args.beta
    a := mem.dA
    lda := args.lda
    b := mem.dB.drop (if isN args.transb then j * args.ldb else j)
    ldb := args.ldb
    c := mem.dC.drop (j * args.ldc)
    ldc := args.ldc }

/-- What an operation does; `none` where it would leave a buffer or `cublasSgemm` would refuse. -/
def GemmOp.run {R : Type*} [CommRing R] [DecidableEq R] (args : GemmArgs R) (mem : GemmMem R) :
    GemmOp → Option (GemmMem R)
  | .copyA => do
    let dA ← Buffer.memcpy elementSize mem.dA 0 args.a 0 (args.aElems * elementSize)
    return { mem with dA := dA }
  | .copyB => do
    let dB ← Buffer.memcpy elementSize mem.dB 0 args.b 0 (args.bElems * elementSize)
    return { mem with dB := dB }
  | .copyC => do
    let dC ← Buffer.memcpy elementSize mem.dC 0 mem.hostC 0 (args.cElems * elementSize)
    return { mem with dC := dC }
  | .gemm j cw => do
    let out ← Blas.gemm (args.chunkCall mem j cw)
    return { mem with dC := mem.dC.take (j * args.ldc) ++ out }
  | .copyBack j cw => do
    let hostC ← Buffer.memcpy elementSize mem.hostC (j * args.ldc * elementSize) mem.dC
      (j * args.ldc * elementSize) (cw * args.ldc * elementSize)
    return { mem with hostC := hostC }

/-- The same where an earlier operation may have failed. -/
def GemmOp.apply {R : Type*} [CommRing R] [DecidableEq R] (args : GemmArgs R) (op : GemmOp)
    (mem : Option (GemmMem R)) : Option (GemmMem R) :=
  mem.bind fun mem => op.run args mem

end Morphling
