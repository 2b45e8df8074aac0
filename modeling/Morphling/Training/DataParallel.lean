import Morphling.Lib.AllReduce
import Mathlib.Algebra.Module.BigOperators
import Mathlib.Algebra.Module.Rat

/-!
# Data-parallel training (`_multi_coordinator_workload.py`)

The coordinators train copies of one model on the shards of a batch. After each backward pass they sum
their gradients and divide them by their number, either parameter by parameter (`blocking`) or from
hooks, while the backward pass still runs (`overlapped`). The golden run trains on the whole batch.

* `Model`: the loss and the gradients of a sample. A parameter that the graph of a sample does not use
  has no gradient from it, and one that no sample of a batch uses has `grad is None`.
* `nativeRun`: `_native_losses`, from iteration to iteration.
* `rankTask`: an iteration of `_distributed_losses` as a process of `AllReduce`. The runs of the group
  are all interleavings of the ranks and all orders in which the works complete.

Tensors are exact, and all of one type. What a rank measures is left out.
-/

namespace Morphling.DataParallel

open AllReduce (Task Proc Op)

/-- `model.parameters()`, and what a sample gives to the loss and to the gradients. -/
structure Model (P S T : Type) where
  parameters : List P
  nodup : parameters.Nodup
  complete : ∀ p, p ∈ parameters
  requiresGrad : P → Bool
  sampleLoss : (P → T) → S → T
  sampleGrad : (P → T) → S → P → Option T
  frozen : ∀ θ s p, requiresGrad p = false → sampleGrad θ s p = none

/-- A function of its state, of the parameters and of the gradients. -/
structure Optimizer (P T O : Type) where
  init : O
  step : O → (P → T) → (P → Option T) → O × (P → T)

/-- The fields of `ScalingConfig` that a run reads. -/
structure ScalingConfig where
  coordinators : Nat
  localBatch : Nat
  warmupIterations : Nat
  measuredIterations : Nat

def ScalingConfig.iterations (config : ScalingConfig) : Nat :=
  config.warmupIterations + config.measuredIterations

section Backward

variable {P S T : Type} [AddCommGroup T] [Module ℚ T] (model : Model P S T)

/-- The sum of some terms over the size of a batch. -/
def mean (n : Nat) (terms : List T) : T := (n : ℚ)⁻¹ • terms.sum

/-- The loss of a batch: the mean of the losses of its samples. -/
def Model.loss (θ : P → T) (batch : List S) : T :=
  mean batch.length (batch.map (model.sampleLoss θ))

/-- `parameter.grad` after `zero_grad` and `loss.backward()`. -/
def Model.backward (θ : P → T) (batch : List S) (p : P) : Option T :=
  match batch.filterMap fun s => model.sampleGrad θ s p with
  | [] => none
  | grads => some (mean batch.length grads)

end Backward

/-- A workload: a model with its optimizer, the first parameters, the global batch, and the order in
which a backward pass accumulates the gradients. -/
structure Workload (P S T O : Type) [AddCommGroup T] [Module ℚ T] where
  model : Model P S T
  optimizer : Optimizer P T O
  params : P → T
  config : ScalingConfig
  batch : List S
  hookOrder : (P → T) → List S → List P
  coordinators_pos : 0 < config.coordinators
  localBatch_pos : 0 < config.localBatch
  length_batch : batch.length = config.coordinators * config.localBatch
  /-- The hook of a parameter runs once where the pass gives it a gradient. -/
  hookOrder_perm : ∀ θ b, (hookOrder θ b).Perm
    (model.parameters.filter fun p => (model.backward θ b p).isSome)

/-- What a run has after some iterations. -/
structure Training (P T O : Type) where
  step : Nat
  optimizer : O
  params : P → T
  losses : List T

/-- The tensors that are reduced. -/
inductive Slot (P : Type) where
  | grad (p : P)
  | loss
  deriving DecidableEq

namespace Workload

variable {P S T O : Type} [AddCommGroup T] [Module ℚ T] (w : Workload P S T O)

def start : Training P T O where
  step := 0
  optimizer := w.optimizer.init
  params := w.params
  losses := []

/-- The end of an iteration: the loss is recorded after the warm-up, and the optimizer steps. -/
def endIteration (t : Training P T O) (loss : T) (grads : P → Option T) : Training P T O :=
  let (optimizer, params) := w.optimizer.step t.optimizer t.params grads
  { step := t.step + 1
    optimizer
    params
    losses := if t.step ≥ w.config.warmupIterations then t.losses ++ [loss] else t.losses }

/-- `_native_losses`: the golden run after `n` iterations. -/
def nativeRun : Nat → Training P T O
  | 0 => w.start
  | n + 1 =>
    let t := nativeRun n
    w.endIteration t (w.model.loss t.params w.batch) (w.model.backward t.params w.batch)

/-- The samples of a rank: `inputs[lower : lower + local_batch]`. -/
def shard (rank : Fin w.config.coordinators) : List S :=
  let lower := rank * w.config.localBatch
  (w.batch.drop lower).take w.config.localBatch

/-- `_reduce_gradients_blocking` -/
def reduceGradientsBlocking (θ : P → T) (b : List S) : List (AllReduce.Action (Slot P)) :=
  w.model.parameters.flatMap fun p =>
    if (w.model.backward θ b p).isSome then [.launch (.grad p), .finish] else []

/-- The hooks of `_register_async_gradient_reduction`, in the order of the backward pass. -/
def hooks (θ : P → T) (b : List S) : List P :=
  (w.hookOrder θ b).filter fun p => w.model.requiresGrad p

/-- The hooks launch, and `_finish_async_gradient_reduction` waits. -/
def reduceGradientsAsync (θ : P → T) (b : List S) : List (AllReduce.Action (Slot P)) :=
  (w.hooks θ b).map (.launch ∘ .grad) ++ (w.hooks θ b).map fun _ => .finish

/-- All that an iteration reduces: the gradients, then `global_loss`. -/
def program (overlap : Bool) (θ : P → T) (b : List S) : List (AllReduce.Action (Slot P)) :=
  (if overlap then w.reduceGradientsAsync θ b else w.reduceGradientsBlocking θ b) ++
    [.launch .loss, .finish]

/-- The tensors of a rank after its backward pass. -/
def tensors (θ : P → T) (b : List S) : Slot P → Option T
  | .grad p => w.model.backward θ b p
  | .loss => some (w.model.loss θ b)

/-- `_distributed_losses` of a rank. -/
def rankTask (overlap : Bool) (rank : Fin w.config.coordinators) :
    Task (Training P T O) (Slot P) T where
  program t := w.program overlap t.params (w.shard rank)
  tensors t := w.tensors t.params (w.shard rank)
  next t tensors := w.endIteration t ((tensors .loss).getD 0) fun p => tensors (.grad p)

/-- `/= coordinators` -/
def average (v : T) : T := (w.config.coordinators : ℚ)⁻¹ • v

/-- The ranks. -/
def group (overlap : Bool) : AllReduce.Group (Fin w.config.coordinators) (Training P T O) (Slot P) T where
  task := w.rankTask overlap
  after := w.average
  total := w.config.iterations

/-- The ranks after some steps. -/
def distributedRun [DecidableEq P] (overlap : Bool) (ops : List (Op (Fin w.config.coordinators))) :
    Fin w.config.coordinators → Proc (Training P T O) (Slot P) T :=
  (w.group overlap).run w.start ops

end Workload
end Morphling.DataParallel
