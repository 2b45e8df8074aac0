import Morphling.Lib.Failing
import Morphling.Hooks.Torch

/-!
# The hooks (`hooks/autograd.py`)

`LinearFunction` sends the product of a linear layer to the backend, and the two products of its
gradient. `apply_hooks('linear')` puts it in the place of four operations (`Entry`).

The backend takes two tensors and returns an operation id and the result that `wait_matmul` gives
for it. What is assumed about it is in `Backend.Multiplies`: it reads both operands from their
`data_ptr()` in row-major order, and the result is `A * Bᵀ`.

`_greenctx` is `None`, which `apply_hooks('linear')` sets; the log of the products is left out.
-/

namespace Morphling

open Index

variable {R : Type*} [CommRing R]

/-- What a hook raises. -/
inductive HookError where
  /-- `RuntimeError` of `_wait_for_dispatched_matmul`. -/
  | dispatch (phase : String) (oid : Int)
  /-- PyTorch refuses the shapes. -/
  | shape
  /-- `AssertionError` of the verification of a value. -/
  | notClose (name : String)
  /-- `TypeError`: `forward` misses an operand. -/
  | missingArgument
  deriving DecidableEq, Repr

/-- `async_dispatch_matmul`: the operation id, and what `wait_matmul` returns for it. -/
abbrev Backend (R : Type*) := StridedTensor R → StridedTensor R → Int × Tensor R

/-- `A * Bᵀ` for operands that are read without their strides: `A` is a batch of matrices, `B` is
one matrix or a batch of the same extents. -/
def multiply (a b : StridedTensor R) : Option (Tensor R) :=
  if 2 ≤ a.dim ∧ 2 ≤ b.dim ∧ (b.dim = 2 ∨ leading b.sizes = leading a.sizes) ∧
      colDim a.sizes = colDim b.sizes then
    some (.product (leading a.sizes) (rowDim a.sizes) (rowDim b.sizes) (colDim a.sizes)
      (fun l i h => a.raw.get (l ++ [i, h]))
      fun l h j => b.raw.get ((if b.dim = 2 then [] else l) ++ [j, h]))
  else none

/-- The backend returns the product of these operands, if they have one. -/
def Backend.Multiplies (backend : Backend R) (a b : StridedTensor R) : Prop :=
  ∀ r, multiply a b = some r → 0 ≤ (backend a b).1 ∧ (backend a b).2 = r

/-- The module's `_enable_verification`, and `torch.allclose`. -/
structure Settings (R : Type*) where
  enableVerification : Bool := false
  allclose : Tensor R → Tensor R → Bool

/-- `_wait_for_dispatched_matmul`. -/
def waitForDispatchedMatmul (dispatched : Int × Tensor R) (phase : String) :
    Except HookError (Tensor R) :=
  if dispatched.1 < 0 then .error (.dispatch phase dispatched.1) else .ok dispatched.2

/-- The error of an operation that refuses the shapes. -/
def orShape {α : Type*} : Option α → Except HookError α
  | some a => .ok a
  | none => .error .shape

@[simp] theorem orShape_eq_ok {α : Type*} {o : Option α} {a : α} :
    orShape o = .ok a ↔ o = some a := by
  cases o <;> simp [orShape]

/-- `output + bias.unsqueeze(0).expand_as(output)`. -/
def addBias (output : Tensor R) : Option (StridedTensor R) → Except HookError (Tensor R)
  | none => .ok output
  | some bias => do
    let expanded ← orShape (bias.values.unsqueeze.expand output.sizes)
    return output.add expanded

/-- `assert torch.allclose(value, ref)`; the value, if the assertion holds. -/
def assertClose (settings : Settings R) (name : String) (value ref : Tensor R) :
    Except HookError (Tensor R) :=
  if settings.allclose value ref then .ok value else .error (.notClose name)

omit [CommRing R] in
theorem eq_of_assertClose {settings : Settings R} {name : String} {value ref r : Tensor R}
    (h : assertClose settings name value ref = .ok r) : value = r := by
  unfold assertClose at h
  split at h
  · exact Except.ok.inj h
  · cases h

/-- `_reference_grad_input`. -/
def referenceGradInput (gradOutput weight : Tensor R) : Except HookError (Tensor R) :=
  orShape (gradOutput.matmul weight)

namespace LinearFunction

/-- `LinearFunction.forward`. The weight is taken as `[in, out]`. -/
def forward (settings : Settings R) (backend : Backend R) (input weight : StridedTensor R)
    (bias : Option (StridedTensor R)) : Except HookError (Tensor R) := do
  let transposed ← orShape weight.transposeLast
  let fwdWeight := transposed.contiguous
  let output ← waitForDispatchedMatmul (backend input fwdWeight) "forward"
  let output ← addBias output bias
  if settings.enableVerification then
    let ref ← orShape (input.values.matmul weight.values)
    let ref ← addBias ref bias
    assertClose settings "Output" output ref
  else return output

/-- `ctx.needs_input_grad`. -/
structure Needs where
  input : Bool
  weight : Bool
  bias : Bool
  deriving DecidableEq, Repr

/-- What `backward` returns. -/
structure Grads (R : Type*) where
  input : Option (Tensor R)
  weight : Option (Tensor R)
  bias : Option (Tensor R)

/-- The reference of `grad_weight`. -/
def referenceGradWeight (gradOutput input : Tensor R) : Except HookError (Tensor R) := do
  let transposed ← orShape gradOutput.transposeLast
  let product ← orShape (transposed.matmul input)
  orShape product.transposeLast

/-- One of the assertions at the end of `backward`, for a gradient that was computed. -/
def verify (settings : Settings R) (name : String) (ref : Except HookError (Tensor R)) :
    Option (Tensor R) → Except HookError (Option (Tensor R))
  | none => .ok none
  | some grad => do
    let ref ← ref
    some <$> assertClose settings name grad ref

/-- `LinearFunction.backward`. -/
def backward (settings : Settings R) (backend : Backend R) (needs : Needs)
    (input weight : StridedTensor R) (bias : Option (StridedTensor R))
    (gradOutput : StridedTensor R) : Except HookError (Grads R) := do
  let dg := gradOutput.contiguous
  let dw := weight.contiguous
  let dgT ← orShape gradOutput.transposeLast
  let dinT ← orShape input.transposeLast
  let gradInput ←
    if needs.input then some <$> waitForDispatchedMatmul (backend dg dw) "backward_grad_input"
    else pure none
  let gradWeight ←
    if needs.weight then do
      let product ←
        waitForDispatchedMatmul (backend dgT.contiguous dinT.contiguous) "backward_grad_weight"
      some <$> orShape product.transposeLast
    else pure none
  let gradBias :=
    if bias.isSome && needs.bias then some gradOutput.values.sum0 else none
  if settings.enableVerification then
    let gradInput ←
      verify settings "grad_input" (referenceGradInput gradOutput.values weight.values) gradInput
    let gradWeight ←
      verify settings "grad_weight" (referenceGradWeight gradOutput.values input.values) gradWeight
    let gradBias ← verify settings "grad_bias" (.ok gradOutput.values.sum0) gradBias
    return ⟨gradInput, gradWeight, gradBias⟩
  else return ⟨gradInput, gradWeight, gradBias⟩

end LinearFunction

/-! ## What is replaced -/

/-- The operations that `apply_hooks('linear')` replaces. -/
inductive Entry where
  /-- `torch.nn.functional.linear`. -/
  | linear
  /-- `Tensor.__matmul__(x, w)`. -/
  | matmul
  /-- `x @ w` or `x.__matmul__(w)`, which find `__matmul__` on the type of `x`. -/
  | operator
  /-- `torch.bmm`. -/
  | bmm
  /-- `nn.Linear.forward`. -/
  | linearForward
  deriving DecidableEq, Repr

/-- The operation before the hooks. `matmul` and `bmm` take no bias; the weight of an `nn.Linear` is
a matrix. -/
def original (entry : Entry) (input weight : StridedTensor R) (bias : Option (StridedTensor R)) :
    Option (Tensor R) :=
  match entry, bias with
  | .linear, _ => input.values.linear weight.values (bias.map (·.values))
  | .matmul, none | .operator, none => input.values.matmul weight.values
  | .bmm, none => input.values.bmm weight.values
  | .linearForward, _ =>
    if weight.dim = 2 then input.values.linear weight.values (bias.map (·.values)) else none
  | _, some _ => none

/-- The operation after `apply_hooks('linear')`. -/
def hooked (settings : Settings R) (backend : Backend R) (entry : Entry)
    (input weight : StridedTensor R) (bias : Option (StridedTensor R)) :
    Except HookError (Tensor R) :=
  match entry with
  | .linear | .matmul | .bmm => LinearFunction.forward settings backend input weight bias
  -- `LinearFunction.apply` is bound to its class and is not bound again, so the left operand is not
  -- passed: `forward` gets `weight` alone
  | .operator => .error .missingArgument
  | .linearForward => do
    let transposed ← orShape weight.t
    LinearFunction.forward settings backend input transposed bias

end Morphling
