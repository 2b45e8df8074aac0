import Mathlib.Algebra.BigOperators.Group.Finset.Sigma
import Mathlib.Algebra.BigOperators.Ring.Finset
import Mathlib.Tactic.Ring
import Morphling.Hooks.Forward

/-!
# The gradients of `LinearFunction.backward`

`f(x, W, b) = x * W + b` for a batch `x` of extents `[L..., s, i]`, a weight `[i, o]` or
`[L..., i, o]` and a bias `[o]`.

* `Tensor.derivative`: the derivative of `f` in a direction.
* `Tensor.sumToSize`: autograd sums a returned gradient down to the shape of the parameter.
* `LinearFunction.gradInput`, `gradWeight`: what the two products of `backward` are, for any strides
  of the gradient (`backward_eq`, `backward_ok`).
* `backward_adjoint`: reduced to the shapes of the parameters, the gradients are the adjoint of the
  derivative, and each is computed exactly if it is needed.
-/

namespace Morphling

open Index Failing StridedTensor Finset

variable {R : Type*} [CommRing R]

/-! ## Derivative and reduction -/

namespace Tensor

/-- The inner product of two tensors of the same extents. -/
def inner (u v : Tensor R) : R := sumOver u.sizes fun idx => u.get idx * v.get idx

/-- What autograd makes of a gradient for a parameter of extents `sizes`. -/
def sumToSize (g : Tensor R) (sizes : List Nat) : Option (Tensor R) :=
  if Expandable sizes g.sizes then some (ofFn sizes (sumTo g.sizes sizes g.get)) else none

/-- The derivative of `x * w + b` in the direction `dx`, `dw`, `db`: `dx * w + x * dw + db`. -/
def derivative (x w dx dw db : Tensor R) : Option (Tensor R) :=
  (dx.matmul w).bind fun p => (x.matmul dw).bind fun q => (db.expand p.sizes).map (p.add q).add

section Inner
variable {g u v : Tensor R} {L : List Nat} {m n k : Nat}

theorem inner_add (hs : g.sizes = u.sizes) : inner g (u.add v) = inner g u + inner g v := by
  unfold inner
  rw [← sumOver_add]
  refine sumOver_congr fun idx hv => ?_
  rw [add, get_ofFn (hs ▸ hv), mul_add]

/-- The inner product with a batch of matrix products. -/
theorem inner_product (hg : g.sizes = L ++ [m, n]) (a b : List Nat → Nat → Nat → R) :
    inner g (product L m n k a b) = sumOver L fun l => ∑ i ∈ range m, ∑ j ∈ range n,
      g.get (l ++ [i, j]) * ∑ h ∈ range k, a l i h * b l h j := by
  unfold inner
  rw [hg, sumOver_append_pair]
  refine sumOver_congr fun l hl => sum_congr rfl fun i hi => sum_congr rfl fun j hj => ?_
  rw [get_product hl (mem_range.mp hi) (mem_range.mp hj)]

/-- Reducing a gradient is the adjoint of expanding the parameter. -/
theorem inner_sumToSize {sizes : List Nat} (h : Expandable sizes g.sizes) :
    ∃ r, g.sumToSize sizes = some r ∧ ∀ d : Tensor R,
      inner r d = sumOver g.sizes fun idx => g.get idx * d.get (restrict sizes idx) := by
  refine ⟨_, if_pos h, fun d => ?_⟩
  unfold inner
  rw [sizes_ofFn, sumOver_restrict h]
  exact sumOver_congr fun idx hv => by rw [get_ofFn hv]

/-- `sum(0)`, tested with something that does not depend on the first coordinate. -/
theorem sumOver_sum0 {n : Nat} {ss : List Nat} (hg : g.sizes = n :: ss) {d d' : List Nat → R}
    (hd : ∀ i idx, Valid ss idx → d (i :: idx) = d' idx) :
    sumOver g.sum0.sizes (fun idx => g.sum0.get idx * d' idx) =
      sumOver g.sizes fun idx => g.get idx * d idx := by
  have hsum : g.sum0 = ofFn ss fun idx => ∑ i ∈ range n, g.get (i :: idx) := by
    unfold sum0
    rw [hg]
  rw [hsum, sizes_ofFn, hg, show n :: ss = [n] ++ ss from rfl, sumOver_append, sumOver_comm]
  refine sumOver_congr fun idx hv => ?_
  rw [get_ofFn hv, sum_mul, sumOver_singleton]
  exact sum_congr rfl fun i _ => by rw [List.singleton_append, hd i idx hv]

end Inner
end Tensor

/-! ## What `backward` returns -/

/-- The backend multiplies contiguous operands that are not empty. -/
def Backend.MultipliesContiguous (backend : Backend R) : Prop :=
  ∀ a b : StridedTensor R, a.isContiguous = true → b.isContiguous = true →
    (∀ e ∈ a.sizes, 1 ≤ e) → (∀ e ∈ b.sizes, 1 ≤ e) → backend.Multiplies a b

/-- The shapes of the input, the weight, the bias and the upstream gradient. -/
structure LinearShapes (L : List Nat) (s i o : Nat) (x w b g : StridedTensor R) : Prop where
  input : x.sizes = L ++ [s, i]
  weight : w.sizes = [i, o] ∨ w.sizes = L ++ [i, o]
  bias : b.sizes = [o]
  gradOutput : g.sizes = L ++ [s, o]
  one_le : ∀ e ∈ L ++ [s, i, o], 1 ≤ e

/-- The transpose of a batch of matrices, entry by entry. -/
theorem StridedTensor.values_transposeLast {x : StridedTensor R} {L : List Nat} {m n : Nat}
    (hx : x.sizes = L ++ [m, n]) : ∃ y, x.transposeLast = some y ∧ y.sizes = L ++ [n, m] ∧
      ∀ l i j, Valid L l → i < n → j < m → y.values.get (l ++ [i, j]) = x.values.get (l ++ [j, i]) := by
  have hdim : x.dim = L.length + 2 := by simp [Layout.dim, hx]
  obtain ⟨y, hy, hs, hget⟩ := transposeLast_eq (x := x) (by omega)
  rw [hx, swapLast_append] at hs
  refine ⟨y, hy, hs, fun l i j hl hi hj => ?_⟩
  rw [get_values (hs ▸ hl.append_pair hi hj), get_values (hx ▸ hl.append_pair hj hi),
    hget l i j (by rw [hl.length_eq, hdim, Nat.add_sub_cancel])]

/-- Contiguous operands are multiplied as what they are. -/
theorem multiply_contiguous {a b : StridedTensor R} {L : List Nat} {m n k : Nat}
    (ha : a.sizes = L ++ [m, k]) (hb : b.sizes = [n, k] ∨ b.sizes = L ++ [n, k]) :
    multiply a.contiguous b.contiguous =
      some (.product L m n k (fun l i h => a.values.get (l ++ [i, h]))
        fun l h j => b.values.get ((if b.values.dim = 2 then [] else l) ++ [j, h])) := by
  have hbs : ∃ L', b.sizes = L' ++ [n, k] ∧ (b.sizes.length = 2 ∨ L' = L) :=
    hb.elim (fun h => ⟨[], h, .inl (by rw [h]; rfl)⟩) fun h => ⟨L, h, .inr rfl⟩
  obtain ⟨L', hb', hlead⟩ := hbs
  unfold multiply
  simp only [Layout.dim, sizes_contiguous, raw_contiguous, ha, hb',
    leading_append, rowDim_append, colDim_append, Tensor.dim, sizes_values]
  rw [hb'] at hlead
  exact if_pos ⟨by simp, by simp, hlead, trivial⟩

namespace LinearFunction

/-- `grad_output * weightᵀ`. -/
def gradInput (L : List Nat) (s i o : Nat) (w g : Tensor R) : Tensor R :=
  .product L s i o (fun l r h => g.get (l ++ [r, h]))
    fun l h c => w.get ((if w.dim = 2 then [] else l) ++ [c, h])

/-- `inputᵀ * grad_output`, one matrix for each matrix of the batch. -/
def gradWeight (L : List Nat) (s i o : Nat) (x g : Tensor R) : Tensor R :=
  .product L i o s (fun l r h => x.get (l ++ [h, r])) fun l h c => g.get (l ++ [h, c])

section Backward
variable {settings : Settings R} {backend : Backend R} {L : List Nat} {s i o : Nat}
  {x w b g : StridedTensor R}

theorem multiply_gradInput (hsh : LinearShapes L s i o x w b g) :
    multiply g.contiguous w.contiguous = some (gradInput L s i o w.values g.values) :=
  multiply_contiguous hsh.gradOutput hsh.weight

theorem multiply_gradWeight (hsh : LinearShapes L s i o x w b g) {gT xT : StridedTensor R}
    (hg : g.transposeLast = some gT) (hx : x.transposeLast = some xT) :
    ∃ p, multiply gT.contiguous xT.contiguous = some p ∧
      p.transposeLast = some (gradWeight L s i o x.values g.values) := by
  obtain ⟨y, hy, hys, hyget⟩ := values_transposeLast hsh.gradOutput
  obtain rfl : y = gT := Option.some.inj (hy.symm.trans hg)
  obtain ⟨z, hz, hzs, hzget⟩ := values_transposeLast hsh.input
  obtain rfl : z = xT := Option.some.inj (hz.symm.trans hx)
  refine ⟨_, multiply_contiguous hys (.inr hzs), ?_⟩
  rw [Tensor.transposeLast, if_pos (by simp [Tensor.dim, Tensor.product])]
  simp only [Tensor.product, Tensor.sizes_ofFn, swapLast_append, gradWeight]
  refine congrArg some (Tensor.ofFn_congr fun idx hv => ?_)
  obtain ⟨l, r, c, rfl, hl, hr, hc⟩ := Tensor.exists_of_valid hv
  rw [swapLast_append, Tensor.get_ofFn (hl.append_pair hc hr)]
  simp only [leading_append, rowDim_append, colDim_append]
  refine sum_congr rfl fun h hh => ?_
  have hh := mem_range.mp hh
  have hl' : (if z.values.dim = 2 then [] else l) = l := by
    split
    next hd =>
      rw [Tensor.dim, sizes_values, hzs, List.length_append] at hd
      have hL : l.length = 0 := hl.length_eq.trans (Nat.add_right_cancel hd)
      exact (List.length_eq_zero_iff.mp hL).symm
    next => rfl
  rw [hl', hyget l c h hl hc hh, hzget l r h hl hr hh, mul_comm]

/-- The gradients that are needed. -/
def neededGrads (L : List Nat) (s i o : Nat) (needs : Needs) (x w g : Tensor R) : Grads R where
  input := if needs.input then some (gradInput L s i o w g) else none
  weight := if needs.weight then some (gradWeight L s i o x g) else none
  bias := if needs.bias then some g.sum0 else none

omit [CommRing R] in
theorem eq_of_verify {name : String} {ref : Except HookError (Tensor R)}
    {grad r : Option (Tensor R)} (h : verify settings name ref grad = .ok r) : grad = r := by
  cases grad with
  | none => exact Except.ok.inj h
  | some v =>
    obtain ⟨v', -, h⟩ := bind_eq_ok.mp h
    unfold assertClose at h
    split at h
    · exact Except.ok.inj h
    · cases h

section Steps
variable (hm : backend.MultipliesContiguous) (hsh : LinearShapes L s i o x w b g)
include hm hsh

theorem wait_gradInput : waitForDispatchedMatmul (backend g.contiguous w.contiguous)
    "backward_grad_input" = .ok (gradInput L s i o w.values g.values) := by
  have hpos := hsh.one_le
  have hmul : backend.Multiplies g.contiguous w.contiguous := by
    refine hm _ _ isContiguous_contiguous isContiguous_contiguous ?_ ?_
    · rw [sizes_contiguous, hsh.gradOutput]
      exact fun e he => hpos e (by simp at he ⊢; tauto)
    · rw [sizes_contiguous]
      rcases hsh.weight with hw | hw <;> rw [hw] <;>
        exact fun e he => hpos e (by simp at he ⊢; tauto)
  obtain ⟨h0, hr⟩ := hmul _ (multiply_gradInput hsh)
  rw [waitForDispatchedMatmul, if_neg (not_lt.mpr h0), hr]

theorem wait_gradWeight : ∃ gT xT p, g.transposeLast = some gT ∧ x.transposeLast = some xT ∧
    waitForDispatchedMatmul (backend gT.contiguous xT.contiguous) "backward_grad_weight" = .ok p ∧
    p.transposeLast = some (gradWeight L s i o x.values g.values) := by
  have hpos := hsh.one_le
  obtain ⟨gT, hg, hgs, -⟩ := values_transposeLast hsh.gradOutput
  obtain ⟨xT, hx, hxs, -⟩ := values_transposeLast hsh.input
  have hmul : backend.Multiplies gT.contiguous xT.contiguous := by
    refine hm _ _ isContiguous_contiguous isContiguous_contiguous ?_ ?_
    · rw [sizes_contiguous, hgs]
      exact fun e he => hpos e (by simp at he ⊢; tauto)
    · rw [sizes_contiguous, hxs]
      exact fun e he => hpos e (by simp at he ⊢; tauto)
  obtain ⟨p, hp, ht⟩ := multiply_gradWeight hsh hg hx
  obtain ⟨h0, hr⟩ := hmul p hp
  refine ⟨gT, xT, p, hg, hx, ?_, ht⟩
  rw [waitForDispatchedMatmul, if_neg (not_lt.mpr h0), hr]

/-- Up to the verification, `backward` computes the needed gradients. -/
theorem backward_eq (needs : Needs) : backward settings backend needs x w (some b) g =
    let grads := neededGrads L s i o needs x.values w.values g.values
    if settings.enableVerification then do
      let input ← verify settings "grad_input" (referenceGradInput g.values w.values) grads.input
      let weight ←
        verify settings "grad_weight" (referenceGradWeight g.values x.values) grads.weight
      let bias ← verify settings "grad_bias" (.ok g.values.sum0) grads.bias
      return ⟨input, weight, bias⟩
    else .ok grads := by
  obtain ⟨gT, xT, p, hg, hx, hp, ht⟩ := wait_gradWeight hm hsh
  have hi := wait_gradInput hm hsh
  unfold backward
  rw [hg, hx]
  simp only [orShape, bind, Except.bind, hi, hp, ht]
  rcases needs with ⟨ni, nw, nb⟩
  cases ni <;> cases nw <;> cases nb <;> rfl

/-- The verification changes no gradient. -/
theorem backward_ok {needs : Needs} {ret : Grads R}
    (h : backward settings backend needs x w (some b) g = .ok ret) :
    ret = neededGrads L s i o needs x.values w.values g.values := by
  rw [backward_eq hm hsh] at h
  dsimp only at h
  split at h
  · obtain ⟨input, hi, h⟩ := bind_eq_ok.mp h
    obtain ⟨weight, hw, h⟩ := bind_eq_ok.mp h
    obtain ⟨bias, hb, h⟩ := bind_eq_ok.mp h
    rw [← Except.ok.inj h, ← eq_of_verify hi, ← eq_of_verify hw, ← eq_of_verify hb]
  · exact (Except.ok.inj h).symm

end Steps

/-- What is needed is computed, and it is what it should be. -/
theorem neededGrads_spec {needs : Needs} {x w g gx gw gb : Tensor R} {xs ws bs : List Nat}
    (hx : (gradInput L s i o w g).sumToSize xs = some gx)
    (hw : (gradWeight L s i o x g).sumToSize ws = some gw) (hb : g.sum0.sumToSize bs = some gb) :
    let grads := neededGrads L s i o needs x w g
    (grads.input.isSome = needs.input ∧ grads.weight.isSome = needs.weight ∧
      grads.bias.isSome = needs.bias) ∧
    (∀ grad, grads.input = some grad → grad.sumToSize xs = some gx) ∧
    (∀ grad, grads.weight = some grad → grad.sumToSize ws = some gw) ∧
    ∀ grad, grads.bias = some grad → grad.sumToSize bs = some gb := by
  rcases needs with ⟨ni, nw, nb⟩
  refine ⟨⟨?_, ?_, ?_⟩, fun grad h => ?_, fun grad h => ?_, fun grad h => ?_⟩
  · cases ni <;> rfl
  · cases nw <;> rfl
  · cases nb <;> rfl
  · cases ni with
    | true => rwa [← Option.some.inj h]
    | false => cases h
  · cases nw with
    | true => rwa [← Option.some.inj h]
    | false => cases h
  · cases nb with
    | true => rwa [← Option.some.inj h]
    | false => cases h

end Backward
end LinearFunction

/-! ## The adjoint -/

namespace Tensor
variable {L : List Nat} {s i o : Nat} {x w b dx dw db : Tensor R}

theorem expandable_weight {ws : List Nat} (hw : ws = [i, o] ∨ ws = L ++ [i, o]) :
    Expandable ws (L ++ [i, o]) := by
  rcases hw with rfl | rfl
  · exact .append _ _
  · exact .refl _

theorem expandable_bias {bs : List Nat} (hb : bs = [o]) : Expandable bs (L ++ [s, o]) := by
  rw [hb, show L ++ [s, o] = (L ++ [s]) ++ [o] by simp]
  exact .append _ _

omit [CommRing R] in
/-- The matrix of the weight that goes with matrix `l` of the input. -/
theorem restrict_weight (hw : w.sizes = [i, o] ∨ w.sizes = L ++ [i, o]) {l : List Nat}
    {h c : Nat} (hl : Valid L l) (hh : h < i) (hc : c < o) :
    restrict w.sizes (l ++ [h, c]) = (if w.dim = 2 then [] else l) ++ [h, c] := by
  rcases hw with hw | hw
  · have hv : Valid w.sizes [h, c] := hw ▸ ⟨hh, hc, trivial⟩
    rw [restrict_append l hv, if_pos (by rw [dim, hw]; rfl)]
    rfl
  · rw [restrict_self (hw ▸ hl.append_pair hh hc)]
    split
    next hd =>
      rw [dim, hw, List.length_append] at hd
      rw [List.length_eq_zero_iff.mp (hl.length_eq.trans (Nat.add_right_cancel hd))]
    next => rfl

end Tensor

section Adjoint
open Tensor LinearFunction

variable {L : List Nat} {s i o : Nat} {x w b g : StridedTensor R} {dx dw db : Tensor R}

theorem inner_gradInput (hsh : LinearShapes L s i o x w b g) :
    ∃ gx, (gradInput L s i o w.values g.values).sumToSize x.sizes = some gx ∧
      ∀ dx : Tensor R, dx.sizes = x.sizes → ∃ p, dx.matmul w.values = some p ∧
        p.sizes = L ++ [s, o] ∧ inner g.values p = inner gx dx := by
  have hsizes : (gradInput L s i o w.values g.values).sizes = L ++ [s, i] := rfl
  have hexp : Expandable x.sizes (gradInput L s i o w.values g.values).sizes := by
    rw [hsh.input, hsizes]
    exact .refl _
  obtain ⟨gx, hgx, hinner⟩ := inner_sumToSize hexp
  refine ⟨gx, hgx, fun dx hdx =>
    ⟨_, matmul_eq (hdx.trans hsh.input) hsh.weight, rfl, ?_⟩⟩
  rw [hinner, inner_product hsh.gradOutput, hsizes, sumOver_append_pair]
  refine sumOver_congr fun l hl => sum_congr rfl fun r hr => ?_
  have hr := mem_range.mp hr
  calc ∑ c ∈ range o, g.values.get (l ++ [r, c]) * ∑ h ∈ range i,
        dx.get (l ++ [r, h]) * w.values.get ((if w.values.dim = 2 then [] else l) ++ [h, c])
      = ∑ h ∈ range i, (∑ c ∈ range o, g.values.get (l ++ [r, c]) *
          w.values.get ((if w.values.dim = 2 then [] else l) ++ [h, c])) * dx.get (l ++ [r, h]) := by
        simp only [mul_sum, sum_mul]
        rw [sum_comm]
        exact sum_congr rfl fun h _ => sum_congr rfl fun c _ => by ring
    _ = _ := sum_congr rfl fun h hh => by
        have hh := mem_range.mp hh
        rw [gradInput, get_product hl hr hh, restrict_self (hsh.input ▸ hl.append_pair hr hh)]

/-- The gradient of the weight, tested with a direction. -/
theorem inner_gradWeight (hsh : LinearShapes L s i o x w b g) :
    ∃ gw, (gradWeight L s i o x.values g.values).sumToSize w.sizes = some gw ∧
      ∀ dw : Tensor R, dw.sizes = w.sizes → ∃ p, x.values.matmul dw = some p ∧
        p.sizes = L ++ [s, o] ∧ inner g.values p = inner gw dw := by
  have hsizes : (gradWeight L s i o x.values g.values).sizes = L ++ [i, o] := rfl
  have hexp : Expandable w.sizes (gradWeight L s i o x.values g.values).sizes := by
    rw [hsizes]
    exact expandable_weight hsh.weight
  obtain ⟨gw, hgw, hinner⟩ := inner_sumToSize hexp
  refine ⟨gw, hgw, fun dw hdw => ?_⟩
  have hdw' : dw.sizes = [i, o] ∨ dw.sizes = L ++ [i, o] := hdw ▸ hsh.weight
  refine ⟨_, matmul_eq hsh.input hdw', rfl, ?_⟩
  rw [hinner, inner_product hsh.gradOutput, hsizes, sumOver_append_pair]
  refine sumOver_congr fun l hl => ?_
  calc ∑ r ∈ range s, ∑ c ∈ range o, g.values.get (l ++ [r, c]) *
        ∑ h ∈ range i, x.values.get (l ++ [r, h]) *
          dw.get ((if dw.dim = 2 then [] else l) ++ [h, c])
      = ∑ h ∈ range i, ∑ c ∈ range o, (∑ r ∈ range s,
          x.values.get (l ++ [r, h]) * g.values.get (l ++ [r, c])) *
          dw.get ((if dw.dim = 2 then [] else l) ++ [h, c]) := by
        simp only [mul_sum, sum_mul]
        rw [sum_comm_cycle]
        refine sum_congr rfl fun h _ => ?_
        rw [sum_comm]
        exact sum_congr rfl fun c _ => sum_congr rfl fun r _ => by ring
    _ = _ := sum_congr rfl fun h hh => sum_congr rfl fun c hc => by
        have hh := mem_range.mp hh
        have hc := mem_range.mp hc
        rw [gradWeight, get_product hl hh hc, ← hdw, restrict_weight hdw' hl hh hc]

/-- The gradient of the bias, tested with a direction. -/
theorem inner_gradBias (hsh : LinearShapes L s i o x w b g) :
    ∃ gb, g.values.sum0.sumToSize b.sizes = some gb ∧
      ∀ db : Tensor R, db.sizes = b.sizes → ∃ p, db.expand (L ++ [s, o]) = some p ∧
        p.sizes = L ++ [s, o] ∧ inner g.values p = inner gb db := by
  obtain ⟨n, M, hcons⟩ : ∃ n M, L ++ [s, o] = n :: (M ++ [o]) := by
    cases L with
    | nil => exact ⟨s, [], rfl⟩
    | cons n L => exact ⟨n, L ++ [s], by simp⟩
  have hg : g.values.sizes = n :: (M ++ [o]) := hsh.gradOutput.trans hcons
  have hsum : g.values.sum0.sizes = M ++ [o] := by
    unfold sum0
    rw [hg]
    rfl
  have hred : Expandable b.sizes g.values.sum0.sizes := by
    rw [hsum, hsh.bias]
    exact .append _ _
  obtain ⟨gb, hgb, hinner⟩ := inner_sumToSize hred
  refine ⟨gb, hgb, fun db hdb => ?_⟩
  have hdb' : db.sizes = [o] := hdb.trans hsh.bias
  refine ⟨_, if_pos (expandable_bias hdb'), rfl, ?_⟩
  rw [hinner, ← hdb, sumOver_sum0 hg (d := fun idx => db.get (restrict db.sizes idx))]
  · refine sumOver_congr fun idx hv => ?_
    rw [get_ofFn (hsh.gradOutput ▸ hv)]
  · intro r idx hv
    rw [restrict_cons]
    rw [hdb', hv.length_eq]
    simp

/-- For every input, weight, bias and upstream gradient with any strides: what `backward` returns
reduces to the adjoint of the derivative, and it computes the gradients that are needed. -/
theorem backward_adjoint {backend : Backend R} (hm : backend.MultipliesContiguous)
    (hsh : LinearShapes L s i o x w b g) :
    ∃ gx gw gb : Tensor R,
      (∀ (settings : Settings R) (needs : Needs) (ret : Grads R),
        backward settings backend needs x w (some b) g = .ok ret →
          (ret.input.isSome = needs.input ∧ ret.weight.isSome = needs.weight ∧
            ret.bias.isSome = needs.bias) ∧
          (∀ grad, ret.input = some grad → grad.sumToSize x.sizes = some gx) ∧
          (∀ grad, ret.weight = some grad → grad.sumToSize w.sizes = some gw) ∧
          ∀ grad, ret.bias = some grad → grad.sumToSize b.sizes = some gb) ∧
      (∀ (settings : Settings R) (needs : Needs), settings.enableVerification = false →
        ∃ ret, backward settings backend needs x w (some b) g = .ok ret) ∧
      ∀ dx dw db : Tensor R, dx.sizes = x.sizes → dw.sizes = w.sizes → db.sizes = b.sizes →
        ∃ d, derivative x.values w.values dx dw db = some d ∧
          inner g.values d = inner gx dx + inner gw dw + inner gb db := by
  obtain ⟨gx, hgx, hdx⟩ := inner_gradInput hsh
  obtain ⟨gw, hgw, hdw⟩ := inner_gradWeight hsh
  obtain ⟨gb, hgb, hdb⟩ := inner_gradBias hsh
  refine ⟨gx, gw, gb, fun settings needs ret hret => ?_, fun settings needs hoff => ?_,
    fun dx dw db hx hw hb => ?_⟩
  · rw [backward_ok hm hsh hret]
    exact neededGrads_spec hgx hgw hgb
  · exact ⟨_, (backward_eq hm hsh needs).trans (if_neg (by rw [hoff]; decide))⟩
  · obtain ⟨p, hp, hps, hpi⟩ := hdx dx hx
    obtain ⟨q, hq, hqs, hqi⟩ := hdw dw hw
    obtain ⟨e, he, hes, hei⟩ := hdb db hb
    refine ⟨(p.add q).add e, ?_, ?_⟩
    · rw [derivative, hp, Option.bind_some, hq, Option.bind_some, hps, he, Option.map_some]
    · have hs : g.values.sizes = p.sizes := hsh.gradOutput.trans hps.symm
      have hs' : g.values.sizes = (p.add q).sizes := hs
      rw [inner_add hs', inner_add hs, hpi, hqi, hei]

end Adjoint

/-! ### A batch with an expanded gradient -/

def batchInput : StridedTensor Int := (Layout.rowMajor [2, 1, 2]).tensor fun n => n

def batchWeight : StridedTensor Int := (Layout.rowMajor [2, 3]).tensor fun n => n + 1

def batchBias : StridedTensor Int := (Layout.rowMajor [3]).tensor fun _ => 1

/-- One row, expanded over the batch. -/
def expandedGrad : StridedTensor Int := Layout.tensor ⟨[2, 1, 3], [0, 0, 1], 0, rfl⟩ fun n => n

theorem backward_adjoint_expanded :
    LinearShapes [2] 1 2 3 batchInput batchWeight batchBias expandedGrad ∧
    ∃ gx gw gb : Tensor Int, ∀ dx dw db : Tensor Int, dx.sizes = [2, 1, 2] → dw.sizes = [2, 3] →
      db.sizes = [3] → ∃ d, Tensor.derivative batchInput.values batchWeight.values dx dw db = some d ∧
        expandedGrad.values.inner d = gx.inner dx + gw.inner dw + gb.inner db := by
  have hsh : LinearShapes [2] 1 2 3 batchInput batchWeight batchBias expandedGrad :=
    ⟨rfl, .inl rfl, rfl, rfl, by decide⟩
  obtain ⟨gx, gw, gb, -, -, h⟩ :=
    backward_adjoint (fun a b _ _ _ _ => exactBackend_multiplies a b) hsh
  exact ⟨hsh, gx, gw, gb, h⟩

end Morphling
