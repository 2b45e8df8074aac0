import Morphling.Training.DataParallel
import Mathlib.Algebra.BigOperators.Fin
import Mathlib.Tactic.Abel

/-!
# The distributed run is the golden run

The mean over a batch is the mean of the means over its shards, so that the ranks go from one golden
state to the next, as long as their all-reduces belong together.

* `average_sum_tensors`: the average of what the ranks have is what the golden run has.
* `matched`: where in every iteration all ranks reduce the same tensors in the same order (`Uniform`),
  their rounds match.
* `equivalent_of_uniform`: then in every run each rank has the golden state of its iteration, and no
  rank waits for ever.
* `uniform_of_total`: this is so where every sample gives a gradient to every parameter.

A rank whose shard does not use a parameter has no gradient for it and skips its all-reduce. The others
then sum tensors that do not belong together (`choiceWorkload_not_equivalent`).
-/

namespace Morphling.DataParallel

open List AllReduce
open AllReduce (launches WellPaired)

section Shards

variable {S T : Type} [AddCommGroup T] [Module ℚ T]

/-- The shards of a list, one after the other. -/
theorem flatMap_shards (xs : List S) (l c : Nat) :
    ((List.range c).flatMap fun r => (xs.drop (r * l)).take l) = xs.take (c * l) := by
  induction c with
  | zero => simp
  | succ c ih =>
    rw [range_succ, flatMap_append, ih, flatMap_singleton, Nat.succ_mul, take_add]

end Shards

namespace Workload

variable {P S T O : Type} [AddCommGroup T] [Module ℚ T] (w : Workload P S T O)

theorem flatMap_shard : (List.finRange w.config.coordinators).flatMap w.shard = w.batch := by
  have hrange := flatMap_shards w.batch w.config.localBatch w.config.coordinators
  rw [← w.length_batch, take_length, ← map_coe_finRange_eq_range, flatMap_map] at hrange
  exact hrange

theorem length_shard (r : Fin w.config.coordinators) :
    (w.shard r).length = w.config.localBatch := by
  have hle : (r + 1 : Nat) * w.config.localBatch ≤ w.batch.length := by
    rw [w.length_batch]
    exact Nat.mul_le_mul_right _ r.isLt
  rw [Nat.succ_mul] at hle
  simp only [shard, length_take, length_drop]
  omega

/-- The mean of the means of the shards is the mean of the batch. -/
theorem average_sum_mean (f : S → Option T) :
    w.average (∑ r, mean (w.shard r).length ((w.shard r).filterMap f)) =
      mean w.batch.length (w.batch.filterMap f) := by
  have hsum : ∑ r : Fin w.config.coordinators, ((w.shard r).filterMap f).sum =
      (w.batch.filterMap f).sum := by
    conv_rhs => rw [← w.flatMap_shard]
    rw [filterMap_flatMap, flatMap_def, sum_flatten, map_map, Fin.sum_univ_def]
    rfl
  simp only [mean, average, length_shard]
  rw [← Finset.smul_sum, hsum, smul_smul, w.length_batch, Nat.cast_mul, mul_inv]

/-- The average of what the ranks have is what the golden run has. -/
theorem average_sum_tensors (θ : P → T) (s : Slot P) :
    w.average (∑ r, (w.tensors θ (w.shard r) s).getD 0) = (w.tensors θ w.batch s).getD 0 := by
  cases s with
  | grad p =>
    have hgetD : ∀ b, (w.tensors θ b (.grad p)).getD 0 =
        mean b.length (b.filterMap fun s => w.model.sampleGrad θ s p) := by
      intro b
      simp only [tensors, Model.backward]
      split
      · rename_i hnil
        simp [hnil, mean]
      · rfl
    simp only [hgetD]
    exact w.average_sum_mean _
  | loss =>
    have hmap : ∀ b : List S, b.map (w.model.sampleLoss θ) =
        b.filterMap fun s => some (w.model.sampleLoss θ s) := fun b => by
      rw [filterMap_eq_map']
    simp only [tensors, Option.getD_some, Model.loss, hmap]
    exact w.average_sum_mean _

variable {θ : P → T} {b : List S} {p : P}

/-- A batch uses what one of its samples uses. -/
theorem isSome_backward_iff :
    (w.model.backward θ b p).isSome ↔ ∃ s ∈ b, (w.model.sampleGrad θ s p).isSome := by
  have hne : (∃ s ∈ b, (w.model.sampleGrad θ s p).isSome) ↔
      b.filterMap (fun s => w.model.sampleGrad θ s p) ≠ [] := by
    simp only [ne_eq, filterMap_eq_nil_iff, not_forall, ← Option.not_isSome_iff_eq_none, not_not,
      exists_prop]
  rw [Model.backward, hne]
  split <;> simp_all

theorem isSome_backward_batch_iff :
    (w.model.backward θ w.batch p).isSome ↔ ∃ r, (w.model.backward θ (w.shard r) p).isSome := by
  simp only [isSome_backward_iff]
  conv_lhs => rw [← w.flatMap_shard]
  simp only [mem_flatMap, mem_finRange, true_and]
  constructor
  · rintro ⟨s, ⟨r, hs⟩, hsome⟩
    exact ⟨r, s, hs, hsome⟩
  · rintro ⟨r, s, hs, hsome⟩
    exact ⟨s, ⟨r, hs⟩, hsome⟩

/-! ## The programs -/

/-- The parameters whose gradients are reduced, in this order. -/
def reduced (overlap : Bool) (θ : P → T) (b : List S) : List P :=
  if overlap then w.hooks θ b
  else w.model.parameters.filter fun p => (w.model.backward θ b p).isSome

theorem mem_reduced_iff {overlap : Bool} :
    p ∈ w.reduced overlap θ b ↔ (w.model.backward θ b p).isSome := by
  have hfilter : p ∈ w.model.parameters.filter (fun p => (w.model.backward θ b p).isSome) ↔
      (w.model.backward θ b p).isSome := by
    simp [w.model.complete p]
  cases overlap with
  | false => simpa [reduced] using hfilter
  | true =>
    rw [reduced, if_pos rfl, hooks, mem_filter, (w.hookOrder_perm θ b).mem_iff, hfilter,
      and_iff_left_iff_imp, isSome_backward_iff]
    rintro ⟨s, -, hsome⟩
    by_contra hfrozen
    simp [w.model.frozen θ s p (by simpa using hfrozen)] at hsome

theorem nodup_reduced (overlap : Bool) (θ : P → T) (b : List S) :
    (w.reduced overlap θ b).Nodup := by
  have hfilter := w.model.nodup.filter fun p => (w.model.backward θ b p).isSome
  cases overlap with
  | false => exact hfilter
  | true => exact ((w.hookOrder_perm θ b).nodup_iff.mpr hfilter).filter _

theorem launches_program (overlap : Bool) (θ : P → T) (b : List S) :
    launches (w.program overlap θ b) = (w.reduced overlap θ b).map .grad ++ [.loss] := by
  cases overlap with
  | false =>
    have hblocking : launches (w.reduceGradientsBlocking θ b) =
        (w.model.parameters.filter fun p => (w.model.backward θ b p).isSome).map .grad := by
      rw [reduceGradientsBlocking]
      induction w.model.parameters with
      | nil => rfl
      | cons p ps ih =>
        rw [flatMap_cons, launches_append, ih, filter_cons]
        split <;> simp [launches]
    simp [program, hblocking, reduced, launches]
  | true =>
    simp [program, reduceGradientsAsync, reduced, launches, Function.comp_def]

theorem wellPaired_program (overlap : Bool) (θ : P → T) (b : List S) :
    WellPaired 0 (w.program overlap θ b) := by
  have hloss : WellPaired 0 [.launch (.loss : Slot P), .finish] := rfl
  cases overlap with
  | false =>
    rw [program, if_neg Bool.false_ne_true, reduceGradientsBlocking]
    induction w.model.parameters with
    | nil => exact hloss
    | cons p ps ih =>
      rw [flatMap_cons]
      split
      · exact ih
      · exact ih
  | true =>
    rw [program, if_pos rfl, reduceGradientsAsync, append_assoc]
    refine (wellPaired_map_launch_append Slot.grad _ _ _).mpr ?_
    exact (wellPaired_map_finish_append _ _ _).mpr hloss

theorem mem_launches_iff {overlap : Bool} {s : Slot P} :
    s ∈ launches (w.program overlap θ b) ↔ (w.tensors θ b s).isSome := by
  rw [launches_program]
  cases s with
  | grad p => simp [tensors, mem_reduced_iff]
  | loss => simp [tensors]

theorem nodup_launches (overlap : Bool) (θ : P → T) (b : List S) :
    (launches (w.program overlap θ b)).Nodup := by
  rw [launches_program]
  have hinj : Function.Injective (Slot.grad : P → Slot P) := fun _ _ h => Slot.grad.inj h
  exact List.Nodup.append ((w.nodup_reduced overlap θ b).map hinj) (nodup_singleton _) (by simp)

/-! ## The runs -/

/-- In every iteration of the golden run all ranks reduce the same tensors, in the same order. -/
def Uniform (overlap : Bool) : Prop :=
  ∀ n < w.config.iterations, ∀ r r',
    launches (w.program overlap (w.nativeRun n).params (w.shard r)) =
      launches (w.program overlap (w.nativeRun n).params (w.shard r'))

/-- Every rank has the golden state of its iteration, and no rank waits for ever. -/
structure Equivalent [DecidableEq P] (overlap : Bool) : Prop where
  agrees : ∀ ops r, (w.distributedRun overlap ops r).step ≤ w.config.iterations ∧
    (w.distributedRun overlap ops r).state = w.nativeRun (w.distributedRun overlap ops r).step
  finishes : ∃ calls n, ∀ ops, Run.Rounds (threads (List.finRange _) calls) n ops →
    ∀ r, (w.distributedRun overlap ops r).step = w.config.iterations

/-- The first rank, which there is. -/
def first : Fin w.config.coordinators := ⟨0, w.coordinators_pos⟩

/-- The golden states, and what all ranks reduce in an iteration. -/
def plan (overlap : Bool) : Plan (Training P T O) (Slot P) where
  ideal := w.nativeRun
  slots n :=
    if n < w.config.iterations then
      launches (w.program overlap (w.nativeRun n).params (w.shard w.first))
    else []

variable {w} {overlap : Bool}

section Uniform

variable (h : w.Uniform overlap)
include h

theorem Uniform.launches {n : Nat} (hn : n < w.config.iterations) (r : Fin w.config.coordinators) :
    launches (w.program overlap (w.nativeRun n).params (w.shard r)) = (w.plan overlap).slots n := by
  simp only [plan, if_pos hn]
  exact h n hn r w.first

variable [DecidableEq P]

/-- Where all ranks use a parameter, or none, the averages are the gradients of the golden run. -/
theorem Uniform.averages {n : Nat} (hn : n < w.config.iterations) (s : Slot P) :
    (if s ∈ (w.plan overlap).slots n then
      some (w.average ((w.group overlap).sum (w.plan overlap) n s)) else none) =
      w.tensors (w.nativeRun n).params w.batch s := by
  have hmem : ∀ r, s ∈ (w.plan overlap).slots n ↔
      (w.tensors (w.nativeRun n).params (w.shard r) s).isSome := fun r => by
    rw [← h.launches hn r, mem_launches_iff]
  have hbatch : s ∈ (w.plan overlap).slots n ↔
      (w.tensors (w.nativeRun n).params w.batch s).isSome := by
    cases s with
    | loss => simpa [tensors] using hmem w.first
    | grad p =>
      rw [tensors, isSome_backward_batch_iff]
      exact ⟨fun hs => ⟨w.first, (hmem w.first).mp hs⟩, fun ⟨r, hr⟩ => (hmem r).mpr hr⟩
  have hsum : w.average ((w.group overlap).sum (w.plan overlap) n s) =
      (w.tensors (w.nativeRun n).params w.batch s).getD 0 :=
    w.average_sum_tensors (w.nativeRun n).params s
  split
  · obtain ⟨v, hv⟩ := Option.isSome_iff_exists.mp (hbatch.mp ‹_›)
    rw [hsum, hv, Option.getD_some]
  · exact (Option.not_isSome_iff_eq_none.mp (hbatch.not.mp ‹_›)).symm

theorem Uniform.matched : Matched (w.group overlap) (w.plan overlap) where
  launches n hn r := h.launches hn r
  paired n _ r := w.wellPaired_program overlap _ _
  nodup n := by
    simp only [plan]
    split
    · exact w.nodup_launches overlap _ _
    · exact .nil
  stop := if_neg (Nat.lt_irrefl _)
  isSome n hn r s := by
    rw [← h.launches hn r]
    exact w.mem_launches_iff.symm
  next n hn r := by
    have haverages := funext fun s => h.averages hn s
    exact congrArg (fun tensors => ((w.group overlap).task r).next (w.nativeRun n) tensors) haverages

end Uniform

variable [DecidableEq P]

/-- Where all ranks reduce the same tensors in the same order, training on the shards is training on the
batch. -/
theorem equivalent_of_uniform (w : Workload P S T O) (overlap : Bool) (h : w.Uniform overlap) :
    w.Equivalent overlap where
  agrees ops r := h.matched.state_eq ops r
  finishes := ⟨_, _, fun _ hops r => h.matched.finished_of_rounds mem_finRange
    (Nat.lt_succ_self _) hops r⟩

omit [DecidableEq P] in
/-- The ranks reduce the same tensors where every sample gives a gradient to every parameter that
requires one, and the hooks run in one order. -/
theorem uniform_of_total
    (htotal : ∀ θ s p, w.model.requiresGrad p = true → (w.model.sampleGrad θ s p).isSome)
    (horder : ∀ θ r r', w.hookOrder θ (w.shard r) = w.hookOrder θ (w.shard r')) :
    w.Uniform overlap := by
  have hsome : ∀ θ r p, (w.model.backward θ (w.shard r) p).isSome = w.model.requiresGrad p := by
    intro θ r p
    rw [Bool.eq_iff_iff, isSome_backward_iff]
    constructor
    · rintro ⟨s, -, hs⟩
      by_contra hfrozen
      simp [w.model.frozen θ s p (by simpa using hfrozen)] at hs
    · intro hp
      have hpos : 0 < (w.shard r).length := by rw [length_shard]; exact w.localBatch_pos
      obtain ⟨s, hs⟩ := exists_mem_of_length_pos hpos
      exact ⟨s, hs, htotal θ s p hp⟩
  intro n _ r r'
  simp only [launches_program, reduced, hooks, hsome, horder _ r r']

section Example

/-- Gradient descent with rate 1. -/
def descent (P : Type) : Optimizer P ℚ Unit where
  init := ()
  step _ θ grads := ((), fun p => θ p - (grads p).getD 0)

/-- Two ranks with a sample each, one warm-up iteration and one that is measured. -/
def twoRanks : ScalingConfig := ⟨2, 1, 1, 1⟩

/-- A line, with the slope `false` and the offset `true`. -/
def line : Model Bool ℚ ℚ where
  parameters := [false, true]
  nodup := by decide
  complete := by decide
  requiresGrad _ := true
  sampleLoss θ x := θ false * x + θ true
  sampleGrad _ x p := some (if p then 1 else x)
  frozen _ _ _ h := by cases h

def lineWorkload : Workload Bool ℚ ℚ Unit where
  model := line
  optimizer := descent Bool
  params _ := 0
  config := twoRanks
  batch := [3, 5]
  hookOrder θ b := line.parameters.filter fun p => (line.backward θ b p).isSome
  coordinators_pos := by decide
  localBatch_pos := by decide
  length_batch := rfl
  hookOrder_perm _ _ := .refl _

theorem hookOrder_shard_line (θ : Bool → ℚ) (r : Fin 2) :
    lineWorkload.hookOrder θ (lineWorkload.shard r) = [false, true] := by
  match r with
  | 0 => rfl
  | 1 => rfl

theorem lineWorkload_equivalent : lineWorkload.Equivalent true := by
  have huniform : lineWorkload.Uniform true := uniform_of_total (fun _ _ _ _ => rfl)
    fun θ r r' => (hookOrder_shard_line θ r).trans (hookOrder_shard_line θ r').symm
  exact equivalent_of_uniform lineWorkload true huniform

/-- A sample uses the one parameter that it names. -/
def choice : Model Bool Bool ℚ where
  parameters := [false, true]
  nodup := by decide
  complete := by decide
  requiresGrad _ := true
  sampleLoss θ s := θ s
  sampleGrad _ s p := if p = s then some 1 else none
  frozen _ _ _ h := by cases h

def choiceWorkload : Workload Bool Bool ℚ Unit where
  model := choice
  optimizer := descent Bool
  params _ := 0
  config := twoRanks
  batch := [false, true]
  hookOrder θ b := choice.parameters.filter fun p => (choice.backward θ b p).isSome
  coordinators_pos := by decide
  localBatch_pos := by decide
  length_batch := rfl
  hookOrder_perm _ _ := .refl _

/-- Both ranks reduce their one gradient, then their loss, and step. -/
def choiceOps : List (Op (Fin 2)) :=
  [.advance 0, .advance 1, .complete 0 0, .complete 1 0, .advance 0, .advance 1,
    .advance 0, .advance 1, .complete 0 1, .complete 1 1, .advance 0, .advance 1,
    .advance 0, .advance 1]

/-- The gradient of the one parameter on the first rank is added to that of the other parameter on the
second rank: the first rank steps to -1, the golden run to -1/2. -/
theorem choiceWorkload_not_equivalent :
    ¬choiceWorkload.Equivalent true ∧ ¬choiceWorkload.Equivalent false := by
  suffices hnot : ∀ overlap, ¬choiceWorkload.Equivalent overlap from ⟨hnot true, hnot false⟩
  intro overlap h
  have hrank : (choiceWorkload.distributedRun overlap choiceOps choiceWorkload.first).step = 1 ∧
      (choiceWorkload.distributedRun overlap choiceOps choiceWorkload.first).state.params false =
        -1 := by
    cases overlap <;> decide +kernel
  have hgolden : (choiceWorkload.nativeRun 1).params false = -1 / 2 := by decide +kernel
  have hagrees := (h.agrees choiceOps choiceWorkload.first).2
  rw [hrank.1] at hagrees
  have hparam := hrank.2
  rw [hagrees, hgolden] at hparam
  revert hparam
  decide +kernel

end Example

end Workload
end Morphling.DataParallel
