import Morphling.Lib.Dict
import Morphling.Lib.Intervals
import Morphling.Lib.StepFunction

/-!
# Violation time (`analyze_violations.py`)

A GEMM that runs past the end of its step takes SMs from the next one. The script assigns each GEMM to
a step by binary search, finds those that go past a boundary where both steps together have more SMs
than there are, and adds up the time, with overlapping intervals merged.

* `mem_assignGemmsToSteps`, `mem_intervals`: what the search and the loops find.
* `violationTimeNs_eq`: the result is the number of nanoseconds that are in some violation.

Of a GEMM its times are modelled; its name and sizes are only printed.
-/

namespace Morphling.Violations

open List Function
open StepFunction (Ordered upperBound)

structure GemmCall where
  startNs : Int
  endNs : Int
  deriving DecidableEq, Repr

structure StepSlot where
  step : Int
  startNs : Int
  endNs : Int
  smCount : Int
  deriving DecidableEq, Repr

structure Violation where
  step : Int
  nextStep : Int
  smThis : Int
  smNext : Int
  gemm : GemmCall
  /-- how far past the boundary -/
  overshootNs : Int

structure StepViolationSummary where
  step : Int
  nextStep : Int
  smThis : Int
  smNext : Int
  smTotal : Int
  numViolations : Nat := 0
  maxOvershootNs : Int := 0
  totalOvershootNs : Int := 0
  violations : List Violation := []

/-- `assign_gemms_to_steps`: the GEMMs of each index. `bisect_right` is the search of `upperBound`. -/
def assignGemmsToSteps (gemms : List GemmCall) (slots : List StepSlot) : Nat → List GemmCall :=
  gemms.foldl (fun result g =>
    let idx : Int := upperBound StepSlot.startNs slots g.startNs - 1
    if 0 ≤ idx ∧ idx < slots.length then
      update result idx.toNat (result idx.toNat ++ [g])
    else result) fun _ => []

/-- The loop of `detect_violations` over the GEMMs of one step. -/
def addViolation (cur nxt : StepSlot) (summary : StepViolationSummary) (g : GemmCall) :
    StepViolationSummary :=
  if g.endNs > nxt.startNs then
    let overshoot := g.endNs - nxt.startNs
    { summary with
      numViolations := summary.numViolations + 1
      totalOvershootNs := summary.totalOvershootNs + overshoot
      maxOvershootNs := max summary.maxOvershootNs overshoot
      violations := summary.violations ++
        [⟨cur.step, nxt.step, cur.smCount, nxt.smCount, g, overshoot⟩] }
  else summary

/-- `detect_violations` -/
def detectViolations (slots : List StepSlot) (stepGemms : Nat → List GemmCall) (maxSm : Int) :
    List StepViolationSummary :=
  (List.range (slots.length - 1)).filterMap fun i => do
    let cur ← slots[i]?
    let nxt ← slots[i + 1]?
    let smTotal := cur.smCount + nxt.smCount
    if smTotal ≤ maxSm then none
    else
      let summary := (stepGemms i).foldl (addViolation cur nxt)
        ⟨cur.step, nxt.step, cur.smCount, nxt.smCount, smTotal, 0, 0, 0, []⟩
      if summary.numViolations > 0 then some summary else none

/-- The intervals that `compute_violation_time_ns` merges. -/
def intervals (summaries : List StepViolationSummary) (slots : List StepSlot) : List (Int × Int) :=
  let slotMap := Dict.group StepSlot.step (fun s _ => s) [] slots
  summaries.flatMap fun s =>
    match slotMap.lookup s.nextStep with
    | none => []
    | some nxt => s.violations.filterMap fun v =>
      let start := nxt.startNs
      let end' := min v.gemm.endNs nxt.endNs
      if end' > start then some (start, end') else none

/-- `compute_violation_time_ns`; without intervals the sum is empty. -/
def computeViolationTimeNs (summaries : List StepViolationSummary) (slots : List StepSlot) : Int :=
  Intervals.length (Intervals.merge (intervals summaries slots))

/-- The three functions, one after the other. -/
def violationTimeNs (slots : List StepSlot) (gemms : List GemmCall) (maxSm : Int) : Int :=
  computeViolationTimeNs (detectViolations slots (assignGemmsToSteps gemms slots) maxSm) slots

/-! ## What counts as a violation -/

/-- The slot at `i` is the last one that begins up to `t`. -/
def IsLastUpTo (slots : List StepSlot) (i : Nat) (t : Int) : Prop :=
  (∃ cur, slots[i]? = some cur ∧ cur.startNs ≤ t) ∧
    ∀ j nxt, i < j → slots[j]? = some nxt → t < nxt.startNs

/-- At `t` the GEMM `g` of the step at `i` runs in the next step, and both have too many SMs. -/
def ViolatesAt (slots : List StepSlot) (maxSm : Int) (i : Nat) (g : GemmCall) (t : Int) : Prop :=
  IsLastUpTo slots i g.startNs ∧ ∃ cur nxt, slots[i]? = some cur ∧ slots[i + 1]? = some nxt ∧
    maxSm < cur.smCount + nxt.smCount ∧ nxt.startNs ≤ t ∧ t < min g.endNs nxt.endNs

/-! ## The loops -/

variable {slots : List StepSlot} {gemms : List GemmCall} {maxSm t : Int} {i : Nat} {g : GemmCall}
  {stepGemms : Nat → List GemmCall}

theorem mem_foldl_assign {bisect : GemmCall → Int} {n : Nat} {result : Nat → List GemmCall} :
    g ∈ gemms.foldl (fun result g =>
        if 0 ≤ bisect g ∧ bisect g < n then
          update result (bisect g).toNat (result (bisect g).toNat ++ [g])
        else result) result i ↔
      g ∈ result i ∨ g ∈ gemms ∧ bisect g = i ∧ i < n := by
  induction gemms generalizing result with
  | nil => simp
  | cons g₀ gemms ih =>
    rw [foldl_cons, ih]
    have hupd : g ∈ (if 0 ≤ bisect g₀ ∧ bisect g₀ < n then
          update result (bisect g₀).toNat (result (bisect g₀).toNat ++ [g₀])
        else result) i ↔ g ∈ result i ∨ g = g₀ ∧ bisect g₀ = i ∧ i < n := by
      by_cases hidx : bisect g₀ = i ∧ i < n
      · have hi : (bisect g₀).toNat = i := by omega
        rw [if_pos (by omega), hi, update_self, mem_append, mem_singleton]
        simp [hidx]
      · have hno : ¬ (g = g₀ ∧ bisect g₀ = i ∧ i < n) := fun h => hidx h.2
        rw [or_iff_left hno]
        split
        · rw [update_of_ne (by omega)]
        · rfl
    rw [hupd, mem_cons, or_assoc, or_and_right]
    refine or_congr_right (or_congr_left (and_congr_right fun h => ?_))
    rw [h]

theorem isLastUpTo_iff (hsorted : Ordered StepSlot.startNs slots) :
    IsLastUpTo slots i t ↔ upperBound StepSlot.startNs slots t = i + 1 ∧ i < slots.length := by
  constructor
  · rintro ⟨⟨cur, hcur, hle⟩, hafter⟩
    obtain ⟨hi, hget⟩ := List.getElem?_eq_some_iff.mp hcur
    refine ⟨(StepFunction.upperBound_eq_iff hsorted hi).mpr fun j s hs => ?_, hi⟩
    constructor
    · intro hlt
      by_contra hj
      rcases Nat.lt_or_eq_of_le (show j ≤ i by omega) with h | rfl
      · obtain ⟨hj', rfl⟩ := List.getElem?_eq_some_iff.mp hs
        have := pairwise_iff_getElem.mp hsorted j i hj' hi h
        rw [hget] at this
        omega
      · obtain rfl := Option.some.inj (hcur.symm.trans hs)
        omega
    · exact fun hj => hafter j s hj hs
  · rintro ⟨hbound, hi⟩
    have hsplit := (StepFunction.upperBound_eq_iff hsorted hi).mp hbound
    refine ⟨⟨slots[i], getElem?_eq_getElem hi, ?_⟩, fun j s hj hs => (hsplit j s hs).mpr hj⟩
    have := hsplit i slots[i] (getElem?_eq_getElem hi)
    omega

theorem mem_assignGemmsToSteps (hsorted : Ordered StepSlot.startNs slots) :
    g ∈ assignGemmsToSteps gemms slots i ↔ g ∈ gemms ∧ IsLastUpTo slots i g.startNs := by
  rw [assignGemmsToSteps, mem_foldl_assign, isLastUpTo_iff hsorted]
  have hidx : (upperBound StepSlot.startNs slots g.startNs : Int) - 1 = i ↔
      upperBound StepSlot.startNs slots g.startNs = i + 1 := by omega
  rw [hidx]
  simp

/-- The summary of a step: it has the violations that are counted. -/
theorem foldl_addViolation (cur nxt : StepSlot) (gs : List GemmCall) (s : StepViolationSummary) :
    let s' := gs.foldl (addViolation cur nxt) s
    s'.nextStep = s.nextStep ∧ s'.numViolations = s.numViolations +
        (gs.filter fun g => g.endNs > nxt.startNs).length ∧
      s'.violations.map Violation.gemm = s.violations.map Violation.gemm ++
        gs.filter fun g => g.endNs > nxt.startNs := by
  induction gs generalizing s with
  | nil => simp
  | cons g gs ih =>
    obtain ⟨hnext, hnum, hgemms⟩ := ih (addViolation cur nxt s g)
    refine ⟨?_, ?_, ?_⟩
    all_goals
      rw [foldl_cons]
      first | rw [hnext] | rw [hnum] | rw [hgemms]
      by_cases h : g.endNs > nxt.startNs
      · simp [addViolation, h, Nat.add_assoc, Nat.add_comm 1]
      · simp [addViolation, h]

/-- The summary that `detect_violations` makes of the step `cur`. -/
def summarize (cur nxt : StepSlot) (gs : List GemmCall) : StepViolationSummary :=
  gs.foldl (addViolation cur nxt)
    ⟨cur.step, nxt.step, cur.smCount, nxt.smCount, cur.smCount + nxt.smCount, 0, 0, 0, []⟩

theorem mem_detectViolations {s : StepViolationSummary} :
    s ∈ detectViolations slots stepGemms maxSm ↔
      ∃ i cur nxt, slots[i]? = some cur ∧ slots[i + 1]? = some nxt ∧
        maxSm < cur.smCount + nxt.smCount ∧ summarize cur nxt (stepGemms i) = s ∧
        0 < s.numViolations := by
  rw [detectViolations, mem_filterMap]
  constructor
  · rintro ⟨i, -, h⟩
    simp only [Option.bind_eq_bind, Option.bind_eq_some_iff] at h
    obtain ⟨cur, hcur, nxt, hnxt, h⟩ := h
    refine ⟨i, cur, nxt, hcur, hnxt, ?_⟩
    split at h
    · cases h
    · rename_i hsm
      split at h
      · rename_i hnum
        obtain rfl := Option.some.inj h
        exact ⟨by omega, rfl, hnum⟩
      · cases h
  · rintro ⟨i, cur, nxt, hcur, hnxt, hsm, rfl, hnum⟩
    obtain ⟨hi, -⟩ := List.getElem?_eq_some_iff.mp hnxt
    refine ⟨i, mem_range.mpr (by omega), ?_⟩
    simp only [hcur, hnxt, Option.bind_eq_bind, Option.bind_some]
    rw [if_neg (by omega)]
    exact if_pos hnum

theorem summarize_spec (cur nxt : StepSlot) (gs : List GemmCall) :
    (summarize cur nxt gs).nextStep = nxt.step ∧
      (summarize cur nxt gs).numViolations = (summarize cur nxt gs).violations.length ∧
      ∀ g, (∃ v ∈ (summarize cur nxt gs).violations, v.gemm = g) ↔ g ∈ gs ∧ nxt.startNs < g.endNs := by
  obtain ⟨hnext, hnum, hgemms⟩ := foldl_addViolation cur nxt gs
    ⟨cur.step, nxt.step, cur.smCount, nxt.smCount, cur.smCount + nxt.smCount, 0, 0, 0, []⟩
  refine ⟨hnext, ?_, fun g => ?_⟩
  · rw [summarize, hnum, ← length_map Violation.gemm, hgemms]
    simp
  · rw [← mem_map, summarize, hgemms]
    simp

/-- The intervals that are merged are those of the violations. -/
theorem mem_intervals (hsteps : (slots.map StepSlot.step).Nodup) {p : Int × Int} :
    p ∈ intervals (detectViolations slots stepGemms maxSm) slots ↔
      ∃ i cur nxt, slots[i]? = some cur ∧ slots[i + 1]? = some nxt ∧
        maxSm < cur.smCount + nxt.smCount ∧ ∃ g ∈ stepGemms i,
          nxt.startNs < min g.endNs nxt.endNs ∧ p = (nxt.startNs, min g.endNs nxt.endNs) := by
  have hlookup : ∀ {i nxt}, slots[i]? = some nxt →
      (Dict.group StepSlot.step (fun s _ => s) [] slots).lookup nxt.step = some nxt := fun h =>
    Dict.lookup_group_of_nodup StepSlot.step id [] hsteps (mem_of_getElem? h)
  rw [intervals, mem_flatMap]
  constructor
  · rintro ⟨s, hs, hp⟩
    obtain ⟨i, cur, nxt, hcur, hnxt, hsm, rfl, -⟩ := mem_detectViolations.mp hs
    obtain ⟨hnext, -, hgemms⟩ := summarize_spec cur nxt (stepGemms i)
    rw [hnext, hlookup hnxt] at hp
    obtain ⟨v, hv, hp⟩ := mem_filterMap.mp hp
    obtain ⟨hend, heq⟩ := Option.ite_none_right_eq_some.mp hp
    obtain rfl := Option.some.inj heq
    exact ⟨i, cur, nxt, hcur, hnxt, hsm, v.gemm, ((hgemms v.gemm).mp ⟨v, hv, rfl⟩).1, hend, rfl⟩
  · rintro ⟨i, cur, nxt, hcur, hnxt, hsm, g, hg, hend, rfl⟩
    obtain ⟨hnext, hnum, hgemms⟩ := summarize_spec cur nxt (stepGemms i)
    obtain ⟨v, hv, rfl⟩ := (hgemms g).mpr ⟨hg, by omega⟩
    refine ⟨_, mem_detectViolations.mpr ⟨i, cur, nxt, hcur, hnxt, hsm, rfl, ?_⟩, ?_⟩
    · rw [hnum]
      exact length_pos_of_mem hv
    · rw [hnext, hlookup hnxt]
      exact mem_filterMap.mpr ⟨v, hv, if_pos hend⟩

/-! ## The time -/

theorem mem_cover_intervals (hsorted : Ordered StepSlot.startNs slots)
    (hsteps : (slots.map StepSlot.step).Nodup) :
    t ∈ Intervals.cover
        (intervals (detectViolations slots (assignGemmsToSteps gemms slots) maxSm) slots) ↔
      ∃ i, ∃ g ∈ gemms, ViolatesAt slots maxSm i g t := by
  rw [Intervals.mem_cover]
  constructor
  · rintro ⟨p, hp, hle, hlt⟩
    obtain ⟨i, cur, nxt, hcur, hnxt, hsm, g, hg, -, rfl⟩ := (mem_intervals hsteps).mp hp
    obtain ⟨hg, hlast⟩ := (mem_assignGemmsToSteps hsorted).mp hg
    exact ⟨i, g, hg, hlast, cur, nxt, hcur, hnxt, hsm, hle, hlt⟩
  · rintro ⟨i, g, hg, hlast, cur, nxt, hcur, hnxt, hsm, hle, hlt⟩
    exact ⟨_, (mem_intervals hsteps).mpr ⟨i, cur, nxt, hcur, hnxt, hsm, g,
      (mem_assignGemmsToSteps hsorted).mpr ⟨hg, hlast⟩, by omega, rfl⟩, hle, hlt⟩

theorem violationTimeNs_eq_card (hsteps : (slots.map StepSlot.step).Nodup) :
    violationTimeNs slots gemms maxSm = (Intervals.cover
      (intervals (detectViolations slots (assignGemmsToSteps gemms slots) maxSm) slots)).card := by
  refine Intervals.length_merge fun p hp => ?_
  obtain ⟨_, _, _, _, _, _, _, _, hend, rfl⟩ := (mem_intervals hsteps).mp hp
  exact Int.le_of_lt hend

/-- The violations are in the slots. -/
theorem cover_intervals_subset (gemms : List GemmCall) (maxSm : Int)
    (hsorted : Ordered StepSlot.startNs slots) (hsteps : (slots.map StepSlot.step).Nodup) :
    Intervals.cover
        (intervals (detectViolations slots (assignGemmsToSteps gemms slots) maxSm) slots) ⊆
      Intervals.cover (slots.map fun s => (s.startNs, s.endNs)) := by
  intro t ht
  obtain ⟨i, g, -, -, cur, nxt, -, hnxt, -, hle, hlt⟩ := (mem_cover_intervals hsorted hsteps).mp ht
  refine Intervals.mem_cover.mpr
    ⟨_, mem_map_of_mem (mem_of_getElem? hnxt), hle, ?_⟩
  exact hlt.trans_le (min_le_right _ _)

/-- The violation time is the number of nanoseconds with a violation. So it does not depend on the
order of the GEMMs, and is not more than the slots have together. -/
theorem violationTimeNs_eq (gemms : List GemmCall) (maxSm : Int)
    (hsorted : Ordered StepSlot.startNs slots) (hsteps : (slots.map StepSlot.step).Nodup) :
    violationTimeNs slots gemms maxSm =
        {t : Int | ∃ i, ∃ g ∈ gemms, ViolatesAt slots maxSm i g t}.ncard ∧
      (∀ gemms', gemms'.Perm gemms →
        violationTimeNs slots gemms' maxSm = violationTimeNs slots gemms maxSm) ∧
      violationTimeNs slots gemms maxSm ≤
        ((slots.map fun s => (s.endNs - s.startNs).toNat).sum : Nat) := by
  refine ⟨?_, fun gemms' hperm => ?_, ?_⟩
  · rw [violationTimeNs_eq_card hsteps, ← Set.ncard_coe_finset]
    congr 2
    ext t
    exact mem_cover_intervals hsorted hsteps
  · rw [violationTimeNs_eq_card hsteps, violationTimeNs_eq_card hsteps]
    congr 2
    ext t
    rw [mem_cover_intervals hsorted hsteps, mem_cover_intervals hsorted hsteps]
    simp only [hperm.mem_iff]
  · have hcard := (Finset.card_le_card
      (cover_intervals_subset gemms maxSm hsorted hsteps)).trans (Intervals.card_cover_le _)
    rw [map_map] at hcard
    rw [violationTimeNs_eq_card hsteps]
    exact Int.ofNat_le.mpr hcard

def twoSteps : List StepSlot := [⟨0, 0, 10, 3⟩, ⟨1, 10, 20, 3⟩]

/-- A GEMM of the first step that ends five nanoseconds into the second. -/
theorem twoSteps_violations :
    {t : Int | ∃ i, ∃ g ∈ [GemmCall.mk 5 15], ViolatesAt twoSteps 4 i g t}.ncard = 5 := by
  have hsorted : Ordered StepSlot.startNs twoSteps := by
    unfold Ordered
    decide
  have heq := (violationTimeNs_eq [⟨5, 15⟩] 4 hsorted (by decide)).1
  have htime : violationTimeNs twoSteps [⟨5, 15⟩] 4 = 5 := by
    have hint : intervals (detectViolations twoSteps (assignGemmsToSteps [⟨5, 15⟩] twoSteps) 4)
        twoSteps = [(10, 15)] := by decide
    rw [violationTimeNs, computeViolationTimeNs, hint, Intervals.merge, mergeSort_singleton]
    decide
  rw [htime] at heq
  exact_mod_cast heq.symm

end Morphling.Violations
