import Mathlib.Data.List.Range
import Morphling.Scheduler.GreenTraceParser

/-!
# Scoped SM activation (`scheduler/green_context_runtime.cpp`, `runtime/green_context.py`)

The runtime has a green context for each SM count. A scope activates the count that the trace gives
and deactivates it at its end, whether its body raises or not.

* `GreenContextRuntime`: the contexts and the trace. `ThreadState`: the active count, which all
  threads share, and the current context of the thread.
* `Program`: scopes and dispatches of `LinearFunction`, nested, with exceptions.
* `stepScope_holds`: a scope leaves its own count active. It passes this count to
  `DeactivateForThread`, which wants the one that was active before.
* `restored_iff`: so what was there before comes back only if it was the count of the scope.
* `exec_consistent`: every program leaves the thread on the context of the active count.

The generation of the runtime is never changed, so `step_scope` finds its bundle in the cache;
bundles and generations are left out. CUDA calls succeed.
-/

namespace Morphling.Scheduler

/-- `GreenContextRuntime` on a supported device, with what does not change while it is used; `C` are
the contexts of the device. -/
structure GreenContextRuntime (C : Type*) where
  /-- The context that `cudaSetDevice` makes current. -/
  primary : C
  smStep : Nat
  groupsPerPart : Nat
  /-- `cuda_ctx` of the slot with this many groups. -/
  cudaCtx : Nat → C
  traceEntries : List GreenTraceEntry
  traceConfig : GreenTraceConfig := {}
  smStep_pos : 0 < smStep
  groups_pos : 0 < groupsPerPart
  trace_valid : GreenTraceParser.validate traceEntries
    ((List.range groupsPerPart).map fun n => ↑((n + 1) * smStep)) = .ok ()

/-- What changes while it is used. -/
structure ThreadState (C : Type*) where
  activeSmCount : Int
  current : C
  switchCount : Nat := 0
  swapCount : Nat := 0
  deriving DecidableEq

/-- `CppBackend`. -/
structure CppBackend (C : Type*) where
  rt : ThreadState C
  prevSmCount : Int := 0
  swapCount : Nat := 0
  deriving DecidableEq

namespace GreenContextRuntime

variable {C : Type*} (rt : GreenContextRuntime C)

/-- The keys of `slots_`, as `InitAllContexts` makes them. -/
def availableSmCounts : List Int :=
  (List.range rt.groupsPerPart).map fun n => ↑((n + 1) * rt.smStep)

def partitionSmCount : Int := ↑(rt.groupsPerPart * rt.smStep)

/-- `slots_.find`. -/
def find (numSms : Int) : Option C :=
  ((List.range rt.groupsPerPart).find? fun n => ↑((n + 1) * rt.smStep) = numSms).map
    fun n => rt.cudaCtx (n + 1)

/-- `LoadTrace`, of the file at `path`, if it can be opened. On an error the old trace stays. -/
def loadTrace (path : String) (file : Option (List Char)) : Bool × GreenContextRuntime C :=
  match GreenTraceParser.parse path file with
  | .error _ => (false, rt)
  | .ok (entries, config) =>
    match h : GreenTraceParser.validate entries rt.availableSmCounts with
    | .error _ => (false, rt)
    | .ok () => (true, { rt with traceEntries := entries, traceConfig := config, trace_valid := h })

def smCountAtTime (elapsedUs : Int) : Int :=
  GreenTraceParser.smCountAtTime rt.traceEntries elapsedUs rt.partitionSmCount

/-- In step mode the timestamps are the steps. -/
def smCountAtStep (step : Int) : Int :=
  GreenTraceParser.smCountAtTime rt.traceEntries step rt.partitionSmCount

/-- `ActivateSmForThread`, with its result. -/
def activateSmForThread (numSms : Int) (s : ThreadState C) : Int × ThreadState C :=
  match rt.find numSms with
  | none => (s.activeSmCount, s)
  | some ctx =>
    let prev := s.activeSmCount
    if prev ≠ numSms then
      (prev, { current := ctx
               activeSmCount := numSms
               switchCount := s.switchCount + 1
               swapCount := s.swapCount + 1 })
    else (prev, { s with current := ctx })

/-- `DeactivateForThread`. -/
def deactivateForThread (prevSmCount : Int) (s : ThreadState C) : ThreadState C :=
  if prevSmCount ≤ 0 then { s with current := rt.primary }
  else
    match rt.find prevSmCount with
    | some ctx => { s with current := ctx, activeSmCount := prevSmCount }
    | none => { s with current := rt.primary, activeSmCount := prevSmCount }

end GreenContextRuntime

namespace CppBackend

variable {C : Type*} (rt : GreenContextRuntime C) (b : CppBackend C)

/-- The log of the swaps, at the end of `activate_for_time` and of `deactivate`. -/
def logSwap (sm : Int) : CppBackend C :=
  if sm ≠ b.prevSmCount then { b with swapCount := b.swapCount + 1, prevSmCount := sm } else b

/-- `activate_for_step`: the count that was active before is dropped. -/
def activateForStep (step : Int) : Int × CppBackend C :=
  let sm := rt.smCountAtStep step
  (sm, { b with rt := (rt.activateSmForThread sm b.rt).2 })

def activateForTime (elapsedUs : Int) : Int × CppBackend C :=
  let sm := rt.smCountAtTime elapsedUs
  (sm, { b with rt := (rt.activateSmForThread sm b.rt).2 }.logSwap sm)

def deactivate (prevSmCount : Int) : CppBackend C :=
  { b with rt := rt.deactivateForThread prevSmCount b.rt }.logSwap prevSmCount

end CppBackend

/-- A program of one thread. -/
inductive Program where
  | skip
  | raise
  | seq (p q : Program)
  /-- An exception of `p` is caught. -/
  | attempt (p : Program)
  /-- `with ctrl.step_scope(stepIdx)`. -/
  | stepScope (stepIdx : Int) (body : Program)
  /-- A dispatch of `LinearFunction` between `activate_for_time` and `deactivate`. -/
  | dispatch (elapsedUs : Int) (raises : Bool)

namespace Program

variable {C : Type*} (rt : GreenContextRuntime C)

/-- What the program does, and whether it raises. -/
def exec : Program → CppBackend C → CppBackend C × Bool
  | .skip, b => (b, false)
  | .raise, b => (b, true)
  | .seq p q, b =>
    match p.exec b with
    | (b, true) => (b, true)
    | (b, false) => q.exec b
  | .attempt p, b => ((p.exec b).1, false)
  | .stepScope stepIdx body, b =>
    let (sm, b) := b.activateForStep rt stepIdx
    let prevSm := sm
    let (b, raised) := body.exec b
    (b.deactivate rt prevSm, raised)
  | .dispatch elapsedUs raises, b =>
    let (activatedSmCount, b) := b.activateForTime rt elapsedUs
    (b.deactivate rt activatedSmCount, raises)

/-- The active count and the context of the thread are as before. -/
def Restored (p : Program) (b : CppBackend C) : Prop :=
  (p.exec rt b).1.rt.activeSmCount = b.rt.activeSmCount ∧
    (p.exec rt b).1.rt.current = b.rt.current

end Program

/-- The count `n` is active, on the thread as well. -/
def ThreadState.Holds {C : Type*} (rt : GreenContextRuntime C) (n : Int) (s : ThreadState C) :
    Prop :=
  s.activeSmCount = n ∧ rt.find n = some s.current

/-! ## The counts of a trace -/

namespace GreenContextRuntime

variable {C : Type*} {rt : GreenContextRuntime C} {n : Int} {s : ThreadState C}

theorem partition_mem : rt.partitionSmCount ∈ rt.availableSmCounts := by
  have hpos := rt.groups_pos
  refine List.mem_map.mpr ⟨rt.groupsPerPart - 1, List.mem_range.mpr (by omega), ?_⟩
  rw [partitionSmCount, Nat.sub_add_cancel hpos]

theorem pos_of_mem (h : n ∈ rt.availableSmCounts) : 0 < n := by
  obtain ⟨k, -, rfl⟩ := List.mem_map.mp h
  exact Int.natCast_pos.mpr (Nat.mul_pos (Nat.succ_pos k) rt.smStep_pos)

theorem find_of_mem (h : n ∈ rt.availableSmCounts) : ∃ ctx, rt.find n = some ctx := by
  obtain ⟨k, hk, hn⟩ := List.mem_map.mp h
  have hsome : ((List.range rt.groupsPerPart).find? fun k => ↑((k + 1) * rt.smStep) = n).isSome :=
    List.find?_isSome.mpr ⟨k, hk, by simpa using hn⟩
  obtain ⟨j, hj⟩ := Option.isSome_iff_exists.mp hsome
  exact ⟨rt.cudaCtx (j + 1), by rw [find, hj, Option.map_some]⟩

theorem smCountAtTime_available (elapsedUs : Int) :
    rt.smCountAtTime elapsedUs ∈ rt.availableSmCounts :=
  GreenTraceParser.smCountAtTime_mem rt.trace_valid partition_mem elapsedUs

/-! ## The runtime -/

theorem deactivate_holds (h : n ∈ rt.availableSmCounts) :
    (rt.deactivateForThread n s).Holds rt n := by
  obtain ⟨ctx, hctx⟩ := find_of_mem h
  unfold deactivateForThread
  rw [if_neg (by have := pos_of_mem h; omega), hctx]
  exact ⟨rfl, hctx⟩

end GreenContextRuntime

/-! ## Scopes -/

namespace Program

variable {C : Type*} {rt : GreenContextRuntime C} {b : CppBackend C} {n : Int}

@[simp] theorem logSwap_rt (sm : Int) : (b.logSwap sm).rt = b.rt := by
  unfold CppBackend.logSwap
  split <;> rfl

theorem deactivate_holds (h : n ∈ rt.availableSmCounts) : (b.deactivate rt n).rt.Holds rt n := by
  rw [CppBackend.deactivate, logSwap_rt]
  exact GreenContextRuntime.deactivate_holds h

/-- A scope leaves its own count active, whatever its body does. -/
theorem stepScope_holds (rt : GreenContextRuntime C) (b : CppBackend C) (stepIdx : Int)
    (body : Program) :
    ((stepScope stepIdx body).exec rt b).1.rt.Holds rt (rt.smCountAtStep stepIdx) :=
  deactivate_holds (GreenContextRuntime.smCountAtTime_available stepIdx)

theorem dispatch_holds (rt : GreenContextRuntime C) (b : CppBackend C) (elapsedUs : Int)
    (raises : Bool) :
    ((dispatch elapsedUs raises).exec rt b).1.rt.Holds rt (rt.smCountAtTime elapsedUs) :=
  deactivate_holds (GreenContextRuntime.smCountAtTime_available elapsedUs)

theorem restored_iff_holds {p : Program} (h : (p.exec rt b).1.rt.Holds rt n) :
    p.Restored rt b ↔ b.rt.Holds rt n := by
  constructor
  · rintro ⟨hactive, hcurrent⟩
    exact ⟨hactive ▸ h.1, hcurrent ▸ h.2⟩
  · rintro ⟨hactive, hfind⟩
    refine ⟨h.1.trans hactive.symm, Option.some.inj ?_⟩
    rw [← h.2, hfind]

/-- A scope and a dispatch restore what was there before exactly if the count that the trace gives
was active, on the thread as well. -/
theorem restored_iff (rt : GreenContextRuntime C) (b : CppBackend C) :
    (∀ stepIdx body, (stepScope stepIdx body).Restored rt b ↔
      b.rt.Holds rt (rt.smCountAtStep stepIdx)) ∧
    ∀ elapsedUs raises, (dispatch elapsedUs raises).Restored rt b ↔
      b.rt.Holds rt (rt.smCountAtTime elapsedUs) :=
  ⟨fun stepIdx body => restored_iff_holds (stepScope_holds rt b stepIdx body),
    fun elapsedUs raises => restored_iff_holds (dispatch_holds rt b elapsedUs raises)⟩

/-- Two slots, with 8 and 16 SMs; the trace asks for 8. -/
def eightOfSixteen : GreenContextRuntime Nat where
  primary := 0
  smStep := 8
  groupsPerPart := 2
  cudaCtx n := n
  traceEntries := [⟨0, 8, []⟩]
  smStep_pos := by decide
  groups_pos := by decide
  trace_valid := by decide

/-- After a scope with 8 SMs, 8 SMs stay active where 16 were. -/
theorem sixteen_not_restored : ¬ ∀ (rt : GreenContextRuntime Nat) (b : CppBackend Nat),
    (∀ stepIdx body, (stepScope stepIdx body).Restored rt b) ∧
    ∀ elapsedUs raises, (dispatch elapsedUs raises).Restored rt b := by
  intro h
  have hscope := (h eightOfSixteen ⟨{ activeSmCount := 16, current := 2 }, 0, 0⟩).1 0 skip
  exact absurd hscope.1 (by decide)

/-- A thread whose context belongs to the active count is left in such a state. -/
theorem exec_consistent (p : Program) (h : b.rt.Holds rt b.rt.activeSmCount) :
    (p.exec rt b).1.rt.Holds rt (p.exec rt b).1.rt.activeSmCount := by
  induction p generalizing b with
  | skip | raise => exact h
  | seq p q ihp ihq =>
    have hp := ihp h
    rw [exec]
    split
    · rename_i heq
      rwa [heq] at hp
    · rename_i heq
      rw [heq] at hp
      exact ihq hp
  | attempt p ih => exact ih h
  | stepScope stepIdx body =>
    have hscope := stepScope_holds rt b stepIdx body
    rwa [hscope.1]
  | dispatch elapsedUs raises =>
    have hdispatch := dispatch_holds rt b elapsedUs raises
    rwa [hdispatch.1]

theorem exec_consistent_raise :
    ((stepScope 0 raise).exec eightOfSixteen ⟨⟨16, 2, 0, 0⟩, 0, 0⟩).1.rt.Holds eightOfSixteen 8 :=
  exec_consistent _ ⟨rfl, rfl⟩

end Program
end Morphling.Scheduler
