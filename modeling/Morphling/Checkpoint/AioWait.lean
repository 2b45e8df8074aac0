import Morphling.Checkpoint.PrioAioInv

/-!
# Callers that wait for ever

The scheduler thread changes the counter of a request and notifies its caller without the mutex under
which the caller tests the counter. So a notification can come between a test that fails and the
block that follows it, and there is no second one.

* `Stranded`: the caller is blocked, its counter is zero, and its notification was issued.
* `aioSound_iff`: which runs strand no caller and stay defined. Two kinds of steps break this
  (`StepOk`): a caller blocks after its notification, and `Schedule` takes a block from a request of
  low priority for zero bytes, which has none.
-/

namespace Morphling.PrioAio

variable {s s' : PrioAio} {r : Nat} {e : Event}

/-- The caller is blocked and will not be notified any more. -/
structure Stranded (s : PrioAio) (r : Nat) : Prop where
  blocked : (s.requests r).caller = .blocked
  pending : (s.requests r).pendingCallbacks = 0
  notified : (s.requests r).notified = true

/-- No caller is stranded, and the scheduler thread did not take a block from an empty list. -/
structure Sound (s : PrioAio) : Prop where
  stranded : ∀ r, ¬ s.Stranded r
  defined : s.sched ≠ .undefined

/-- The step does not break `Sound`: a caller that blocks was not notified since its test, and the
first request of low priority is not empty. -/
def StepOk (s : PrioAio) : Event → Prop
  | .block r => (s.requests r).caller = .blocking → (s.requests r).notified = false
  | .schedule => s.sched = .checkLow → ∀ r ∈ s.ioQueueLow.head?, (s.requests r).call.numBytes ≠ 0
  | _ => True

/-- A notified caller is not blocked. -/
def Awake (s : PrioAio) : Prop :=
  ∀ r, (s.requests r).notified = true → (s.requests r).caller ≠ .blocked

theorem Life.pending_of_notified {q : AioRequest} {high low : Bool} {stage : Option Stage}
    (h : Life q high low stage) (hn : q.notified = true) : q.pendingCallbacks = 0 := by
  cases h with
  | notifying _ pending | settled _ pending => exact pending
  | _ => cases (‹q.notified = false›).symm.trans hn

/-- Every step but a block after the notification. -/
theorem Awake.next (h : s.Awake) (he : s.StepOk e) : (s.next e).Awake := by
  intro r
  have hr := h r
  have hstep := s.step_next e r
  generalize (s.next e).requests r = q at hstep ⊢
  cases hstep with
  | same | work => exact hr
  | call => rintro ⟨⟩
  | accept | wake => exact fun _ => by rintro ⟨⟩
  | test =>
    intro _
    dsimp only
    split <;> rintro ⟨⟩
  | block hc hevent =>
    subst hevent
    exact fun hn => by cases (he hc).symm.trans hn
  | notify =>
    intro _
    dsimp only
    split
    · rintro ⟨⟩
    next hc => exact hc

/-- The invariant of the runs that stay sound. -/
structure WaitInv (s : PrioAio) : Prop extends Inv s where
  awake : s.Awake
  defined : s.sched ≠ .undefined

theorem WaitInv.next (h : s.WaitInv) (he : s.StepOk e) : (s.next e).WaitInv := by
  refine ⟨h.toInv.next e, h.awake.next he, (h.next_defined_iff h.defined e).mpr fun hs => ?_⟩
  subst hs
  exact he

theorem WaitInv.sound (h : s.WaitInv) : s.Sound :=
  ⟨fun r hr => h.awake r hr.notified hr.blocked, h.defined⟩

/-- A caller that blocks after its notification is stranded. -/
theorem WaitInv.stepOk (h : s.WaitInv) (hnext : (s.next e).Sound) : s.StepOk e := by
  cases e with
  | block r =>
    intro hc
    refine Bool.eq_false_iff.mpr fun hn => hnext.stranded r ?_
    have hp := (h.requests.lives r).life.pending_of_notified hn
    simp only [PrioAio.next, if_pos hc]
    refine ⟨?_, ?_, ?_⟩ <;> rw [modify_requests_self]
    · exact hp
    · exact hn
  | schedule => exact (h.next_defined_iff h.defined .schedule).mp hnext.defined rfl
  | _ => trivial

/-- The runs in which no caller is stranded, and the scheduler thread takes no block from an empty
list, are those in which no caller blocks after its notification, and `Schedule` meets no empty
request of low priority. -/
theorem aioSound_iff (events : List Event) :
    Run.Always PrioAio.next Sound {} events ↔ Run.Along PrioAio.next StepOk {} events :=
  have hstart : WaitInv {} := ⟨⟨.init, .init⟩, fun _ => by rintro ⟨⟩, by rintro ⟨⟩⟩
  Run.always_iff_along (P := fun _ _ => True) (fun _ => WaitInv.sound) (fun _ _ h _ => h.next)
    (fun _ _ h _ => h.stepOk) (Run.Along.of_forall fun _ _ => trivial) hstart

/-- The caller tests, its block is executed and it is notified, and then it blocks. -/
def notifiedTooEarly : List Event :=
  [.call 0 ⟨true, 3, 0, false, 100, 0⟩, .accept 0, .test 0] ++ List.replicate 4 .schedule ++
    List.replicate 3 .run ++ List.replicate 5 .schedule ++ [.block 0]

/-- A read of zero bytes. -/
def emptyRead : List Event :=
  [.call 0 ⟨true, 3, 0, false, 0, 0⟩, .accept 0, .schedule, .schedule, .schedule]

theorem notifiedTooEarly_stranded :
    (Run.exec PrioAio.next {} notifiedTooEarly).Stranded 0 ∧
      (Run.exec PrioAio.next {} emptyRead).sched = .undefined := by
  refine ⟨⟨?_, ?_, ?_⟩, ?_⟩ <;> decide +kernel

end Morphling.PrioAio
