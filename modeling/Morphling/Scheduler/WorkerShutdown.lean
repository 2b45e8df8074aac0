import Mathlib.Data.List.Nodup
import Morphling.Scheduler.WorkerStop

/-!
# What is left when a worker has stopped

* `stop_returns`: `Stop` returns, as long as `Run` and the thread that called it take steps.
* `Abandoned.exec`: a task that is in the queue when `Stop` has returned stays there. Its callback is
  not called, and the threads that wait for it do not return.
* `nobodyWaits_iff`: so the runs that leave nobody waiting are those where no such task has a
  callback or a thread that is blocked for it.
-/

namespace Morphling.Scheduler

open List

/-- How many steps `Run` takes to the end of its round and out of the loop. -/
def Pc.stepsLeft : Pc → Nat
  | .wait => 1
  | .asleep => 2
  | .calling _ _ => 2
  | .erased _ _ => 3
  | .notified _ _ => 4
  | .completed _ _ => 5
  | .counted _ => 6
  | .ran _ => 7
  | .popped _ => 8

def StopPc.stepsLeft : StopPc → Nat
  | .idle => 3
  | .flagged => 2
  | .notified => 1
  | .returned => 0

namespace Worker

variable {I : Type*} [DecidableEq I]

section Spec

variable (s : Worker I)

/-- No callback is called twice. Once `Stop` has returned no thread is blocked, and every callback
has been called. -/
structure NobodyWaits : Prop where
  once : ∀ n, s.called.count n ≤ 1
  blocked : s.stop = .returned → ∀ w ∈ s.waiters, w.status ≠ .asleep
  called : s.stop = .returned → ∀ n ∈ s.given, s.called.count n = 1

/-- The task has a callback, or a thread that is blocked until it is completed. -/
def Awaited (n : Nat) : Prop :=
  (s.states[n]?).any TaskState.callback ∨ ∃ w ∈ s.waiters, w.status = .asleep ∧ w.kind = .handle n

/-- `Stop` returns with no awaited task in the queue, and afterwards no task is added with a callback
and no thread blocks for a task that is still in the queue. -/
def StepOk : Event I → Prop
  | .stop => s.stop = .notified → s.exited = true → ∀ n ∈ s.tasks, ¬s.Awaited n
  | .addTask _ callback => s.stop = .returned → callback = false
  | .check i => s.stop = .returned → ∀ w, s.waiters[i]? = some w → w.status = .checking →
      ∀ n ∈ s.tasks, w.kind ≠ .handle n
  | _ => True

end Spec

/-! ## `Stop` returns -/

section Returns

variable {s : Worker I}

/-- The steps that `Run` and `Stop` have left. -/
def rank (s : Worker I) : Nat :=
  (if s.exited then 0 else s.pc.stepsLeft) + s.stop.stepsLeft

/-- The thread whose step is due. -/
def Helps (s : Worker I) : Event I → Prop
  | .run => s.exited = false ∧ s.pc ≠ .asleep
  | .stop => s.stop = .flagged ∨ (s.stop = .notified ∧ s.exited = true)
  | _ => False

/-- `Run` goes on with its round, and leaves the loop after it. -/
theorem stepsLeft_run (hq : s.Queue) (hwait : s.pc ≠ .wait) (hasleep : s.pc ≠ .asleep) :
    s.toWorkerBase.run.pc.stepsLeft < s.pc.stepsLeft := by
  cases hpc : s.pc with
  | wait => exact absurd hpc hwait
  | asleep => exact absurd hpc hasleep
  | counted n =>
    have hs := getElem?_eq_getElem (hq.current_lt (n := n) (by simp [hpc, Pc.current]))
    simp [WorkerBase.run_counted hpc hs, Pc.stepsLeft]
  | _ => simp [WorkerBase.run, hpc, Pc.stepsLeft]

/-- A step of `Run`, once `quit_` is set: it is one step further, or it has to wait. -/
theorem Inv.rank_run (h : s.Inv) (hstop : s.stop ≠ .idle) :
    (s.next .run).rank < s.rank ∨ s.next .run = s ∧ ¬s.Helps .run := by
  have hquit : s.quit = true := by simpa [hstop] using h.quit
  cases hexited : s.exited with
  | true => exact .inr ⟨next_run_of_exited hexited, by simp [Helps, hexited]⟩
  | false =>
    by_cases hasleep : s.pc = .asleep
    · refine .inr ⟨?_, by simp [Helps, hasleep]⟩
      rw [Worker.next, Worker.run, if_neg (by simp [hexited]), if_neg (by simp [hasleep]),
        WorkerBase.run_asleep hasleep]
    · refine .inl ?_
      simp only [Worker.next, Worker.run, hexited, hquit, rank, true_and]
      by_cases hwait : s.pc = .wait
      · simp [hwait, Pc.stepsLeft]
      · simpa [hwait, hexited] using stepsLeft_run h.queue hwait hasleep

/-- A step of `Stop`, likewise. -/
theorem rank_stop (hstop : s.stop ≠ .idle) :
    (s.next .stop).rank < s.rank ∨ s.next .stop = s ∧ ¬s.Helps .stop := by
  cases hs : s.stop with
  | idle => exact absurd hs hstop
  | flagged =>
    have hwoken : s.pc.woken.stepsLeft ≤ s.pc.stepsLeft := by
      cases s.pc <;> simp [Pc.woken, Pc.stepsLeft]
    refine .inl ?_
    simp only [next, stopStep, hs, rank, WorkerBase.notifyCv, StopPc.stepsLeft]
    split <;> omega
  | notified =>
    cases hexited : s.exited with
    | true => exact .inl (by simp [next, stopStep, hs, rank, hexited, StopPc.stepsLeft])
    | false => exact .inr ⟨by simp [next, stopStep, hs, hexited], by simp [Helps, hs, hexited]⟩
  | returned => exact .inr ⟨by simp [next, stopStep, hs], by simp [Helps, hs]⟩

omit [DecidableEq I] in
/-- The other threads can only wake `Run` up. -/
theorem Frame.rank_or {s' : Worker I} (h : Frame s s') : s'.rank < s.rank ∨
    s'.rank = s.rank ∧ ∀ e, s.Helps e → s'.Helps e := by
  by_cases hpc : s'.pc = s.pc
  · refine .inr ⟨by rw [rank, rank, hpc, h.exited, h.stop], fun e => ?_⟩
    cases e <;> simp only [Helps, hpc, h.exited, h.stop, imp_self]
  -- `Run` was blocked
  have hwoken := h.pc.resolve_left hpc
  have hasleep : s.pc = .asleep := by
    by_contra hne
    refine hpc (hwoken.trans ?_)
    cases he : s.pc <;> simp_all [Pc.woken]
  cases hexited : s.exited with
  | false =>
    refine .inl ?_
    simp [rank, h.exited, h.stop, hexited, hwoken, hasleep, Pc.woken, Pc.stepsLeft]
  | true =>
    refine .inr ⟨by simp [rank, h.exited, h.stop, hexited], fun e => ?_⟩
    cases e <;> simp [Helps, h.exited, h.stop, hexited]

theorem stop_next_ne_idle (hstop : s.stop ≠ .idle) (e : Event I) : (s.next e).stop ≠ .idle := by
  by_cases hrun : e = .run
  · rwa [hrun, stop_next_run]
  by_cases hs : e = .stop
  · subst hs
    simp only [next, stopStep]
    split
    · simp
    · simp
    · split
      · simp
      · exact hstop
    · exact hstop
  · rwa [(frame_next hrun hs).stop]

/-- `Run` and `Stop` are never stuck: `Stop` waits for `Run`, and `Run` for `Stop` at most until it has
notified. -/
theorem progress : Run.Progress next (fun s : Worker I => s.Inv ∧ s.stop ≠ .idle) (fun _ => True)
    (fun s => s.stop = .returned) rank [.run, .stop] Helps := by
  have hthread : ∀ s : Worker I, s.Inv → s.stop ≠ .idle → ∀ e ∈ [.run, .stop],
      (s.next e).rank < s.rank ∨ s.next e = s ∧ ¬s.Helps e := fun s h hstop =>
    forall_mem_cons.mpr ⟨h.rank_run hstop, forall_mem_singleton.mpr (rank_stop hstop)⟩
  refine ⟨fun s e h _ => ⟨h.1.next e, stop_next_ne_idle h.2 e⟩, fun s e h _ hreturned =>
    ((h.1.frame_of_returned hreturned).stop).trans hreturned, fun s e h _ _ => ?_, fun s h hdone => ?_,
    fun s e he h _ hhelps => (hthread s h.1 h.2 e he).resolve_right fun hn => hn.2 hhelps⟩
  · by_cases he : e ∈ [.run, .stop]
    · refine (hthread s h.1 h.2 e he).imp_right fun hn => ?_
      rw [hn.1]
      exact ⟨rfl, fun _ _ => id⟩
    · rw [mem_pair, not_or] at he
      exact (frame_next he.1 he.2).rank_or.imp_right fun hr => ⟨hr.1, fun t _ => hr.2 t⟩
  · cases hs : s.stop with
    | idle => exact absurd hs h.2
    | flagged => exact ⟨.stop, by simp, .inl hs⟩
    | notified =>
      cases hexited : s.exited with
      | true => exact ⟨.stop, by simp, .inr ⟨hs, hexited⟩⟩
      | false =>
        refine ⟨.run, by simp, hexited, fun hasleep => ?_⟩
        simpa [hs] using h.1.asleep hasleep
    | returned => exact absurd hs hdone

/-- `Stop` returns, whatever the other threads do meanwhile. -/
theorem stop_returns (es : List (Event I)) (hstop : (Run.exec next {} es).stop ≠ .idle)
    {more : List (Event I)} (hrounds : Run.Rounds [.run, .stop] 11 more) :
    (Run.exec next (Run.exec next {} es) more).stop = .returned := by
  refine progress.done_of_rounds ⟨inv_exec es, hstop⟩ (fun _ _ => trivial) ?_ hrounds
  generalize Run.exec next {} es = s at hstop
  have hpc : s.pc.stepsLeft ≤ 8 := by cases s.pc <;> simp [Pc.stepsLeft]
  have hleft : s.stop.stepsLeft ≤ 2 := by cases hs : s.stop <;> simp_all [StopPc.stepsLeft]
  rw [rank]
  split <;> omega

theorem stop_returns_queued : (Run.exec next (Run.exec next {} [.addTask 0 true, .stop])
    (replicate 11 ([.run, .stop] : List (Event Nat))).flatten).stop = .returned :=
  stop_returns _ (by decide) (Run.rounds_flatten _ 11)

end Returns

/-! ## The tasks that are left in the queue -/

section Abandoned

variable {s : Worker I} {n : Nat} {state : TaskState I}

/-- Once `Run` has left its loop, the tasks that are not completed are those in the queue. -/
theorem Inv.completed_iff (h : s.Inv) (hexited : s.exited = true) (hs : s.states[n]? = some state) :
    state.completed = true ↔ n ∉ s.tasks := by
  simpa [(h.exited hexited).2, Pc.incomplete] using h.queue.completed n state hs

/-- The task is in the queue of a worker that has stopped. -/
structure Abandoned (n : Nat) (s : Worker I) : Prop where
  returned : s.stop = .returned
  queued : n ∈ s.tasks
  called : n ∉ s.called
  waits : ∀ w ∈ s.waiters, w.kind = .handle n → w.status ≠ .returned

theorem Abandoned.next (h : Abandoned n s) (hinv : s.Inv) (e : Event I) :
    Abandoned n (s.next e) := by
  have hframe : Frame s (s.next e) := hinv.frame_of_returned h.returned
  refine ⟨hframe.stop.trans h.returned, hframe.tasks h.queued, hframe.called ▸ h.called,
    fun w hw hkind hreturned => ?_⟩
  rcases waiter_of_next hw with hw | hchecking | ⟨i, v, -, hv, -, rfl⟩
  · exact h.waits w hw hkind hreturned
  · cases hchecking.symm.trans hreturned
  -- a thread that tests its predicate finds the task not completed
  · have hkind : v.kind = .handle n := hkind
    have hlt : n < s.states.length := by
      have := (hinv.waiters v (mem_of_getElem? hv)).1
      rwa [hkind] at this
    have hcond : s.condition v.kind = false := by
      have hs := getElem?_eq_getElem hlt
      have hnot := hinv.completed_iff (hinv.returned h.returned) hs
      simpa [hkind, condition, WorkerBase.condition, hs, h.queued] using hnot
    simp [hcond] at hreturned

/-- Nothing comes of it, whatever happens next. -/
theorem Abandoned.exec {es : List (Event I)} (h : Abandoned n (Run.exec Worker.next {} es))
    (more : List (Event I)) : Abandoned n (Run.exec Worker.next (Run.exec Worker.next {} es) more) := by
  have hstep : ∀ (s : Worker I) (e : Event I), s.Inv ∧ Abandoned n s → True →
      (s.next e).Inv ∧ Abandoned n (s.next e) :=
    fun s e hs _ => ⟨hs.1.next e, hs.2.next hs.1 e⟩
  exact (Run.inv_exec hstep (fun _ _ => trivial) ⟨inv_exec es, h⟩).2

end Abandoned

/-! ## Nobody waits -/

section Settled

variable {s : Worker I} {n : Nat}

/-- Nobody waits for a task that is left in the queue. -/
def Settled (s : Worker I) : Prop := s.stop = .returned → ∀ n ∈ s.tasks, ¬s.Awaited n

/-- After `Stop` has returned, a callback is called or with its task. -/
theorem Inv.count_called (h : s.Inv) (hreturned : s.stop = .returned) (n : Nat) :
    s.called.count n + s.stored n = s.given.count n := by
  have hplace := h.callbacks.place n
  rw [h.calls, (h.exited (h.returned hreturned)).2] at hplace
  simpa [Pc.holds] using hplace

omit [DecidableEq I] in
theorem stored_eq_one_iff : s.stored n = 1 ↔ (s.states[n]?).any TaskState.callback = true := by
  cases hc : (s.states[n]?).any TaskState.callback <;> simp [WorkerBase.stored, hc]

theorem Inv.nobodyWaits_iff_settled (h : s.Inv) : s.NobodyWaits ↔ s.Settled := by
  have hnodup : ∀ n, s.given.count n ≤ 1 := nodup_iff_count_le_one.mp h.callbacks.nodup
  constructor
  · rintro hnobody hreturned n hn (hcallback | ⟨w, hw, hasleep, hkind⟩)
    · have hcount := h.count_called hreturned n
      rw [stored_eq_one_iff.mpr hcallback] at hcount
      have hgiven : n ∈ s.given := count_pos_iff.mp (by omega)
      have hcalled := hnobody.called hreturned n hgiven
      have := hnodup n
      omega
    · exact hnobody.blocked hreturned w hw hasleep
  · intro hsettled
    refine ⟨fun n => ?_, fun hreturned w hw hasleep => ?_, fun hreturned n hn => ?_⟩
    · have := h.callbacks.place n
      have := hnodup n
      omega
    · have hexited := h.returned hreturned
      have hok := h.waiters w hw
      cases hkind : w.kind with
      | all => simpa [hkind, hreturned] using hok.2 hasleep
      | byId taskId => simpa [hkind, hreturned] using hok.2 hasleep
      | handle n =>
        have hlt : n < s.states.length := by simpa [hkind, Exists] using hok.1
        have hs := getElem?_eq_getElem hlt
        -- otherwise `Run` would still be about to notify it
        have hcond : s.toWorkerBase.condition (.handle n) ≠ true := by
          intro hcond
          have hcompleted := hok.2 hasleep
          rw [hkind] at hcompleted
          obtain ⟨cb, hpc⟩ := hcompleted hcond
          cases (h.exited hexited).2.symm.trans hpc
        have hqueued : n ∈ s.tasks := by
          have hiff := h.completed_iff hexited hs
          simp only [WorkerBase.condition, hs, Option.any_some] at hcond
          exact of_not_not fun hnot => hcond (hiff.mpr hnot)
        exact hsettled hreturned n hqueued (.inr ⟨w, hw, hasleep, hkind⟩)
    · have hexited := h.returned hreturned
      have hcount := h.count_called hreturned n
      have hpos := count_pos_iff.mpr hn
      have hle := hnodup n
      have hstored : s.stored n ≠ 1 := by
        intro hone
        have hcallback := stored_eq_one_iff.mp hone
        obtain ⟨state, hs, hcb⟩ := (Option.any_eq_true _ _).mp hcallback
        -- `Run` takes the callback of a task that it completes
        have hqueued : n ∈ s.tasks := by
          refine of_not_not fun hnot => ?_
          have := h.callbacks.taken n state hs ((h.completed_iff hexited hs).mpr hnot)
          simp [this] at hcb
        exact hsettled hreturned n hqueued (.inl hcallback)
      omega

/-- A notification or a step of a waiting thread leaves nobody new waiting, if no thread blocks for
a task in the queue. -/
theorem Settled.waits (h : s.Settled) {e : Event I} (he : e.Waits)
    (hasleep : ∀ w ∈ (s.next e).waiters, w.status = .asleep → w ∈ s.waiters ∨
      (s.stop = .returned → ∀ n ∈ s.tasks, w.kind ≠ .handle n)) : (s.next e).Settled := by
  obtain ⟨pc, notifies, waiters, -, heq⟩ := next_waits (s := s) he
  rw [heq] at hasleep ⊢
  rintro hreturned n hn (hcallback | ⟨w, hw, hstatus, hkind⟩)
  · exact h hreturned n hn (.inl hcallback)
  · rcases hasleep w hw hstatus with hw | hne
    · exact h hreturned n hn (.inr ⟨w, hw, hstatus, hkind⟩)
    · exact hne hreturned n hn hkind

theorem Inv.settled_addTask_iff (h : s.Inv) (hs : s.Settled) {taskId : I} {callback : Bool} :
    (s.next (.addTask taskId callback)).Settled ↔ s.StepOk (.addTask taskId callback) := by
  constructor
  · intro hsettled hreturned
    by_contra htrue
    refine hsettled hreturned s.states.length (by simp [Worker.next, WorkerBase.addTask]) (.inl ?_)
    simpa [Worker.next, WorkerBase.addTask] using htrue
  · rintro hok hreturned n hn hawaited
    rcases mem_append.mp hn with hn | hn
    · have hlt : n < s.states.length := h.queue.mem_iff.mp (by simp [hn])
      refine hs hreturned n hn (hawaited.imp_left fun hcallback => ?_)
      simpa only [Worker.next, WorkerBase.addTask, getElem?_append_left hlt] using hcallback
    · rw [mem_singleton.mp hn] at hawaited
      rcases hawaited with hcallback | ⟨w, hw, -, hkind⟩
      · simp [Worker.next, WorkerBase.addTask, hok hreturned] at hcallback
      · -- the handle was not there before
        have hexists := (h.waiters w hw).1
        rw [hkind] at hexists
        exact Nat.lt_irrefl _ hexists

theorem Inv.settled_check_iff (h : s.Inv) (hs : s.Settled) {i : Nat} :
    (s.next (.check i)).Settled ↔ s.StepOk (.check i) := by
  constructor
  · intro hsettled hreturned w hw hchecking n hn hkind
    have hlt : n < s.states.length := by
      have hexists := (h.waiters w (mem_of_getElem? hw)).1
      rwa [hkind] at hexists
    have hstate := getElem?_eq_getElem hlt
    have hcond : s.condition (.handle n) = false := by
      have hnot := h.completed_iff (h.returned hreturned) hstate
      simpa [condition, WorkerBase.condition, hstate, hn] using hnot
    have heq : s.next (.check i) =
        { s with waiters := Pool.replace s.waiters i [{ w with status := .asleep }] } := by
      simp [Worker.next, Worker.check, hw, hchecking, hkind, hcond]
    rw [heq] at hsettled
    refine hsettled hreturned n hn (.inr ⟨{ w with status := .asleep }, ?_, rfl, hkind⟩)
    simp [Pool.replace]
  · intro hok
    refine hs.waits trivial fun w hw hasleep => ?_
    rcases waiter_of_next hw with hw | hchecking | ⟨j, v, he, hv, hchecking, rfl⟩
    · exact .inl hw
    · cases hchecking.symm.trans hasleep
    · cases he
      exact .inr fun hreturned => hok hreturned v hv hchecking

theorem settled_stop_iff (hs : s.Settled) : (s.next .stop).Settled ↔ s.StepOk .stop := by
  simp only [next, stopStep, StepOk]
  split
  · rename_i hstop
    simp [Settled, hstop]
  · rename_i hstop
    simp [Settled, hstop]
  · rename_i hstop
    split
    · rename_i hexited
      exact ⟨fun h _ _ => h rfl, fun h _ => h hstop hexited⟩
    · rename_i hexited
      simp [hexited, hs]
  · rename_i hstop
    simp [hstop, hs]

theorem Inv.settled_next_iff (h : s.Inv) (hs : s.Settled) (e : Event I) :
    (s.next e).Settled ↔ s.StepOk e := by
  -- no thread blocks in the other steps of a waiting thread
  have hwaits : ∀ e : Event I, e.Waits → (∀ i, e ≠ .check i) → (s.next e).Settled := by
    intro e he hne
    refine hs.waits he fun w hw hasleep => ?_
    rcases waiter_of_next hw with hw | hchecking | ⟨i, v, heq, -⟩
    · exact .inl hw
    · cases hchecking.symm.trans hasleep
    · exact absurd heq (hne i)
  cases e with
  | addTask taskId callback => exact h.settled_addTask_iff hs
  | check i => exact h.settled_check_iff hs
  | stop => exact settled_stop_iff hs
  | run =>
    refine iff_of_true (fun hreturned => ?_) trivial
    have hold : s.stop = .returned := stop_next_run.symm.trans hreturned
    rw [next_run_of_exited (h.returned hold)]
    exact hs hold
  | notifyAll => exact iff_of_true (hwaits _ trivial (by simp)) trivial
  | wait kind => exact iff_of_true (hwaits _ trivial (by simp)) trivial
  | wake i => exact iff_of_true (hwaits _ trivial (by simp)) trivial
  | wakeRun => exact iff_of_true (hwaits _ trivial (by simp)) trivial

end Settled

/-- For every run: nobody is left waiting after `Stop` has returned, if and only if no step leaves
somebody waiting for a task that `Run` did not take. -/
theorem nobodyWaits_iff (es : List (Event I)) :
    Run.Always next NobodyWaits ({} : Worker I) es ↔ Run.Along next StepOk ({} : Worker I) es := by
  have hstart : ({} : Worker I).Settled := fun hreturned => by cases hreturned
  refine Run.always_iff_along (P := fun _ _ => True) (J := fun s => s.Inv ∧ s.Settled)
    (fun s h => h.1.nobodyWaits_iff_settled.mpr h.2)
    (fun s e h _ hok => ⟨h.1.next e, (h.1.settled_next_iff h.2 e).mpr hok⟩)
    (fun s e h _ hnobody => ?_) (Run.Along.of_forall fun _ _ => trivial) ⟨inv_init, hstart⟩
  exact (h.1.settled_next_iff h.2 e).mp ((h.1.next e).nobodyWaits_iff_settled.mp hnobody)

/-- A task is added with a callback, and a thread blocks for it. `Stop` is called before `Run` has
taken the task. -/
def abandonedTask : List (Event Nat) :=
  [.addTask 0 true, .notifyAll, .wait (.handle 0), .check 0, .stop, .run, .stop, .stop]

/-- `Stop` has returned, and a thread is blocked. It never returns, and the callback is never
called. -/
theorem abandonedTask_waits :
    (Run.exec next {} abandonedTask).stop = .returned ∧
    (Run.exec next {} abandonedTask).waiters = [{ kind := .handle 0, since := 1, status := .asleep }] ∧
    (Run.exec next {} abandonedTask).given = [0] ∧
    ∀ more, 0 ∉ (Run.exec next (Run.exec next {} abandonedTask) more).called ∧
      ∀ w ∈ (Run.exec next (Run.exec next {} abandonedTask) more).waiters, w.kind = .handle 0 →
        w.status ≠ .returned := by
  have habandoned : Abandoned 0 (Run.exec next {} abandonedTask) :=
    ⟨by decide, by decide, by decide, by decide⟩
  refine ⟨by decide, by decide, by decide, fun more => ?_⟩
  exact ⟨(habandoned.exec more).called, (habandoned.exec more).waits⟩

end Worker
end Morphling.Scheduler
