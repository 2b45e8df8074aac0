import Morphling.Scheduler.WorkerInv

/-!
# Stopping a worker (`scheduler/worker_base.h`)

`Worker` is the `WorkerBase` of the other modules with `quit_` and the thread that calls `Stop`. What
`quit_` changes: `Run` leaves its loop where it would have taken a task, and the predicates of
`WaitTaskDone` hold. The predicate of `TaskState::Wait` does not look at it.

* `Inv`: what every step keeps. The queue and the callbacks are as without `Stop`; once `Stop` has
  notified, only threads in `TaskState::Wait` are blocked.
* `frame_next`, `waiter_of_next`: what a step does to `Run` and `Stop`, and to a thread in a wait.

`OnComplete` is left out: callbacks are given to `AddTask`. `Stop` is called once, on a worker that
was started.
-/

namespace Morphling.Scheduler

open List

/-- Where the thread is that calls `Stop`. -/
inductive StopPc where
  | idle
  /-- Before `cv_.notify_all()`. -/
  | flagged
  /-- In `worker_.join()`. -/
  | notified
  | returned
  deriving DecidableEq

structure Worker (I : Type*) extends WorkerBase I where
  quit : Bool := false
  stop : StopPc := .idle
  /-- `Run` has left its loop. -/
  exited : Bool := false

namespace Worker

/-- What happens next: as without `Stop`, or the next step of `Stop`. -/
inductive Event (I : Type*) where
  | addTask (taskId : I) (callback : Bool)
  | notifyAll
  | wait (kind : Wait I)
  | check (i : Nat)
  | wake (i : Nat)
  | run
  | wakeRun
  | stop

variable {I : Type*} [DecidableEq I] {b : WorkerBase I}

section Model

variable (s : Worker I)

/-- The predicate of a wait. -/
def condition : Wait I → Bool
  | .handle n => s.toWorkerBase.condition (.handle n)
  | kind => s.toWorkerBase.condition kind || s.quit

/-- The handle that a thread waits for is there. -/
def Exists : Wait I → Prop
  | .handle n => n < s.states.length
  | _ => True

instance : (kind : Wait I) → Decidable (s.Exists kind)
  | .handle n => inferInstanceAs (Decidable (n < s.states.length))
  | .all | .byId _ => inferInstanceAs (Decidable True)

/-- A thread in a wait has the lock and tests its predicate. -/
def check (i : Nat) : Worker I :=
  match s.waiters[i]? with
  | none => s
  | some w =>
    if w.status = .checking then
      let status := if s.condition w.kind then .returned else .asleep
      { s with waiters := Pool.replace s.waiters i [{ w with status := status }] }
    else s

/-- The next step of `Run`. The wait ends when there are tasks or `quit_` is set, and the loop when
`quit_` is set, whether there are tasks or not. -/
def run : Worker I :=
  if s.exited then s
  else if s.quit ∧ s.pc = .wait then { s with exited := true }
  else { s with toWorkerBase := s.toWorkerBase.run }

/-- The next step of `Stop`. -/
def stopStep : Worker I :=
  match s.stop with
  | .idle => { s with quit := true, stop := .flagged }
  | .flagged => { s with toWorkerBase := s.notifyCv, stop := .notified }
  | .notified => if s.exited then { s with stop := .returned } else s
  | .returned => s

/-- A step. An event that cannot happen changes nothing. -/
def next : Event I → Worker I
  | .addTask taskId callback => { s with toWorkerBase := s.toWorkerBase.addTask taskId callback }
  | .notifyAll => { s with toWorkerBase := s.toWorkerBase.next .notifyAll }
  | .wait kind =>
    if s.Exists kind then { s with toWorkerBase := s.toWorkerBase.next (.wait kind) } else s
  | .check i => s.check i
  | .wake i => { s with toWorkerBase := s.toWorkerBase.next (.wake i) }
  | .run => s.run
  | .wakeRun => { s with toWorkerBase := s.toWorkerBase.next .wakeRun }
  | .stop => s.stopStep

end Model

/-! ## The invariant -/

section Invariant

variable {s s' : Worker I} {w : Waiter I}

/-- A blocked thread will be notified if its predicate holds. -/
def WaiterOk (s : Worker I) (w : Waiter I) : Prop :=
  s.Exists w.kind ∧ (w.status = .asleep →
    match w.kind with
    | .handle n => s.toWorkerBase.condition (.handle n) = true → ∃ cb, s.pc = .completed n cb
    | _ => s.stop = .idle ∨ s.stop = .flagged)

structure Inv (s : Worker I) : Prop where
  queue : s.Queue
  callbacks : s.Callbacks
  calls : s.calls = []
  waiters : ∀ w ∈ s.waiters, s.WaiterOk w
  asleep : s.pc = .asleep → s.stop = .idle ∨ s.stop = .flagged
  quit : s.quit = false ↔ s.stop = .idle
  exited : s.exited = true → s.quit = true ∧ s.pc = .wait
  returned : s.stop = .returned → s.exited = true

theorem inv_init : (({} : Worker I)).Inv where
  queue := ⟨rfl, by simp [Pc.current], rfl, by simp⟩
  callbacks := ⟨by simp [WorkerBase.stored, Pc.holds], nodup_nil, by simp, by simp,
    by simp [Pc.holds]⟩
  calls := rfl
  waiters := by simp
  asleep := by simp
  quit := by simp
  exited := by simp
  returned := by simp

theorem WaiterOk.checking (h : s.WaiterOk w) : s.WaiterOk { w with status := .checking } :=
  ⟨h.1, by simp⟩

/-- Who waits for what is left alone by a step that keeps the states of the tasks and the place of
`Run`, up to its being blocked. -/
theorem WaiterOk.congr (h : s.WaiterOk w) (hstates : s'.states = s.states)
    (hpc : ∀ n cb, s.pc = .completed n cb → s'.pc = .completed n cb) (hstop : s'.stop = s.stop) :
    s'.WaiterOk w := by
  obtain ⟨kind, since, status⟩ := w
  cases kind with
  | all => exact ⟨trivial, fun hasleep => hstop ▸ h.2 hasleep⟩
  | byId taskId => exact ⟨trivial, fun hasleep => hstop ▸ h.2 hasleep⟩
  | handle n =>
    refine ⟨by simpa only [Exists, hstates] using h.1, fun hasleep hcond => ?_⟩
    simp only [WorkerBase.condition, hstates] at hcond
    obtain ⟨cb, hcompleted⟩ := h.2 hasleep hcond
    exact ⟨cb, hpc n cb hcompleted⟩

/-- After a notification the threads that are still blocked are not among those notified. -/
theorem WaiterOk.of_mem_wakeAll {p : Wait I → Bool} (h : ∀ w ∈ s.waiters, s.WaiterOk w)
    (hw : w ∈ WorkerBase.wakeAll p s.waiters) :
    s.WaiterOk w ∧ (w.status = .asleep → p w.kind = false) := by
  obtain ⟨v, hv, rfl⟩ := mem_map.mp hw
  by_cases hp : v.status = .asleep ∧ p v.kind
  · rw [if_pos hp]
    exact ⟨(h v hv).checking, by simp⟩
  · rw [if_neg hp]
    exact ⟨h v hv, fun hasleep => by simpa [hasleep] using hp⟩

theorem WaiterOk.of_mem_notifyCv (h : ∀ w ∈ s.waiters, s.WaiterOk w) (hw : w ∈ s.notifyCv.waiters) :
    s.WaiterOk w ∧ (w.status = .asleep → ∃ n, w.kind = .handle n) := by
  simp only [WorkerBase.notifyCv] at hw
  obtain ⟨hok, hblocked⟩ := WaiterOk.of_mem_wakeAll h hw
  refine ⟨hok, fun hasleep => ?_⟩
  have hkind := hblocked hasleep
  split at hkind
  · rename_i n he
    exact ⟨n, he⟩
  · cases hkind

/-- A thread is replaced by itself with another status. -/
theorem waiters_replace {i : Nat} (h : ∀ w ∈ s.waiters, s.WaiterOk w) (hw : s.WaiterOk w) :
    ∀ v ∈ Pool.replace s.waiters i [w], s.WaiterOk v := by
  intro v hv
  rcases Pool.mem_replace hv with hv | hv
  · exact h v hv
  · exact mem_singleton.mp hv ▸ hw

theorem calls_run (b : WorkerBase I) : b.run.calls = b.calls := by
  unfold WorkerBase.run
  split <;> first | rfl | (split <;> rfl)

/-- Where `Run` blocks. -/
theorem run_eq_asleep (h : b.run.pc = .asleep) : b.pc = .asleep ∨ b.pc = .wait := by
  revert h
  cases hpc : b.pc with
  | wait => simp
  | asleep => simp
  | counted n =>
    simp only [WorkerBase.run, hpc]
    split <;> simp [hpc]
  | _ => simp [WorkerBase.run, hpc]

namespace Inv

variable (h : s.Inv)
include h

theorem addTask (taskId : I) (callback : Bool) : (s.next (.addTask taskId callback)).Inv where
  queue := h.queue.addTask taskId callback
  callbacks := h.callbacks.addTask taskId callback
  calls := h.calls
  waiters w hw := by
    obtain ⟨kind, since, status⟩ := w
    have hold := h.waiters _ hw
    cases kind with
    | all => exact hold
    | byId id => exact hold
    | handle n =>
      have hlt : n < s.states.length := hold.1
      refine ⟨?_, fun hasleep hcond => hold.2 hasleep ?_⟩
      · simp only [Exists, next, WorkerBase.addTask, length_append]
        omega
      · simpa only [WorkerBase.condition, next, WorkerBase.addTask, getElem?_append_left hlt]
          using hcond
  asleep := h.asleep
  quit := h.quit
  exited := h.exited
  returned := h.returned

/-- Only the place of `Run`, the threads and the pending notifications change. -/
theorem wakeups (hstates : b.states = s.states) (htasks : b.tasks = s.tasks)
    (hcount : b.taskCount = s.taskCount) (hran : b.ranTasks = s.ranTasks)
    (hcalled : b.called = s.called) (hcalls : b.calls = s.calls) (hgiven : b.given = s.given)
    (hpc : b.pc = s.pc ∨ b.pc = s.pc.woken)
    (hwaiters : ∀ w ∈ b.waiters, ({ s with toWorkerBase := b } : Worker I).WaiterOk w) :
    ({ s with toWorkerBase := b } : Worker I).Inv := by
  have hsame : s.pc.Same b.pc := hpc.elim .inl fun e => e ▸ Pc.same_woken
  refine ⟨h.queue.congr hran htasks hstates hcount hsame,
    h.callbacks.congr hcalled hcalls hsame.lists.2.2.2.2.2.1 hstates hgiven (by simp [hran]),
    hcalls.trans h.calls, hwaiters, fun hasleep => ?_, h.quit, fun hexited => ?_, h.returned⟩
  · rcases hpc with hpc | hpc
    · exact h.asleep (hpc ▸ hasleep)
    · exact absurd (hpc ▸ hasleep) Pc.woken_ne_asleep
  · obtain ⟨hquit, hwait⟩ := h.exited hexited
    refine ⟨hquit, ?_⟩
    rcases hpc with hpc | hpc
    · exact hpc.trans hwait
    · simp only [hpc, hwait, Pc.woken]

theorem notifyAll : (s.next .notifyAll).Inv := by
  simp only [next, WorkerBase.next]
  split
  · exact h
  · refine h.wakeups rfl rfl rfl rfl rfl rfl rfl (.inr rfl) fun w hw => ?_
    refine (WaiterOk.of_mem_notifyCv h.waiters hw).1.congr rfl (fun n cb hpc => ?_) rfl
    simp [WorkerBase.notifyCv, hpc, Pc.woken]

theorem wait (kind : Wait I) : (s.next (.wait kind)).Inv := by
  simp only [next]
  split
  · rename_i hexists
    refine h.wakeups rfl rfl rfl rfl rfl rfl rfl (.inl rfl) fun w hw => ?_
    rcases mem_append.mp hw with hw | hw
    · exact h.waiters w hw
    · rw [mem_singleton.mp hw]
      exact ⟨hexists, by simp⟩
  · exact h

/-- A thread that blocks has found its predicate false. -/
theorem check (i : Nat) : (s.next (.check i)).Inv := by
  simp only [next, Worker.check]
  split
  · exact h
  rename_i w hi
  split
  · refine h.wakeups rfl rfl rfl rfl rfl rfl rfl (.inl rfl) ?_
    refine waiters_replace h.waiters ⟨(h.waiters w (mem_of_getElem? hi)).1, fun hasleep => ?_⟩
    have hcond : s.condition w.kind = false := by
      by_contra hne
      simp [hne] at hasleep
    cases hkind : w.kind with
    | all =>
      simp only [hkind, condition, Bool.or_eq_false_iff] at hcond
      exact .inl (h.quit.mp hcond.2)
    | byId taskId =>
      simp only [hkind, condition, Bool.or_eq_false_iff] at hcond
      exact .inl (h.quit.mp hcond.2)
    | handle n =>
      simp only [hkind, condition] at hcond
      exact fun htrue => absurd htrue (by simp [hcond])
  · exact h

theorem wake (i : Nat) : (s.next (.wake i)).Inv := by
  simp only [next, WorkerBase.next]
  split
  · exact h
  rename_i w hi
  split
  · refine h.wakeups rfl rfl rfl rfl rfl rfl rfl (.inl rfl) ?_
    exact waiters_replace h.waiters (h.waiters w (mem_of_getElem? hi)).checking
  · exact h

theorem wakeRun : (s.next .wakeRun).Inv := by
  refine h.wakeups rfl rfl rfl rfl rfl rfl rfl (.inr rfl) fun w hw => ?_
  exact (h.waiters w hw).congr rfl (fun n cb hpc => by simp [WorkerBase.next, hpc, Pc.woken]) rfl

/-- `Run` and the threads that wait for tasks, in a step of a round. -/
theorem waiters_run : ∀ w ∈ s.toWorkerBase.run.waiters,
    ({ s with toWorkerBase := s.toWorkerBase.run } : Worker I).WaiterOk w := by
  cases hpc : s.pc with
  | wait =>
    cases ht : s.tasks with
    | nil =>
      rw [WorkerBase.run_wait_nil hpc ht]
      exact fun w hw => (h.waiters w hw).congr rfl (by simp [hpc]) rfl
    | cons n tasks =>
      rw [WorkerBase.run_wait_cons hpc ht]
      exact fun w hw => (h.waiters w hw).congr rfl (by simp [hpc]) rfl
  | asleep =>
    rw [WorkerBase.run_asleep hpc]
    exact h.waiters
  | popped n =>
    rw [WorkerBase.run_popped hpc]
    exact fun w hw => (h.waiters w hw).congr rfl (by simp [hpc]) rfl
  | ran n =>
    rw [WorkerBase.run_ran hpc]
    exact fun w hw => (h.waiters w hw).congr rfl (by simp [hpc]) rfl
  | counted n =>
    have hs := getElem?_eq_getElem (h.queue.current_lt (n := n) (by simp [hpc, Pc.current]))
    rw [WorkerBase.run_counted hpc hs]
    rintro ⟨kind, since, status⟩ hw
    have hold := h.waiters _ hw
    cases kind with
    | all => exact hold
    | byId taskId => exact hold
    | handle m =>
      refine ⟨by simpa [Exists] using hold.1, fun hasleep hcond => ?_⟩
      -- the only state that became completed is that of the round
      by_cases hmn : m = n
      · exact ⟨_, by rw [hmn]⟩
      · simp only [WorkerBase.condition, getElem?_set_ne (Ne.symm hmn)] at hcond
        obtain ⟨cb, hcompleted⟩ := hold.2 hasleep hcond
        cases hpc.symm.trans hcompleted
  | completed n cb =>
    rw [WorkerBase.run_completed hpc]
    rintro ⟨kind, since, status⟩ hw
    simp only at hw
    obtain ⟨hold, hblocked⟩ := WaiterOk.of_mem_wakeAll h.waiters hw
    cases kind with
    | all => exact hold
    | byId taskId => exact hold
    | handle m =>
      refine ⟨hold.1, fun hasleep hcond => ?_⟩
      obtain ⟨cb', hcompleted⟩ := hold.2 hasleep hcond
      rw [hpc, Pc.completed.injEq] at hcompleted
      simpa [hcompleted.1] using hblocked hasleep
  | notified n cb =>
    rw [WorkerBase.run_notified hpc]
    exact fun w hw => (h.waiters w hw).congr rfl (by simp [hpc]) rfl
  | erased n cb =>
    rw [WorkerBase.run_erased hpc]
    exact fun w hw => (WaiterOk.of_mem_notifyCv h.waiters hw).1.congr rfl (by simp [hpc]) rfl
  | calling n cb =>
    rw [WorkerBase.run_calling hpc]
    exact fun w hw => (h.waiters w hw).congr rfl (by simp [hpc]) rfl

theorem run : (s.next .run).Inv := by
  simp only [next, Worker.run]
  split
  · exact h
  rename_i hexited
  split
  · rename_i hquit
    refine ⟨h.queue, h.callbacks, h.calls, h.waiters, h.asleep, h.quit, fun _ => hquit, ?_⟩
    exact fun hreturned => absurd (h.returned hreturned) hexited
  · rename_i hquit
    refine ⟨h.queue.run, h.callbacks.run h.queue, ?_, h.waiters_run, ?_, h.quit,
      fun h' => absurd h' hexited, h.returned⟩
    · exact (calls_run s.toWorkerBase).trans h.calls
    · -- `Run` blocks only where `quit_` is false
      intro hasleep
      rcases run_eq_asleep hasleep with hold | hwait
      · exact h.asleep hold
      · exact .inl (h.quit.mp (by simpa [hwait] using hquit))

theorem stop : (s.next .stop).Inv := by
  simp only [next, stopStep]
  split
  · rename_i hstop
    refine ⟨h.queue, h.callbacks, h.calls, fun w hw => ?_, fun _ => .inr rfl, by simp,
      fun hexited => ⟨rfl, (h.exited hexited).2⟩, by simp⟩
    obtain ⟨hexists, hasleep⟩ := h.waiters w hw
    refine ⟨hexists, fun hstatus => ?_⟩
    have hold := hasleep hstatus
    cases hkind : w.kind with
    | all => exact .inr rfl
    | byId taskId => exact .inr rfl
    | handle n => rwa [hkind] at hold
  · rename_i hstop
    have hquit : s.quit = true := by simpa [hstop] using h.quit
    refine ⟨h.queue.congr rfl rfl rfl rfl Pc.same_woken,
      h.callbacks.congr rfl rfl Pc.same_woken.lists.2.2.2.2.2.1 rfl rfl (List.Subset.refl _),
      h.calls, ?_, fun hasleep => absurd hasleep Pc.woken_ne_asleep, by simp [hquit],
      fun hexited => ⟨hquit, ?_⟩, by simp⟩
    · rintro ⟨kind, since, status⟩ hw
      obtain ⟨hold, hblocked⟩ := WaiterOk.of_mem_notifyCv h.waiters hw
      cases kind with
      | all => exact ⟨trivial, fun hasleep => by simpa using hblocked hasleep⟩
      | byId taskId => exact ⟨trivial, fun hasleep => by simpa using hblocked hasleep⟩
      | handle n =>
        refine ⟨hold.1, fun hasleep hcond => ?_⟩
        obtain ⟨cb, hcompleted⟩ := hold.2 hasleep hcond
        exact ⟨cb, by simp [WorkerBase.notifyCv, hcompleted, Pc.woken]⟩
    · simp [WorkerBase.notifyCv, (h.exited hexited).2, Pc.woken]
  · rename_i hstop
    split
    · rename_i hexited
      refine ⟨h.queue, h.callbacks, h.calls, ?_, fun hasleep => ?_, ?_, h.exited, fun _ => hexited⟩
      · rintro ⟨kind, since, status⟩ hw
        have hold := h.waiters _ hw
        cases kind with
        | all => exact ⟨trivial, fun hasleep => by simpa [hstop] using hold.2 hasleep⟩
        | byId taskId => exact ⟨trivial, fun hasleep => by simpa [hstop] using hold.2 hasleep⟩
        | handle n => exact hold
      · simpa [hstop] using h.asleep hasleep
      · simp [(h.exited hexited).1]
    · exact h
  · exact h

theorem next (e : Event I) : (s.next e).Inv := by
  cases e with
  | addTask taskId callback => exact h.addTask taskId callback
  | notifyAll => exact h.notifyAll
  | wait kind => exact h.wait kind
  | check i => exact h.check i
  | wake i => exact h.wake i
  | run => exact h.run
  | wakeRun => exact h.wakeRun
  | stop => exact h.stop

end Inv

theorem inv_exec (es : List (Event I)) : (Run.exec next ({} : Worker I) es).Inv :=
  Run.inv_exec (fun _ e h (_ : True) => h.next e) (fun _ _ => trivial) inv_init

end Invariant

/-! ## What a step does -/

section Steps

variable {s : Worker I} {w : Waiter I} {e : Event I} {n : Nat}

/-- What the producers and the threads that wait do to `Run` and to `Stop`. -/
structure Frame (s s' : Worker I) : Prop where
  stop : s'.stop = s.stop
  quit : s'.quit = s.quit
  exited : s'.exited = s.exited
  pc : s'.pc = s.pc ∨ s'.pc = s.pc.woken
  called : s'.called = s.called
  tasks : s.tasks ⊆ s'.tasks

omit [DecidableEq I] in
theorem Frame.refl (s : Worker I) : Frame s s :=
  ⟨rfl, rfl, rfl, .inl rfl, rfl, List.Subset.refl _⟩

/-- A notification, or a step of a thread in a wait. -/
def Event.Waits : Event I → Prop
  | .notifyAll | .wait _ | .check _ | .wake _ | .wakeRun => True
  | _ => False

/-- All that such a step changes. -/
theorem next_waits (he : e.Waits) : ∃ pc notifies waiters, (pc = s.pc ∨ pc = s.pc.woken) ∧
    s.next e = { s with pc := pc, notifies := notifies, waiters := waiters } := by
  cases e with
  | addTask taskId callback => cases he
  | notifyAll =>
    simp only [next, WorkerBase.next]
    split
    · exact ⟨_, _, _, .inl rfl, rfl⟩
    · exact ⟨_, _, _, .inr rfl, rfl⟩
  | wait kind =>
    simp only [next]
    split <;> exact ⟨_, _, _, .inl rfl, rfl⟩
  | check i =>
    simp only [next, check]
    split
    · exact ⟨_, _, _, .inl rfl, rfl⟩
    · split <;> exact ⟨_, _, _, .inl rfl, rfl⟩
  | wake i =>
    simp only [next, WorkerBase.next]
    split
    · exact ⟨_, _, _, .inl rfl, rfl⟩
    · split <;> exact ⟨_, _, _, .inl rfl, rfl⟩
  | run => cases he
  | wakeRun => exact ⟨_, _, _, .inr rfl, rfl⟩
  | stop => cases he

theorem frame_next (hrun : e ≠ .run) (hstop : e ≠ .stop) : Frame s (s.next e) := by
  by_cases he : e.Waits
  · obtain ⟨pc, notifies, waiters, hpc, heq⟩ := next_waits (s := s) he
    rw [heq]
    exact ⟨rfl, rfl, rfl, hpc, rfl, List.Subset.refl _⟩
  · cases e with
    | addTask taskId callback => exact ⟨rfl, rfl, rfl, .inl rfl, rfl, subset_append_left _ _⟩
    | run => exact absurd rfl hrun
    | stop => exact absurd rfl hstop
    | _ => exact absurd trivial he

theorem stop_next_run : (s.next .run).stop = s.stop := by
  simp only [next, run]
  split
  · rfl
  · split <;> rfl

theorem next_run_of_exited (h : s.exited = true) : s.next .run = s := by
  rw [next, run, if_pos h]

/-- After `Stop` has returned the worker and the thread that stopped it are gone. -/
theorem Inv.frame_of_returned (h : s.Inv) (hreturned : s.stop = .returned) : Frame s (s.next e) := by
  by_cases hrun : e = .run
  · rw [hrun, next_run_of_exited (h.returned hreturned)]
    exact .refl s
  by_cases hstop : e = .stop
  · rw [hstop, Worker.next, stopStep, hreturned]
    exact .refl s
  exact frame_next hrun hstop

omit [DecidableEq I] in
theorem waiter_of_wakeAll (p : Wait I → Bool) {waiters : List (Waiter I)}
    (hw : w ∈ WorkerBase.wakeAll p waiters) : w ∈ waiters ∨ w.status = .checking := by
  rcases WorkerBase.mem_wakeAll hw with ⟨hw, -⟩ | ⟨-, -, hchecking, -⟩
  · exact .inl hw
  · exact .inr hchecking

omit [DecidableEq I] in
theorem waiter_of_notifyCv (hw : w ∈ b.notifyCv.waiters) : w ∈ b.waiters ∨ w.status = .checking :=
  waiter_of_wakeAll _ (by simpa only [WorkerBase.notifyCv] using hw)

theorem waiter_of_run (hw : w ∈ b.run.waiters) : w ∈ b.waiters ∨ w.status = .checking := by
  cases hpc : b.pc with
  | wait =>
    cases ht : b.tasks with
    | nil => exact .inl (by simpa [WorkerBase.run, hpc, ht] using hw)
    | cons n tasks => exact .inl (by simpa [WorkerBase.run, hpc, ht] using hw)
  | counted n =>
    simp only [WorkerBase.run, hpc] at hw
    split at hw <;> exact .inl hw
  | completed n cb =>
    rw [WorkerBase.run_completed hpc] at hw
    exact waiter_of_wakeAll (fun kind => kind = .handle n) hw
  | erased n cb =>
    rw [WorkerBase.run_erased hpc] at hw
    exact waiter_of_notifyCv hw
  | _ => exact .inl (by simpa [WorkerBase.run, hpc] using hw)

/-- A thread in a wait is as before, about to test its predicate, or has just tested it. -/
theorem waiter_of_next (hw : w ∈ (s.next e).waiters) : w ∈ s.waiters ∨ w.status = .checking ∨
    ∃ i v, e = .check i ∧ s.waiters[i]? = some v ∧ v.status = .checking ∧
      w = { v with status := if s.condition v.kind then .returned else .asleep } := by
  cases e with
  | addTask taskId callback => exact .inl hw
  | notifyAll =>
    simp only [next, WorkerBase.next] at hw
    split at hw
    · exact .inl hw
    · exact (waiter_of_notifyCv hw).imp_right .inl
  | wait kind =>
    simp only [next] at hw
    split at hw
    · refine (mem_append.mp hw).imp_right fun hw => .inl ?_
      rw [mem_singleton.mp hw]
    · exact .inl hw
  | check i =>
    simp only [next, check] at hw
    split at hw
    · exact .inl hw
    rename_i v hi
    split at hw
    · rename_i hchecking
      refine (Pool.mem_replace hw).imp_right fun hw => .inr ⟨i, v, rfl, hi, hchecking, ?_⟩
      exact mem_singleton.mp hw
    · exact .inl hw
  | wake i =>
    simp only [next, WorkerBase.next] at hw
    split at hw
    · exact .inl hw
    split at hw
    · refine (Pool.mem_replace hw).imp_right fun hw => .inl ?_
      rw [mem_singleton.mp hw]
    · exact .inl hw
  | run =>
    simp only [next, run] at hw
    split at hw
    · exact .inl hw
    split at hw
    · exact .inl hw
    · exact (waiter_of_run hw).imp_right .inl
  | wakeRun => exact .inl hw
  | stop =>
    simp only [next, stopStep] at hw
    split at hw
    · exact .inl hw
    · exact (waiter_of_notifyCv hw).imp_right .inl
    · split at hw <;> exact .inl hw
    · exact .inl hw

end Steps

end Worker
end Morphling.Scheduler
