import Mathlib.Data.List.Range
import Morphling.Lib.Pool
import Morphling.Lib.Run

/-!
# A worker and its queue (`scheduler/worker_base.h`)

Producers add tasks, one thread runs them in `Run`, and any number of threads wait. A step is a
critical section, an atomic operation, a notification, or the call of a task or of a callback.

* `Pc`: where `Run` is between two steps.
* A thread in one of the waits is about to take the lock and to test its predicate (`checking`), or
  blocked (`asleep`). A notification moves the blocked threads of its condition variable to
  `checking`, and is forgotten if there is none; a thread may also wake up without one.
* `ranTasks`, `called`, `given` and `Waiter.since` are not in the source: they record what happened,
  for `Contract`.

A task is known by its place in the order of the `AddTask` calls. `Stop` is left out, so `quit_` is
false.
-/

namespace Morphling.Scheduler

/-- `TaskState`; a callback that is set is `true`. -/
structure TaskState (I : Type*) where
  taskId : I
  completed : Bool := false
  callback : Bool := false
  deriving DecidableEq

/-- Where `Run` is. `cb` is whether it holds a callback. -/
inductive Pc where
  /-- About to take the lock and to test for tasks. -/
  | wait
  /-- Blocked in `cv_.wait`. -/
  | asleep
  /-- Before `task()`. -/
  | popped (n : Nat)
  /-- Before `task_count_--`. -/
  | ran (n : Nat)
  /-- Before the state is marked as completed. -/
  | counted (n : Nat)
  /-- Before `state->cv.notify_all()`. -/
  | completed (n : Nat) (cb : Bool)
  /-- Before `task_ids_.erase(task_id)`. -/
  | notified (n : Nat) (cb : Bool)
  /-- Before `cv_.notify_all()`. -/
  | erased (n : Nat) (cb : Bool)
  /-- Before `cb(id)`. -/
  | calling (n : Nat) (cb : Bool)
  deriving DecidableEq

/-- `Run` is blocked no more. -/
def Pc.woken : Pc → Pc
  | .asleep => .wait
  | pc => pc

/-- `WaitTaskDone()`, `WaitTaskDone(task_id)` and `TaskState::Wait()`. -/
inductive Wait (I : Type*) where
  | all
  | byId (taskId : I)
  | handle (n : Nat)
  deriving DecidableEq

inductive Status where
  | checking
  | asleep
  | returned
  deriving DecidableEq

/-- A thread in a wait; `since` is how many tasks had been added when it called. -/
structure Waiter (I : Type*) where
  kind : Wait I
  since : Nat
  status : Status := .checking
  deriving DecidableEq

/-- `WorkerBase` with its threads. -/
structure WorkerBase (I : Type*) where
  tasks : List Nat := []
  taskIds : List I := []
  taskCount : Int := 0
  /-- The states of the tasks, in the order of the `AddTask` calls. -/
  states : List (TaskState I) := []
  pc : Pc := .wait
  /-- Producers that have left the critical section of `AddTask` and will notify. -/
  notifies : Nat := 0
  /-- Tasks whose callback an `OnComplete` call is about to call. -/
  calls : List Nat := []
  waiters : List (Waiter I) := []
  ranTasks : List Nat := []
  called : List Nat := []
  given : List Nat := []

/-- What happens next. -/
inductive Event (I : Type*) where
  /-- The critical section of `AddTask`. -/
  | addTask (taskId : I) (callback : Bool)
  /-- A producer calls `cv_.notify_all()`. -/
  | notifyAll
  /-- The critical section of `OnComplete`. -/
  | onComplete (n : Nat)
  /-- An `OnComplete` call calls its callback. -/
  | invoke (i : Nat)
  /-- A thread calls one of the waits. -/
  | wait (kind : Wait I)
  /-- A thread in a wait has the lock and tests its predicate. -/
  | check (i : Nat)
  /-- A blocked thread wakes up. -/
  | wake (i : Nat)
  /-- The next step of `Run`. -/
  | run
  /-- `Run` wakes up. -/
  | wakeRun

namespace WorkerBase

variable {I : Type*} [DecidableEq I] (s : WorkerBase I)

/-- The predicate of a wait. -/
def condition : Wait I → Bool
  | .all => s.tasks.isEmpty && s.taskCount == 0
  | .byId taskId => taskId ∉ s.taskIds
  | .handle n => (s.states[n]?).any TaskState.completed

/-- The blocked threads whose wait meets `p` are notified. -/
def wakeAll (p : Wait I → Bool) (waiters : List (Waiter I)) : List (Waiter I) :=
  waiters.map fun w => if w.status = .asleep ∧ p w.kind then { w with status := .checking } else w

/-- `cv_.notify_all()`: everyone but the threads in `TaskState::Wait`. -/
def notifyCv : WorkerBase I :=
  { s with
    pc := s.pc.woken
    waiters := wakeAll (fun | .handle _ => false | _ => true) s.waiters }

def addTask (taskId : I) (callback : Bool) : WorkerBase I :=
  let n := s.states.length
  { s with
    states := s.states ++ [{ taskId := taskId, callback := callback }]
    tasks := s.tasks ++ [n]
    taskCount := s.taskCount + 1
    taskIds := if taskId ∈ s.taskIds then s.taskIds else taskId :: s.taskIds
    notifies := s.notifies + 1
    given := if callback then n :: s.given else s.given }

def onComplete (n : Nat) : WorkerBase I :=
  match s.states[n]? with
  | none => s
  | some state =>
    if state.completed then { s with calls := s.calls ++ [n], given := n :: s.given }
    else { s with
      states := s.states.set n { state with callback := true }
      given := n :: s.given }

/-- The next step of `Run`. -/
def run : WorkerBase I :=
  match s.pc with
  | .wait =>
    match s.tasks with
    | [] => { s with pc := .asleep }
    | n :: tasks => { s with pc := .popped n, tasks := tasks }
  | .asleep => s
  | .popped n => { s with pc := .ran n, ranTasks := s.ranTasks ++ [n] }
  | .ran n => { s with pc := .counted n, taskCount := s.taskCount - 1 }
  | .counted n =>
    match s.states[n]? with
    | none => s
    | some state =>
      { s with
        pc := .completed n state.callback
        states := s.states.set n { state with completed := true, callback := false } }
  | .completed n cb =>
    { s with pc := .notified n cb, waiters := wakeAll (fun kind => kind = .handle n) s.waiters }
  | .notified n cb =>
    { s with
      pc := .erased n cb
      taskIds := s.taskIds.filter fun taskId => (s.states[n]?).all (·.taskId ≠ taskId) }
  | .erased n cb => { notifyCv s with pc := .calling n cb }
  | .calling n cb => { s with pc := .wait, called := if cb then s.called ++ [n] else s.called }

/-- A step. An event that cannot happen changes nothing. -/
def next : Event I → WorkerBase I
  | .addTask taskId callback => s.addTask taskId callback
  | .notifyAll => if s.notifies = 0 then s else notifyCv { s with notifies := s.notifies - 1 }
  | .onComplete n => s.onComplete n
  | .invoke i =>
    match s.calls[i]? with
    | none => s
    | some n => { s with calls := Pool.replace s.calls i [], called := s.called ++ [n] }
  | .wait kind => { s with waiters := s.waiters ++ [{ kind := kind, since := s.states.length }] }
  | .check i =>
    match s.waiters[i]? with
    | none => s
    | some w =>
      if w.status = .checking then
        let status := if s.condition w.kind then .returned else .asleep
        { s with waiters := Pool.replace s.waiters i [{ w with status := status }] }
      else s
  | .wake i =>
    match s.waiters[i]? with
    | none => s
    | some w =>
      if w.status = .asleep then
        { s with waiters := Pool.replace s.waiters i [{ w with status := .checking }] }
      else s
  | .run => s.run
  | .wakeRun => { s with pc := s.pc.woken }

/-! ## The contract -/

end WorkerBase

/-- A step of `Run`, or of an `AddTask` or `OnComplete` call that has begun. -/
def Event.Internal {I : Type*} : Event I → Prop
  | .notifyAll | .invoke _ | .run => True
  | _ => False

/-- Before `cv_.notify_all()` of this round. -/
def Pc.willNotify : Pc → Bool
  | .popped _ | .ran _ | .counted _ | .completed _ _ | .notified _ _ | .erased _ _ => true
  | _ => false

namespace WorkerBase

variable {I : Type*} [DecidableEq I] (s : WorkerBase I)

/-- The wait is for task `n`. -/
def Concerns (n : Nat) : Wait I → Prop
  | .all => True
  | .byId taskId => (s.states[n]?).map TaskState.taskId = some taskId
  | .handle m => n = m

/-- The tasks that had been added when the thread called have run. -/
def Satisfied (w : Waiter I) : Prop := ∀ n < w.since, s.Concerns n w.kind → n ∈ s.ranTasks

/-- A notification of the condition variable of a wait is still to come. -/
def Notified : Wait I → Prop
  | .handle n => ∃ cb, s.pc = .completed n cb
  | _ => 0 < s.notifies ∨ s.pc.willNotify = true

/-- All tasks have run, and all callbacks have been called, once. -/
def Finished : Prop :=
  s.ranTasks = List.range s.states.length ∧ ∀ n ∈ s.given, s.called.count n = 1

/-- The contract of the worker. -/
structure Contract : Prop where
  /-- Tasks run in the order of the calls, each at most once. -/
  order : s.ranTasks <+: List.range s.states.length
  /-- A callback is called at most once, and after its task ran. -/
  once : s.called.Nodup
  after : ∀ n ∈ s.called, n ∈ s.given ∧ n ∈ s.ranTasks
  /-- Where nothing is left to do, everything was done. -/
  finished : s.pc = .asleep → s.tasks = [] → s.calls = [] → s.Finished
  /-- The threads that are there finish everything. -/
  progress : ∃ es : List (Event I), (∀ e ∈ es, e.Internal) ∧
    (Run.exec next s es).states.length = s.states.length ∧
    (Run.exec next s es).given = s.given ∧ (Run.exec next s es).Finished
  returned : ∀ w ∈ s.waiters, w.status = .returned → s.Satisfied w
  /-- No wakeup is lost: a blocked thread whose condition holds will be notified. -/
  wakeup : ∀ w ∈ s.waiters, w.status = .asleep → s.condition w.kind = true → s.Notified w.kind
  wakeupRun : s.pc = .asleep → s.tasks ≠ [] → 0 < s.notifies

/-- How the worker is used: a task that is not completed has an id of its own, a handle gets one
callback, and a handle that is waited for is there. -/
def Enabled : Event I → Prop
  | .addTask taskId _ => ∀ state ∈ s.states, state.taskId = taskId → state.completed = true
  | .onComplete n => n < s.states.length ∧ n ∉ s.given
  | .wait (.handle n) => n < s.states.length
  | _ => True

/-- A task is added under an id that is not in `task_ids_`. -/
def Fresh : Event I → Prop
  | .addTask taskId _ => taskId ∉ s.taskIds
  | _ => True

end WorkerBase
end Morphling.Scheduler
