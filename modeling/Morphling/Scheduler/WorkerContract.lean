import Mathlib.Data.List.Nodup
import Morphling.Scheduler.WorkerInv

/-!
# The contract of a worker

`Inv` gives the contract. It is kept as long as no task is added under an id that is still in
`task_ids_`; where one is, its id goes with the id of the task before it, and
`WaitTaskDone(task_id)` returns before it ran. `AddTask` callers cannot see that: the earlier task
may be completed, and its `TaskState::Wait()` returned.

* `Inv.contract`: the contract, in every state that meets `Inv`.
* `Robust`: the contract holds however it goes on, as long as no task is added.
* `robust_iff`: the runs in which it always does are those whose `AddTask` calls are `Fresh`.
-/

namespace Morphling.Scheduler

open List

/-- How far `Run` is from being blocked. -/
def Pc.rank : Pc → Nat
  | .asleep => 0
  | .wait => 1
  | .calling _ _ => 2
  | .erased _ _ => 3
  | .notified _ _ => 4
  | .completed _ _ => 5
  | .counted _ => 6
  | .ran _ => 7
  | .popped _ => 8

/-- An `AddTask` call. -/
def Event.Adds {I : Type*} : Event I → Prop
  | .addTask _ _ => True
  | _ => False

namespace WorkerBase

variable {I : Type*} {s : WorkerBase I} {n m : Nat} {e : Event I}
  {es : List (Event I)}

theorem enabled_of_internal (h : e.Internal) : s.Enabled e ∧ s.Fresh e := by
  cases e <;> first | exact ⟨trivial, trivial⟩ | cases h

theorem fresh_of_not_adds (h : ¬e.Adds) : s.Fresh e := by
  cases e <;> first | trivial | exact absurd trivial h

variable [DecidableEq I] {taskId : I} {cb : Bool}

/-! ## Progress -/

theorem run_keeps : s.run.states.length = s.states.length ∧ s.run.given = s.given := by
  unfold run
  split
  case h_1 => split <;> exact ⟨rfl, rfl⟩
  case h_5 =>
    split
    · exact ⟨rfl, rfl⟩
    · exact ⟨by simp, rfl⟩
  all_goals exact ⟨rfl, rfl⟩

theorem next_internal (h : e.Internal) :
    (s.next e).states.length = s.states.length ∧ (s.next e).given = s.given := by
  cases e with
  | notifyAll =>
    simp only [next]
    split <;> exact ⟨rfl, rfl⟩
  | invoke i =>
    simp only [next]
    split <;> exact ⟨rfl, rfl⟩
  | run => exact run_keeps
  | _ => cases h

theorem Inv.exec_internal (h : s.Inv) (hes : ∀ e ∈ es, e.Internal) :
    (Run.exec next s es).Inv ∧ (Run.exec next s es).states.length = s.states.length ∧
      (Run.exec next s es).given = s.given := by
  induction es generalizing s with
  | nil => exact ⟨h, rfl, rfl⟩
  | cons e es ih =>
    have he := hes e mem_cons_self
    have hnext := h.step (enabled_of_internal he).1 (enabled_of_internal he).2
    obtain ⟨hinv, hlen, hgiven⟩ := ih hnext fun e he => hes e (mem_cons_of_mem _ he)
    obtain ⟨hlen', hgiven'⟩ := next_internal (s := s) he
    exact ⟨hinv, hlen.trans hlen', hgiven.trans hgiven'⟩

/-- What `Run` has to do. -/
def rank (s : WorkerBase I) : Nat := 9 * s.tasks.length + s.pc.rank

/-- `Run` gets on. Where it is blocked with tasks in the queue, a producer wakes it up. -/
theorem Inv.exists_rank_lt (h : s.Inv) (hbusy : ¬(s.pc = .asleep ∧ s.tasks = [])) :
    ∃ es : List (Event I), (∀ e ∈ es, e.Internal) ∧ (Run.exec next s es).rank < s.rank := by
  by_cases hasleep : s.pc = .asleep
  · have ht : s.tasks ≠ [] := fun ht => hbusy ⟨hasleep, ht⟩
    obtain ⟨n, tasks, ht'⟩ := exists_cons_of_ne_nil ht
    have hnotifies := h.waits.wakeupRun hasleep ht
    refine ⟨[.notifyAll, .run], by simp [Event.Internal], ?_⟩
    have hwoken : s.next .notifyAll = notifyCv { s with notifies := s.notifies - 1 } :=
      if_neg (Nat.ne_of_gt hnotifies)
    have hrun : (s.next .notifyAll).run =
        { s.next .notifyAll with pc := .popped n, tasks := tasks } := by
      refine run_wait_cons ?_ ?_
      · simp [hwoken, notifyCv, hasleep, Pc.woken]
      · simp [hwoken, notifyCv, ht']
    change (s.next .notifyAll).run.rank < s.rank
    simp only [hrun, rank, hasleep, ht', Pc.rank, length_cons]
    omega
  · refine ⟨[.run], by simp [Event.Internal], ?_⟩
    simp only [Run.exec_cons, Run.exec_nil, next]
    cases hpc : s.pc with
    | wait =>
      cases ht : s.tasks with
      | nil => simp [run_wait_nil hpc ht, rank, hpc, ht, Pc.rank]
      | cons n tasks =>
        simp only [run_wait_cons hpc ht, rank, hpc, ht, Pc.rank, length_cons]
        omega
    | asleep => exact absurd hpc hasleep
    | popped n => simp [run_popped hpc, rank, hpc, Pc.rank]
    | ran n => simp [run_ran hpc, rank, hpc, Pc.rank]
    | counted n =>
      have hlt := h.queue.current_lt (n := n) (by simp [hpc, Pc.current])
      simp [run_counted hpc (getElem?_eq_getElem hlt), rank, hpc, Pc.rank]
    | completed n cb => simp [run_completed hpc, rank, hpc, Pc.rank]
    | notified n cb => simp [run_notified hpc, rank, hpc, Pc.rank]
    | erased n cb => simp [run_erased hpc, rank, hpc, Pc.rank, notifyCv]
    | calling n cb => simp [run_calling hpc, rank, hpc, Pc.rank]

theorem Inv.exists_idle (h : s.Inv) : ∃ es : List (Event I), (∀ e ∈ es, e.Internal) ∧
    (Run.exec next s es).Inv ∧ (Run.exec next s es).pc = .asleep ∧
    (Run.exec next s es).tasks = [] := by
  refine Run.exists_exec_of_rank (fun s => s.pc = .asleep ∧ s.tasks = []) rank
    (fun s h hbusy => ?_) h
  obtain ⟨es, hes, hlt⟩ := Inv.exists_rank_lt h hbusy
  exact ⟨es, hes, (h.exec_internal hes).1, hlt⟩

/-- The `OnComplete` calls that have begun call their callbacks. -/
theorem exists_called (hpc : s.pc = .asleep) (ht : s.tasks = []) :
    ∃ es : List (Event I), (∀ e ∈ es, e.Internal) ∧ (Run.exec next s es).pc = .asleep ∧
      (Run.exec next s es).tasks = [] ∧ (Run.exec next s es).calls = [] := by
  induction hc : s.calls generalizing s with
  | nil => exact ⟨[], by simp, hpc, ht, hc⟩
  | cons n calls ih =>
    have hnext : s.next (.invoke 0) = { s with calls := calls, called := s.called ++ [n] } := by
      simp [next, hc, Pool.replace]
    obtain ⟨es, hes, hdone⟩ := ih (s := s.next (.invoke 0)) (by rw [hnext]; exact hpc)
      (by rw [hnext]; exact ht) (by rw [hnext])
    refine ⟨.invoke 0 :: es, ?_, by simpa using hdone⟩
    simpa [Event.Internal] using hes

theorem Inv.finished (h : s.Inv) (hpc : s.pc = .asleep) (ht : s.tasks = []) (hc : s.calls = []) :
    s.Finished := by
  refine ⟨?_, fun n hn => ?_⟩
  · simpa [hpc, ht, Pc.inFlight] using h.queue.order
  · -- the state is completed, so it holds no callback
    have hs := getElem?_eq_getElem (h.callbacks.given_lt n hn)
    have hcompleted := (h.queue.completed n _ hs).mpr (by simp [hpc, ht, Pc.incomplete])
    have hcb := h.callbacks.taken n _ hs hcompleted
    have hplace := h.callbacks.place n
    rw [count_eq_one_of_mem h.callbacks.nodup hn] at hplace
    simpa [hpc, hc, Pc.holds, stored, hs, hcb] using hplace

theorem Inv.progress (h : s.Inv) : ∃ es : List (Event I), (∀ e ∈ es, e.Internal) ∧
    (Run.exec next s es).states.length = s.states.length ∧
    (Run.exec next s es).given = s.given ∧ (Run.exec next s es).Finished := by
  obtain ⟨es, hes, -, hpc, ht⟩ := h.exists_idle
  obtain ⟨es', hes', hpc', ht', hc'⟩ := exists_called hpc ht
  have hall : ∀ e ∈ es ++ es', e.Internal :=
    fun e he => (mem_append.mp he).elim (hes e) (hes' e)
  obtain ⟨hinv, hlen, hgiven⟩ := h.exec_internal hall
  rw [← Run.exec_append] at hpc' ht' hc'
  exact ⟨es ++ es', hall, hlen, hgiven, hinv.finished hpc' ht' hc'⟩

/-! ## The contract -/

theorem Inv.contract (h : s.Inv) : s.Contract where
  order := ⟨_, h.queue.order⟩
  once := by
    refine nodup_iff_count_le_one.mpr fun n => ?_
    have := h.callbacks.place n
    have := nodup_iff_count_le_one.mp h.callbacks.nodup n
    omega
  after n hn := by
    refine ⟨count_pos_iff.mp ?_, h.callbacks.after n (.inl hn)⟩
    have := h.callbacks.place n
    have := count_pos_iff.mpr hn
    omega
  finished := h.finished
  progress := h.progress
  returned := h.waits.returned
  wakeup := h.waits.wakeup
  wakeupRun := h.waits.wakeupRun

/-- The contract holds from here on, as long as no task is added. -/
def Robust (s : WorkerBase I) : Prop := ∀ es : List (Event I), (∀ e ∈ es, ¬e.Adds) →
  Run.Along next Enabled s es → Run.Always next Contract s es

theorem Inv.robust (h : s.Inv) : s.Robust := by
  intro es hes hen
  refine Run.Always.mono (fun _ => Inv.contract) ?_
  induction es generalizing s with
  | nil => exact Run.always_nil.mpr h
  | cons e es ih =>
    have hnext := h.step hen.1 (fresh_of_not_adds (hes e mem_cons_self))
    exact Run.always_cons.mpr
      ⟨h, ih hnext (fun e he => hes e (mem_cons_of_mem _ he)) hen.2⟩

theorem Robust.step (h : s.Robust) (hadds : ¬e.Adds) (hen : s.Enabled e) : (s.next e).Robust := by
  intro es hes hens
  refine (Run.always_cons.mp (h (e :: es) ?_ ⟨hen, hens⟩)).2
  simpa using ⟨hadds, hes⟩

/-- Where an id is not in `task_ids_`, a `WaitTaskDone` for it can return at once. -/
theorem Robust.mem_ranTasks (h : s.Robust) (hid : taskId ∉ s.taskIds) (hn : n < s.states.length)
    (hof : s.idOf n = some taskId) : n ∈ s.ranTasks := by
  have hcontract := (h [.wait (.byId taskId), .check s.waiters.length] (by simp [Event.Adds])
    ⟨trivial, trivial, trivial⟩).last
  have hexec : Run.exec WorkerBase.next s [.wait (.byId taskId), .check s.waiters.length] =
      { s with waiters := s.waiters ++ [⟨.byId taskId, s.states.length, .returned⟩] } := by
    simp [Run.exec, WorkerBase.next, condition, hid, Pool.replace]
  rw [hexec] at hcontract
  exact hcontract.returned ⟨.byId taskId, s.states.length, .returned⟩ (by simp) rfl n hn hof

theorem Robust.false_of_notified (h : s.Robust) (hpc : s.pc = .notified m cb)
    (hm : s.idOf m = some taskId) (hn : n < s.states.length) (hof : s.idOf n = some taskId)
    (hran : n ∉ s.ranTasks) : False := by
  have hrun := h.step (e := .run) (by simp [Event.Adds]) trivial
  simp only [WorkerBase.next, run_notified hpc] at hrun
  have herased : taskId ∉ s.taskIds.filter fun taskId => (s.states[m]?).all (·.taskId ≠ taskId) :=
    fun hmem => (mem_filter_ne_iff.mp hmem).2 hm
  exact hran (hrun.mem_ranTasks herased hn hof)

theorem Robust.false_of_completed (h : s.Robust) (hpc : s.pc = .completed m cb)
    (hm : s.idOf m = some taskId) (hn : n < s.states.length) (hof : s.idOf n = some taskId)
    (hran : n ∉ s.ranTasks) : False := by
  have hrun := h.step (e := .run) (by simp [Event.Adds]) trivial
  simp only [WorkerBase.next, run_completed hpc] at hrun
  exact hrun.false_of_notified rfl hm hn hof hran

/-- Of a task that is completed, `Run` is about to erase the id. -/
theorem Inv.of_mem_taskIds (h : s.Inv) (hmem : taskId ∈ s.taskIds)
    (hdone : ∀ state ∈ s.states, state.taskId = taskId → state.completed = true) :
    ∃ n cb, s.idOf n = some taskId ∧ (s.pc = .completed n cb ∨ s.pc = .notified n cb) := by
  obtain ⟨n, hn, hof⟩ := (h.ids.mem_iff taskId).mp hmem
  obtain ⟨state, hs, hid⟩ := Option.map_eq_some_iff.mp hof
  have hcompleted := hdone state (mem_of_getElem? hs) hid
  have hnot := (h.queue.completed n state hs).mp hcompleted
  simp only [unerased, mem_append, not_or] at hn hnot
  have hlisted := hn.resolve_right hnot.2
  cases hpc : s.pc <;> simp_all [Pc.listed, Pc.incomplete]

theorem Inv.fresh_of_robust (h : s.Inv) {callback : Bool}
    (hdone : ∀ state ∈ s.states, state.taskId = taskId → state.completed = true)
    (hrobust : (s.addTask taskId callback).Robust) : taskId ∉ s.taskIds := by
  intro hmem
  obtain ⟨m, cb, hm, hpc⟩ := h.of_mem_taskIds hmem hdone
  have hlt : m < s.states.length := by
    obtain ⟨state, hs, -⟩ := Option.map_eq_some_iff.mp hm
    exact (List.getElem?_eq_some_iff.mp hs).1
  have hm' : (s.addTask taskId callback).idOf m = some taskId := (idOf_addTask_of_lt hlt).trans hm
  have hlast : s.states.length < (s.addTask taskId callback).states.length := by simp [addTask]
  -- the task that was added is in the queue
  have hran : s.states.length ∉ (s.addTask taskId callback).ranTasks := fun hran =>
    Nat.lt_irrefl _ (h.queue.mem_iff.mp (mem_append_left _ hran))
  rcases hpc with hpc | hpc
  · exact hrobust.false_of_completed (m := m) hpc hm' hlast idOf_addTask_self hran
  · exact hrobust.false_of_notified (m := m) hpc hm' hlast idOf_addTask_self hran

/-- The worker keeps its contract, now and however it goes on, exactly in the runs whose tasks are
added under ids that are not in `task_ids_`. -/
theorem robust_iff (hen : Run.Along next Enabled ({} : WorkerBase I) es) :
    Run.Always next Robust ({} : WorkerBase I) es ↔ Run.Along next Fresh ({} : WorkerBase I) es := by
  refine Run.always_iff_along (fun _ => Inv.robust) (fun s e h hen hfresh => h.step hen hfresh)
    (fun s e h hen hrobust => ?_) hen Inv.start
  cases e with
  | addTask taskId callback => exact h.fresh_of_robust hen hrobust
  | _ => trivial

instance Enabled.decidable (s : WorkerBase I) : ∀ e, Decidable (s.Enabled e)
  | .addTask taskId _ =>
    inferInstanceAs (Decidable (∀ state ∈ s.states, state.taskId = taskId → state.completed = true))
  | .onComplete n => inferInstanceAs (Decidable (n < s.states.length ∧ n ∉ s.given))
  | .wait (.handle n) => inferInstanceAs (Decidable (n < s.states.length))
  | .wait .all | .wait (.byId _) => .isTrue trivial
  | .notifyAll | .invoke _ | .check _ | .wake _ | .run | .wakeRun => .isTrue trivial

instance Fresh.decidable (s : WorkerBase I) : ∀ e, Decidable (s.Fresh e)
  | .addTask taskId _ => inferInstanceAs (Decidable (taskId ∉ s.taskIds))
  | .notifyAll | .onComplete _ | .invoke _ | .wait _ | .check _ | .wake _ | .run | .wakeRun =>
    .isTrue trivial

/-- A producer adds a task, waits for its handle, and adds another one under the same id before
`Run` has erased it. -/
def readded : List (Event String) :=
  [.addTask "a" false, .run, .run, .run, .run, .wait (.handle 0), .check 0, .addTask "a" false,
    .run, .run, .wait (.byId "a"), .check 1]

/-- `WaitTaskDone("a")` returned, and the second task has not run. -/
theorem readded_not_contract : Run.Along next Enabled ({} : WorkerBase String) readded ∧
    ¬Run.Always next Contract ({} : WorkerBase String) readded := by
  refine ⟨by decide +kernel, fun h => ?_⟩
  have hw : (⟨.byId "a", 2, .returned⟩ : Waiter String) ∈ (Run.exec next {} readded).waiters := by
    decide +kernel
  have hran := h.last.returned _ hw rfl 1 (by decide) (by decide +kernel : _ = some "a")
  exact absurd hran (by decide +kernel)

/-- The same two tasks, where the second one is added after the round of the first. -/
def inTurn : List (Event String) :=
  [.addTask "a" true, .run, .run, .run, .run, .run, .run, .run, .run, .addTask "a" false,
    .onComplete 1, .wait (.byId "a"), .check 0, .notifyAll, .run, .run]

theorem inTurn_robust : Run.Along next Fresh ({} : WorkerBase String) inTurn ∧
    Run.Always next Robust ({} : WorkerBase String) inTurn :=
  ⟨by decide +kernel, (robust_iff (by decide +kernel)).mpr (by decide +kernel)⟩

end WorkerBase
end Morphling.Scheduler
