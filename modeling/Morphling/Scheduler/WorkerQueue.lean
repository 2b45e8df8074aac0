import Morphling.Scheduler.WorkerBase

/-!
# The queue of a worker and its ids

What every step keeps, and the steps one by one.

* `Queue`: the tasks that ran, the one that was popped and those in the queue are all tasks in the
  order of the calls; the counter counts them; a state is completed once its task left the queue and
  `Run` marked it.
* `Ids`: `task_ids_` has the ids of the tasks that `Run` has not erased, and these differ.
-/

namespace Morphling.Scheduler

open List

namespace Pc

/-- Popped, but not run. -/
def inFlight : Pc → List Nat
  | .popped n => [n]
  | _ => []

/-- The task of the round. -/
def current : Pc → List Nat
  | .wait | .asleep => []
  | .popped n | .ran n | .counted n => [n]
  | .completed n _ | .notified n _ | .erased n _ | .calling n _ => [n]

/-- Popped, but still counted. -/
def uncounted : Pc → List Nat
  | .popped n | .ran n => [n]
  | _ => []

/-- Popped, but not completed. -/
def incomplete : Pc → List Nat
  | .popped n | .ran n | .counted n => [n]
  | _ => []

/-- Popped, with its id in `task_ids_`. -/
def listed : Pc → List Nat
  | .popped n | .ran n | .counted n | .completed n _ | .notified n _ => [n]
  | _ => []

/-- The task whose callback `Run` holds. -/
def holds : Pc → List Nat
  | .completed n true | .notified n true | .erased n true | .calling n true => [n]
  | _ => []

/-- No round: between `wait` and `asleep`, only the thread's being blocked changes. -/
def Idle (pc : Pc) : Prop := pc = .wait ∨ pc = .asleep

/-- At the same place, up to being blocked. -/
def Same (pc pc' : Pc) : Prop := pc' = pc ∨ (pc.Idle ∧ pc'.Idle)

variable {pc pc' : Pc} {n : Nat}

theorem same_woken : pc.Same pc.woken := by
  cases pc <;> simp [Same, Idle, woken]

theorem woken_ne_asleep : pc.woken ≠ .asleep := by cases pc <;> simp [woken]

/-- What is at a place. -/
theorem Same.lists (h : pc.Same pc') : pc'.inFlight = pc.inFlight ∧ pc'.current = pc.current ∧
    pc'.uncounted = pc.uncounted ∧ pc'.incomplete = pc.incomplete ∧ pc'.listed = pc.listed ∧
    pc'.holds = pc.holds ∧ pc'.willNotify = pc.willNotify := by
  rcases h with rfl | ⟨rfl | rfl, rfl | rfl⟩ <;> exact ⟨rfl, rfl, rfl, rfl, rfl, rfl, rfl⟩

theorem lists_woken (pc : Pc) : pc.woken.inFlight = pc.inFlight ∧ pc.woken.current = pc.current ∧
    pc.woken.uncounted = pc.uncounted ∧ pc.woken.incomplete = pc.incomplete ∧
    pc.woken.listed = pc.listed ∧ pc.woken.holds = pc.holds ∧
    pc.woken.willNotify = pc.willNotify := same_woken.lists

theorem mem_current_of_listed (h : n ∈ pc.listed) : n ∈ pc.current := by
  cases pc <;> simp_all [listed, current]

theorem count_holds_completed {m : Nat} {cb : Bool} :
    (completed n cb).holds.count m = if m = n then cb.toNat else 0 := by
  by_cases hmn : m = n
  · cases cb <;> simp [holds, hmn]
  · cases cb <;> simp [holds, hmn, count_eq_zero_of_not_mem]

theorem mem_current_of_holds (h : n ∈ pc.holds) : n ∈ pc.current := by
  unfold holds at h
  split at h <;> simp_all [current]

theorem mem_incomplete_of_inFlight (h : n ∈ pc.inFlight) : n ∈ pc.incomplete := by
  cases pc <;> simp_all [inFlight, incomplete]

theorem mem_uncounted_of_inFlight (h : n ∈ pc.inFlight) : n ∈ pc.uncounted := by
  cases pc <;> simp_all [inFlight, uncounted]

theorem mem_listed_of_inFlight (h : n ∈ pc.inFlight) : n ∈ pc.listed := by
  cases pc <;> simp_all [inFlight, listed]

end Pc

namespace WorkerBase

variable {I : Type*} {s s' : WorkerBase I} {n m : Nat} {state : TaskState I}

/-! ## The queue -/

structure Queue (s : WorkerBase I) : Prop where
  order : s.ranTasks ++ (s.pc.inFlight ++ s.tasks) = List.range s.states.length
  current : ∀ n ∈ s.pc.current, n ∈ s.ranTasks ++ s.pc.inFlight
  count : s.taskCount = (s.pc.uncounted ++ s.tasks).length
  completed : ∀ n state, s.states[n]? = some state →
    (state.completed = true ↔ n ∉ s.pc.incomplete ++ s.tasks)

namespace Queue

variable (h : s.Queue)
include h

theorem mem_iff : n ∈ s.ranTasks ++ (s.pc.inFlight ++ s.tasks) ↔ n < s.states.length := by
  rw [h.order, mem_range]

theorem nodup : (s.ranTasks ++ (s.pc.inFlight ++ s.tasks)).Nodup := h.order ▸ nodup_range

theorem current_lt (hn : n ∈ s.pc.current) : n < s.states.length := by
  rw [← h.mem_iff, ← append_assoc]
  exact mem_append_left _ (h.current n hn)

theorem current_notMem (hn : n ∈ s.pc.current) : n ∉ s.tasks := by
  have hnd := h.nodup
  rw [← append_assoc] at hnd
  exact fun ht => (List.nodup_append.mp hnd).2.2 n (h.current n hn) n ht rfl

/-- A task that is completed has run. -/
theorem mem_ranTasks (hs : s.states[n]? = some state) (hc : state.completed = true) :
    n ∈ s.ranTasks := by
  have hnot := (h.completed n state hs).mp hc
  have hlt : n < s.states.length := (List.getElem?_eq_some_iff.mp hs).1
  rw [← h.mem_iff] at hlt
  simp only [mem_append, not_or] at hlt hnot
  rcases hlt with hr | hf | ht
  · exact hr
  · exact absurd (Pc.mem_incomplete_of_inFlight hf) hnot.1
  · exact absurd ht hnot.2

end Queue

/-- What is known about the queue depends on these fields only. -/
theorem Queue.congr (h : s.Queue) (hran : s'.ranTasks = s.ranTasks) (htasks : s'.tasks = s.tasks)
    (hstates : s'.states = s.states) (hcount : s'.taskCount = s.taskCount) (hpc : s.pc.Same s'.pc) :
    s'.Queue := by
  obtain ⟨hflight, hcurrent, huncounted, hincomplete, -⟩ := hpc.lists
  refine ⟨?_, ?_, ?_, ?_⟩
  · rw [hran, hflight, htasks, hstates, h.order]
  · rw [hcurrent, hran, hflight]
    exact h.current
  · rw [hcount, huncounted, htasks]
    exact h.count
  · rw [hstates, hincomplete, htasks]
    exact h.completed

/-- An entry of a list in which the entry `n` was set. -/
theorem of_getElem?_set {α : Type*} {l : List α} {a b : α} (h : (l.set n a)[m]? = some b) :
    (m = n ∧ b = a) ∨ (m ≠ n ∧ l[m]? = some b) := by
  by_cases hmn : m = n
  · subst hmn
    rw [getElem?_set_self'] at h
    obtain ⟨-, -, rfl⟩ := Option.map_eq_some_iff.mp h
    exact .inl ⟨rfl, rfl⟩
  · rw [getElem?_set_ne (Ne.symm hmn)] at h
    exact .inr ⟨hmn, h⟩

/-! ## The ids -/

/-- The id of task `n`. -/
def idOf (s : WorkerBase I) (n : Nat) : Option I := (s.states[n]?).map TaskState.taskId

/-- The tasks whose id `Run` has not erased. -/
def unerased (s : WorkerBase I) : List Nat := s.pc.listed ++ s.tasks

structure Ids (s : WorkerBase I) : Prop where
  mem_iff : ∀ taskId, taskId ∈ s.taskIds ↔ ∃ n ∈ s.unerased, s.idOf n = some taskId
  distinct : ∀ m ∈ s.unerased, ∀ n ∈ s.unerased, s.idOf m = s.idOf n → m = n

theorem Queue.unerased_lt (h : s.Queue) (hn : n ∈ s.unerased) : n < s.states.length := by
  rcases mem_append.mp hn with hn | hn
  · exact h.current_lt (Pc.mem_current_of_listed hn)
  · exact h.mem_iff.mp (by simp [hn])

/-- A state that is set again keeps the ids. -/
theorem idOf_set {state' : TaskState I} (hs : s.states[n]? = some state)
    (hid : state'.taskId = state.taskId) :
    ((s.states.set n state')[m]?).map TaskState.taskId = s.idOf m := by
  by_cases hmn : m = n
  · subst hmn
    simp [idOf, hs, hid, getElem?_set_self']
  · rw [getElem?_set_ne (Ne.symm hmn), idOf]

theorem Ids.congr (h : s.Ids) (hids : s'.taskIds = s.taskIds) (hun : s'.unerased = s.unerased)
    (hof : ∀ n, s'.idOf n = s.idOf n) : s'.Ids := by
  refine ⟨fun taskId => ?_, ?_⟩
  · simp only [hids, hun, hof, h.mem_iff]
  · simpa only [hun, hof] using h.distinct

/-! ## The steps -/

theorem onComplete_completed (hs : s.states[n]? = some state) (hc : state.completed = true) :
    s.onComplete n = { s with calls := s.calls ++ [n], given := n :: s.given } := by
  rw [onComplete, hs]
  simp [hc]

theorem onComplete_pending (hs : s.states[n]? = some state) (hc : state.completed = false) :
    s.onComplete n = { s with
      states := s.states.set n { state with callback := true }
      given := n :: s.given } := by
  rw [onComplete, hs]
  simp [hc]

theorem Queue.onComplete (h : s.Queue) (n : Nat) : (s.onComplete n).Queue := by
  rcases hs : s.states[n]? with _ | state
  · rw [WorkerBase.onComplete, hs]
    exact h
  cases hc : state.completed
  · rw [onComplete_pending hs hc]
    refine ⟨by simpa using h.order, h.current, h.count, fun m state' hm => ?_⟩
    rcases of_getElem?_set hm with ⟨rfl, rfl⟩ | ⟨-, hm⟩
    · exact h.completed m state hs
    · exact h.completed m state' hm
  · rw [onComplete_completed hs hc]
    exact h.congr rfl rfl rfl rfl (.inl rfl)

theorem Ids.onComplete (h : s.Ids) : (s.onComplete n).Ids := by
  rcases hs : s.states[n]? with _ | state
  · rw [WorkerBase.onComplete, hs]
    exact h
  cases hc : state.completed
  · rw [onComplete_pending hs hc]
    exact h.congr rfl rfl fun _ => idOf_set hs rfl
  · rw [onComplete_completed hs hc]
    exact h.congr rfl rfl fun _ => rfl

variable [DecidableEq I] {cb callback : Bool} {taskId : I}

theorem run_wait_nil (hpc : s.pc = .wait) (ht : s.tasks = []) :
    s.run = { s with pc := .asleep } := by
  simp [run, hpc, ht]

theorem run_wait_cons {tasks : List Nat} (hpc : s.pc = .wait) (ht : s.tasks = n :: tasks) :
    s.run = { s with pc := .popped n, tasks := tasks } := by
  simp [run, hpc, ht]

theorem run_asleep (hpc : s.pc = .asleep) : s.run = s := by simp [run, hpc]

theorem run_popped (hpc : s.pc = .popped n) :
    s.run = { s with pc := .ran n, ranTasks := s.ranTasks ++ [n] } := by
  simp [run, hpc]

theorem run_ran (hpc : s.pc = .ran n) :
    s.run = { s with pc := .counted n, taskCount := s.taskCount - 1 } := by
  simp [run, hpc]

theorem run_counted (hpc : s.pc = .counted n) (hs : s.states[n]? = some state) :
    s.run = { s with
      pc := .completed n state.callback
      states := s.states.set n { state with completed := true, callback := false } } := by
  simp [run, hpc, hs]

theorem run_completed (hpc : s.pc = .completed n cb) :
    s.run = { s with
      pc := .notified n cb
      waiters := wakeAll (fun kind => kind = .handle n) s.waiters } := by
  simp [run, hpc]

theorem run_notified (hpc : s.pc = .notified n cb) :
    s.run = { s with
      pc := .erased n cb
      taskIds := s.taskIds.filter fun taskId => (s.states[n]?).all (·.taskId ≠ taskId) } := by
  simp [run, hpc]

theorem run_erased (hpc : s.pc = .erased n cb) :
    s.run = { notifyCv s with pc := .calling n cb } := by
  simp [run, hpc]

theorem run_calling (hpc : s.pc = .calling n cb) :
    s.run = { s with pc := .wait, called := if cb then s.called ++ [n] else s.called } := by
  simp [run, hpc]

/-! ## Keeping the queue -/

theorem Queue.addTask (h : s.Queue) (taskId : I) (callback : Bool) :
    (s.addTask taskId callback).Queue where
  order := by
    simp only [WorkerBase.addTask, length_append, length_singleton, range_succ,
      ← h.order, append_assoc]
  current := h.current
  count := by
    have := h.count
    simp only [WorkerBase.addTask, length_append, length_singleton] at this ⊢
    omega
  completed n state hs := by
    simp only [WorkerBase.addTask] at hs ⊢
    rcases Nat.lt_or_ge n s.states.length with hlt | hge
    · rw [getElem?_append_left hlt] at hs
      rw [h.completed n state hs]
      simp [Nat.ne_of_lt hlt]
    · rw [getElem?_append_right hge] at hs
      obtain rfl : n = s.states.length := by
        have := (List.getElem?_eq_some_iff.mp hs).1
        simp only [length_singleton] at this
        omega
      simp only [Nat.sub_self, getElem?_cons_zero, Option.some.injEq] at hs
      simp [← hs]

theorem Queue.run (h : s.Queue) : s.run.Queue := by
  have horder := h.order
  have hcurrent := h.current
  have hcount := h.count
  have hcompleted := h.completed
  cases hpc : s.pc <;> simp only [hpc, Pc.inFlight, Pc.current, Pc.uncounted, Pc.incomplete,
    nil_append, append_nil, mem_singleton, forall_eq]
    at horder hcurrent hcount hcompleted
  case wait =>
    cases ht : s.tasks with
    | nil =>
      rw [run_wait_nil hpc ht]
      exact h.congr rfl rfl rfl rfl (.inr ⟨.inl hpc, .inr rfl⟩)
    | cons n tasks =>
      rw [run_wait_cons hpc ht]
      rw [ht] at horder hcount hcompleted
      exact ⟨horder, by simp [Pc.current, Pc.inFlight], hcount, hcompleted⟩
  case asleep => rwa [run_asleep hpc]
  case popped n =>
    rw [run_popped hpc]
    exact ⟨by simpa [Pc.inFlight] using horder, by simp [Pc.current], hcount, hcompleted⟩
  case ran n =>
    rw [run_ran hpc]
    refine ⟨horder, by simpa [Pc.current, Pc.inFlight] using hcurrent, ?_, hcompleted⟩
    simp only [Pc.uncounted, hcount]
    simp
  case counted n =>
    have hlt := h.current_lt (n := n) (by rw [hpc]; simp [Pc.current])
    have hnot := h.current_notMem (n := n) (by rw [hpc]; simp [Pc.current])
    have hs := getElem?_eq_getElem hlt
    rw [run_counted hpc hs]
    refine ⟨by simpa [Pc.inFlight] using horder, by simpa [Pc.current, Pc.inFlight] using hcurrent,
      hcount, fun m state' hm => ?_⟩
    rcases of_getElem?_set hm with ⟨rfl, rfl⟩ | ⟨hmn, hm⟩
    · simpa [Pc.incomplete] using hnot
    · simpa [Pc.incomplete, hmn] using hcompleted m state' hm
  case completed n cb =>
    rw [run_completed hpc]
    exact ⟨horder, by simpa [Pc.current, Pc.inFlight] using hcurrent, hcount, hcompleted⟩
  case notified n cb =>
    rw [run_notified hpc]
    exact ⟨horder, by simpa [Pc.current, Pc.inFlight] using hcurrent, hcount, hcompleted⟩
  case erased n cb =>
    rw [run_erased hpc]
    exact ⟨horder, by simpa [Pc.current, Pc.inFlight, notifyCv] using hcurrent, hcount, hcompleted⟩
  case calling n cb =>
    rw [run_calling hpc]
    exact ⟨horder, by simp [Pc.current], hcount, hcompleted⟩

/-! ## Keeping the ids -/

theorem idOf_addTask_of_lt (hn : n < s.states.length) :
    (s.addTask taskId callback).idOf n = s.idOf n := by
  simp only [idOf, addTask, getElem?_append_left hn]

theorem idOf_addTask_self : (s.addTask taskId callback).idOf s.states.length = some taskId := by
  simp [idOf, addTask]

/-- An id that is not in `task_ids_` is added with its task. -/
theorem Ids.addTask (h : s.Ids) (hq : s.Queue) (hfresh : taskId ∉ s.taskIds) (callback : Bool) :
    (s.addTask taskId callback).Ids := by
  have hun : (s.addTask taskId callback).unerased = s.unerased ++ [s.states.length] := by
    simp [unerased, WorkerBase.addTask]
  have hold : ∀ n ∈ s.unerased, (s.addTask taskId callback).idOf n = s.idOf n :=
    fun n hn => idOf_addTask_of_lt (hq.unerased_lt hn)
  have hne : ∀ n ∈ s.unerased, s.idOf n ≠ some taskId :=
    fun n hn hid => hfresh ((h.mem_iff taskId).mpr ⟨n, hn, hid⟩)
  constructor
  · intro other
    have hmem : other ∈ (s.addTask taskId callback).taskIds ↔ other = taskId ∨ other ∈ s.taskIds := by
      simp [WorkerBase.addTask, hfresh]
    rw [hmem, hun, h.mem_iff]
    constructor
    · rintro (rfl | ⟨n, hn, hid⟩)
      · exact ⟨s.states.length, by simp, idOf_addTask_self⟩
      · exact ⟨n, mem_append_left _ hn, by rw [hold n hn, hid]⟩
    · rintro ⟨n, hn, hid⟩
      rcases mem_append.mp hn with hn | hn
      · exact .inr ⟨n, hn, by rw [← hold n hn, hid]⟩
      · rw [mem_singleton.mp hn, idOf_addTask_self] at hid
        exact .inl (Option.some.inj hid).symm
  · rw [hun]
    intro m hm n hn hid
    simp only [mem_append, mem_singleton] at hm hn
    rcases hm with hm | rfl <;> rcases hn with hn | rfl
    · rw [hold m hm, hold n hn] at hid
      exact h.distinct m hm n hn hid
    · rw [hold m hm, idOf_addTask_self] at hid
      exact absurd hid (hne m hm)
    · rw [hold n hn, idOf_addTask_self] at hid
      exact absurd hid.symm (hne n hn)
    · rfl

theorem mem_filter_ne_iff {taskIds : List I} :
    taskId ∈ taskIds.filter (fun taskId => (s.states[n]?).all (·.taskId ≠ taskId)) ↔
      taskId ∈ taskIds ∧ s.idOf n ≠ some taskId := by
  rw [mem_filter, idOf]
  cases s.states[n]? <;> simp

/-- No other task that is left has the id that `Run` erases. -/
theorem Ids.erase (h : s.Ids) (hq : s.Queue) (hpc : s.pc = .notified n cb) :
    Ids { s with
      pc := .erased n cb
      taskIds := s.taskIds.filter fun taskId => (s.states[n]?).all (·.taskId ≠ taskId) } := by
  have hun : s.unerased = n :: s.tasks := by simp [unerased, hpc, Pc.listed]
  have hnot : n ∉ s.tasks := hq.current_notMem (by simp [hpc, Pc.current])
  have hmem := h.mem_iff
  have hdistinct := h.distinct
  rw [hun] at hmem hdistinct
  refine ⟨fun taskId => ?_, fun m hm k hk => ?_⟩
  · rw [mem_filter_ne_iff, hmem]
    constructor
    · rintro ⟨⟨m, hm, hid⟩, hne⟩
      rcases mem_cons.mp hm with rfl | hm
      · exact absurd hid hne
      · exact ⟨m, hm, hid⟩
    · rintro ⟨m, hm, hid⟩
      have hm : m ∈ s.tasks := hm
      refine ⟨⟨m, mem_cons_of_mem _ hm, hid⟩, fun hn => hnot ?_⟩
      rwa [hdistinct n (by simp) m (mem_cons_of_mem _ hm) (hn.trans hid.symm)]
  · exact hdistinct m (mem_cons_of_mem _ hm) k (mem_cons_of_mem _ hk)

theorem Ids.run (h : s.Ids) (hq : s.Queue) : s.run.Ids := by
  cases hpc : s.pc with
  | wait =>
    cases ht : s.tasks with
    | nil =>
      rw [run_wait_nil hpc ht]
      exact h.congr rfl (by simp [unerased, hpc, Pc.listed]) fun _ => rfl
    | cons n tasks =>
      rw [run_wait_cons hpc ht]
      exact h.congr rfl (by simp [unerased, hpc, ht, Pc.listed]) fun _ => rfl
  | asleep => rwa [run_asleep hpc]
  | popped n =>
    rw [run_popped hpc]
    exact h.congr rfl (by simp [unerased, hpc, Pc.listed]) fun _ => rfl
  | ran n =>
    rw [run_ran hpc]
    exact h.congr rfl (by simp [unerased, hpc, Pc.listed]) fun _ => rfl
  | counted n =>
    have hlt := hq.current_lt (n := n) (by simp [hpc, Pc.current])
    have hs := getElem?_eq_getElem hlt
    rw [run_counted hpc hs]
    exact h.congr rfl (by simp [unerased, hpc, Pc.listed]) fun _ => idOf_set hs rfl
  | completed n cb =>
    rw [run_completed hpc]
    exact h.congr rfl (by simp [unerased, hpc, Pc.listed]) fun _ => rfl
  | notified n cb =>
    rw [run_notified hpc]
    exact h.erase hq hpc
  | erased n cb =>
    rw [run_erased hpc]
    exact h.congr rfl (by simp [unerased, notifyCv, hpc, Pc.listed]) fun _ => rfl
  | calling n cb =>
    rw [run_calling hpc]
    exact h.congr rfl (by simp [unerased, hpc, Pc.listed]) fun _ => rfl

end WorkerBase
end Morphling.Scheduler
