import Morphling.Scheduler.WorkerQueue

/-!
# Callbacks and waits of a worker

* `Callbacks`: a callback that was given is in one place: the state of its task, in the hands of
  `Run` or of an `OnComplete` call, or called.
* `Waits`: a thread that returned had reason to, and no wakeup is lost.
* `Inv`: both, with what holds of the queue and the ids. `Inv.step`: every step keeps it, if a task
  is added under an id that is not in `task_ids_`.
-/

namespace Morphling.Scheduler.WorkerBase

open List List.Subset Pc

variable {I : Type*} {s s' : WorkerBase I} {n m : Nat} {state : TaskState I}

/-! ## Callbacks -/

section Callbacks

/-- How many callbacks the state of task `n` holds. -/
def stored (s : WorkerBase I) (n : Nat) : Nat := ((s.states[n]?).any TaskState.callback).toNat

structure Callbacks (s : WorkerBase I) : Prop where
  place : ∀ n, s.called.count n + s.calls.count n + s.pc.holds.count n + s.stored n = s.given.count n
  nodup : s.given.Nodup
  given_lt : ∀ n ∈ s.given, n < s.states.length
  /-- `Run` takes the callback from the state that it marks. -/
  taken : ∀ (n : Nat) (state : TaskState I), s.states[n]? = some state → state.completed = true →
    state.callback = false
  after : ∀ n, n ∈ s.called ∨ n ∈ s.calls ∨ n ∈ s.pc.holds → n ∈ s.ranTasks

theorem Callbacks.congr (h : s.Callbacks) (hcalled : s'.called = s.called)
    (hcalls : s'.calls = s.calls) (hholds : s'.pc.holds = s.pc.holds) (hstates : s'.states = s.states)
    (hgiven : s'.given = s.given) (hran : s.ranTasks ⊆ s'.ranTasks) : s'.Callbacks where
  place n := by simpa only [stored, hcalled, hcalls, hholds, hstates, hgiven] using h.place n
  nodup := hgiven ▸ h.nodup
  given_lt := by simpa only [hgiven, hstates] using h.given_lt
  taken := by simpa only [hstates] using h.taken
  after n hn := by
    rw [hcalled, hcalls, hholds] at hn
    exact hran (h.after n hn)

/-- A callback that was not given is nowhere. -/
theorem Callbacks.stored_eq_zero (h : s.Callbacks) (hn : n ∉ s.given) : s.stored n = 0 := by
  have := h.place n
  rw [count_eq_zero_of_not_mem hn] at this
  omega

theorem stored_set_self (state' : TaskState I) (hs : s.states[n]? = some state) :
    stored { s with states := s.states.set n state' } n = state'.callback.toNat := by
  cases hc : state'.callback <;> simp [stored, getElem?_set_self', hs, hc]

theorem stored_set_ne (state' : TaskState I) (hmn : m ≠ n) :
    stored { s with states := s.states.set n state' } m = s.stored m := by
  simp [stored, getElem?_set_ne (Ne.symm hmn)]

theorem Callbacks.onComplete (h : s.Callbacks) (hq : s.Queue) (hn : n ∉ s.given) :
    (s.onComplete n).Callbacks := by
  rcases hs : s.states[n]? with _ | state
  · rw [WorkerBase.onComplete, hs]
    exact h
  have hlt : n < s.states.length := (List.getElem?_eq_some_iff.mp hs).1
  have hnodup : (n :: s.given).Nodup := nodup_cons.mpr ⟨hn, h.nodup⟩
  have hgiven : ∀ m ∈ n :: s.given, m < s.states.length := by
    simpa using ⟨hlt, h.given_lt⟩
  cases hc : state.completed
  · rw [onComplete_pending hs hc]
    refine ⟨fun m => ?_, hnodup, by simpa using hgiven, ?_, h.after⟩
    · have hplace := h.place m
      by_cases hmn : m = n
      · subst hmn
        have hstored := stored_set_self { state with callback := true } hs
        have hzero := h.stored_eq_zero hn
        simp only [stored, count_cons_self, Bool.toNat_true] at hstored hzero hplace ⊢
        omega
      · have hstored := stored_set_ne (s := s) { state with callback := true } hmn
        simp only [stored, count_cons_of_ne (Ne.symm hmn)] at hstored hplace ⊢
        omega
    · intro m state' hm hcompleted
      rcases of_getElem?_set hm with ⟨rfl, rfl⟩ | ⟨-, hm⟩
      · simp [hc] at hcompleted
      · exact h.taken m state' hm hcompleted
  · rw [onComplete_completed hs hc]
    refine ⟨fun m => ?_, hnodup, hgiven, h.taken, ?_⟩
    · have hplace := h.place m
      simp only [stored, count_append, count_cons, count_nil] at hplace ⊢
      omega
    · rintro m (hm | hm | hm)
      · exact h.after m (.inl hm)
      · rcases mem_append.mp hm with hm | hm
        · exact h.after m (.inr (.inl hm))
        · rw [mem_singleton.mp hm]
          exact hq.mem_ranTasks hs hc
      · exact h.after m (.inr (.inr hm))

/-- `Run` marks the state and takes its callback. -/
theorem Callbacks.complete (h : s.Callbacks) (hq : s.Queue) (hpc : s.pc = .counted n)
    (hs : s.states[n]? = some state) :
    Callbacks { s with
      pc := .completed n state.callback
      states := s.states.set n { state with completed := true, callback := false } } := by
  have hran : n ∈ s.ranTasks := by
    simpa [hpc, inFlight] using hq.current n (by simp [hpc, current])
  refine ⟨fun m => ?_, h.nodup, by simpa using h.given_lt, ?_, ?_⟩
  · have hplace := h.place m
    simp only [hpc, holds, count_nil] at hplace
    by_cases hmn : m = n
    · subst hmn
      have hset := stored_set_self { state with completed := true, callback := false } hs
      simp only [stored, hs, Option.any_some, count_holds_completed, if_true] at hset hplace ⊢
      simp only [Bool.toNat_false] at hset
      omega
    · have hset := stored_set_ne (s := s) { state with completed := true, callback := false } hmn
      simp only [stored, count_holds_completed, if_neg hmn] at hset hplace ⊢
      omega
  · intro m state' hm hc
    rcases of_getElem?_set hm with ⟨rfl, rfl⟩ | ⟨-, hm⟩
    · rfl
    · exact h.taken m state' hm hc
  · rintro m (hm | hm | hm)
    · exact h.after m (.inl hm)
    · exact h.after m (.inr (.inl hm))
    · have hcurrent := mem_current_of_holds hm
      simp only [current, mem_singleton] at hcurrent
      rwa [hcurrent]

/-- `Run` calls the callback it holds, if any. -/
theorem Callbacks.call (h : s.Callbacks) {cb : Bool} (hpc : s.pc = .calling n cb) :
    Callbacks { s with pc := .wait, called := if cb then s.called ++ [n] else s.called } := by
  cases cb
  · exact h.congr rfl rfl (by simp [hpc, holds]) rfl rfl (refl _)
  · refine ⟨fun m => ?_, h.nodup, h.given_lt, h.taken, ?_⟩
    · have hplace := h.place m
      simp only [hpc, holds, stored, count_append, count_nil, if_true] at hplace ⊢
      omega
    · have hafter := h.after
      simp only [hpc, holds] at hafter
      simp only [if_true, mem_append, holds, not_mem_nil, or_false]
      rintro m ((hm | hm) | hm)
      · exact hafter m (.inl hm)
      · exact hafter m (.inr (.inr hm))
      · exact hafter m (.inr (.inl hm))

variable [DecidableEq I]

theorem stored_addTask_self (taskId : I) (callback : Bool) :
    (s.addTask taskId callback).stored s.states.length = callback.toNat := by
  cases callback <;> simp [stored, addTask]

theorem stored_addTask_ne (taskId : I) (callback : Bool) (hn : n ≠ s.states.length) :
    (s.addTask taskId callback).stored n = s.stored n := by
  rcases Nat.lt_or_gt_of_ne hn with hlt | hgt
  · simp only [stored, addTask, getElem?_append_left hlt]
  · simp only [stored, addTask]
    rw [getElem?_eq_none (by simp; omega), getElem?_eq_none (by omega)]

theorem Callbacks.addTask (h : s.Callbacks) (taskId : I) (callback : Bool) :
    (s.addTask taskId callback).Callbacks := by
  have hnew : s.states.length ∉ s.given := fun hmem => Nat.lt_irrefl _ (h.given_lt _ hmem)
  have hcount : ∀ m, (s.addTask taskId callback).given.count m =
      s.given.count m + if m = s.states.length then callback.toNat else 0 := by
    intro m
    by_cases hm : m = s.states.length
    · cases callback <;> simp [WorkerBase.addTask, hm]
    · cases callback <;> simp [WorkerBase.addTask, hm, count_cons_of_ne (Ne.symm hm)]
  refine ⟨fun m => ?_, ?_, fun m hm => ?_, fun m state hs hc => ?_, h.after⟩
  · have hplace := h.place m
    rw [hcount]
    by_cases hm : m = s.states.length
    · subst hm
      have hzero := h.stored_eq_zero hnew
      rw [stored_addTask_self, if_pos rfl]
      simp only [WorkerBase.addTask]
      omega
    · rw [stored_addTask_ne _ _ hm, if_neg hm, Nat.add_zero]
      simpa only [WorkerBase.addTask] using hplace
  · cases callback
    · exact h.nodup
    · exact nodup_cons.mpr ⟨hnew, h.nodup⟩
  · have hmem : m = s.states.length ∨ m ∈ s.given := by
      cases callback
      · exact .inr hm
      · exact mem_cons.mp hm
    simp only [WorkerBase.addTask, length_append, length_singleton]
    rcases hmem with rfl | hmem
    · exact Nat.lt_succ_self _
    · exact Nat.lt_succ_of_lt (h.given_lt m hmem)
  · simp only [WorkerBase.addTask] at hs
    rcases Nat.lt_or_ge m s.states.length with hlt | hge
    · rw [getElem?_append_left hlt] at hs
      exact h.taken m state hs hc
    · rw [getElem?_append_right hge] at hs
      rw [mem_singleton.mp (mem_of_getElem? hs)] at hc
      cases hc

theorem Callbacks.invoke (h : s.Callbacks) (i : Nat) : (s.next (.invoke i)).Callbacks := by
  simp only [next]
  split
  · exact h
  · rename_i n hi
    refine ⟨fun m => ?_, h.nodup, h.given_lt, h.taken, ?_⟩
    · have hplace := h.place m
      have hcount := Pool.count_replace [] m hi
      simp only [stored, count_append, count_nil] at hplace hcount ⊢
      omega
    · rintro m (hm | hm | hm)
      · rcases mem_append.mp hm with hm | hm
        · exact h.after m (.inl hm)
        · rw [mem_singleton.mp hm]
          exact h.after n (.inr (.inl (mem_of_getElem? hi)))
      · rcases Pool.mem_replace hm with hm | hm
        · exact h.after m (.inr (.inl hm))
        · cases hm
      · exact h.after m (.inr (.inr hm))

theorem Callbacks.run (h : s.Callbacks) (hq : s.Queue) : s.run.Callbacks := by
  cases hpc : s.pc with
  | wait =>
    cases ht : s.tasks with
    | nil =>
      rw [run_wait_nil hpc ht]
      exact h.congr rfl rfl (by simp [hpc, holds]) rfl rfl (refl _)
    | cons n tasks =>
      rw [run_wait_cons hpc ht]
      exact h.congr rfl rfl (by simp [hpc, holds]) rfl rfl (refl _)
  | asleep => rwa [run_asleep hpc]
  | popped n =>
    rw [run_popped hpc]
    exact h.congr rfl rfl (by simp [hpc, holds]) rfl rfl (subset_append_left _ _)
  | ran n =>
    rw [run_ran hpc]
    exact h.congr rfl rfl (by simp [hpc, holds]) rfl rfl (refl _)
  | counted n =>
    have hs := getElem?_eq_getElem (hq.current_lt (n := n) (by simp [hpc, current]))
    rw [run_counted hpc hs]
    exact h.complete hq hpc hs
  | completed n cb =>
    rw [run_completed hpc]
    exact h.congr rfl rfl (by cases cb <;> simp [hpc, holds]) rfl rfl (refl _)
  | notified n cb =>
    rw [run_notified hpc]
    exact h.congr rfl rfl (by cases cb <;> simp [hpc, holds]) rfl rfl (refl _)
  | erased n cb =>
    rw [run_erased hpc]
    exact h.congr rfl rfl (by cases cb <;> simp [hpc, holds]) rfl rfl (refl _)
  | calling n cb =>
    rw [run_calling hpc]
    exact h.call hpc

end Callbacks

/-! ## Waits -/

/-- What a thread waits for stays done. -/
theorem Satisfied.mono {w : Waiter I} (h : s.Satisfied w) (hran : s.ranTasks ⊆ s'.ranTasks)
    (hid : ∀ n < w.since, s'.idOf n = s.idOf n) : s'.Satisfied w := by
  intro n hn hconcerns
  refine hran (h n hn ?_)
  cases hkind : w.kind with
  | all => trivial
  | byId taskId =>
    rw [hkind] at hconcerns
    exact (hid n hn).symm.trans hconcerns
  | handle m => rwa [hkind] at hconcerns

theorem Notified.congr {kind : Wait I} (h : s.Notified kind) (hnotifies : s'.notifies = s.notifies)
    (hwill : s'.pc.willNotify = s.pc.willNotify)
    (hpc : ∀ n cb, s.pc = .completed n cb → s'.pc = .completed n cb) : s'.Notified kind := by
  cases kind with
  | all => simpa only [Notified, hnotifies, hwill] using h
  | byId taskId => simpa only [Notified, hnotifies, hwill] using h
  | handle n =>
    obtain ⟨cb, hcompleted⟩ := h
    exact ⟨cb, hpc n cb hcompleted⟩

/-- After a notification a thread is as before, or about to test its predicate. -/
theorem mem_wakeAll {p : Wait I → Bool} {waiters : List (Waiter I)} {w : Waiter I}
    (h : w ∈ wakeAll p waiters) : (w ∈ waiters ∧ ¬(w.status = .asleep ∧ p w.kind)) ∨
      ∃ w' ∈ waiters, w.status = .checking ∧ w.since = w'.since := by
  obtain ⟨w', hw', rfl⟩ := mem_map.mp h
  by_cases hp : w'.status = .asleep ∧ p w'.kind
  · rw [if_pos hp]
    exact .inr ⟨w', hw', rfl, rfl⟩
  · rw [if_neg hp]
    exact .inl ⟨hw', hp⟩

variable [DecidableEq I]

structure Waits (s : WorkerBase I) : Prop where
  since_le : ∀ w ∈ s.waiters, w.since ≤ s.states.length
  returned : ∀ w ∈ s.waiters, w.status = .returned → s.Satisfied w
  wakeup : ∀ w ∈ s.waiters, w.status = .asleep → s.condition w.kind = true → s.Notified w.kind
  wakeupRun : s.pc = .asleep → s.tasks ≠ [] → 0 < s.notifies

/-- A wait whose predicate holds may return. -/
theorem satisfied_of_condition (hq : s.Queue) (hids : s.Ids) {w : Waiter I}
    (hsince : w.since ≤ s.states.length) (hcond : s.condition w.kind = true) : s.Satisfied w := by
  intro n hn hconcerns
  have hmem := hq.mem_iff.mpr (Nat.lt_of_lt_of_le hn hsince)
  simp only [mem_append] at hmem
  cases hkind : w.kind with
  | all =>
    simp only [hkind, condition, Bool.and_eq_true, List.isEmpty_iff, beq_iff_eq] at hcond
    have hcount := hq.count
    rw [hcond.1, hcond.2, append_nil] at hcount
    have huncounted : s.pc.uncounted = [] := eq_nil_of_length_eq_zero (by omega)
    rcases hmem with hr | hf | ht
    · exact hr
    · exact absurd (mem_uncounted_of_inFlight hf) (by simp [huncounted])
    · exact absurd ht (by simp [hcond.1])
  | byId taskId =>
    simp only [hkind, condition, decide_eq_true_eq, Concerns] at hcond hconcerns
    have hnot : n ∉ s.unerased := fun hun => hcond ((hids.mem_iff taskId).mpr ⟨n, hun, hconcerns⟩)
    simp only [unerased, mem_append, not_or] at hnot
    rcases hmem with hr | hf | ht
    · exact hr
    · exact absurd (mem_listed_of_inFlight hf) hnot.1
    · exact absurd ht hnot.2
  | handle m =>
    simp only [hkind, condition, Concerns, Option.any_eq_true] at hcond hconcerns
    obtain ⟨state, hs, hc⟩ := hcond
    rw [hconcerns]
    exact hq.mem_ranTasks hs hc

section Waits
variable (h : s.Waits)
include h

/-- A step where no thread tests its predicate: the threads are those that were there, or they are
about to test it. -/
theorem Waits.step (hlen : s.states.length ≤ s'.states.length) (hran : s.ranTasks ⊆ s'.ranTasks)
    (hid : ∀ n < s.states.length, s'.idOf n = s.idOf n)
    (hwaiters : ∀ w ∈ s'.waiters, w ∈ s.waiters ∨
      (w.status = .checking ∧ w.since ≤ s'.states.length))
    (hwake : ∀ w ∈ s'.waiters, w.status = .asleep →
      (s.condition w.kind = true → s.Notified w.kind) →
      s'.condition w.kind = true → s'.Notified w.kind)
    (hrun : s'.pc = .asleep → s'.tasks ≠ [] → 0 < s'.notifies) : s'.Waits where
  since_le w hw := by
    rcases hwaiters w hw with hw | ⟨-, hw⟩
    · exact (h.since_le w hw).trans hlen
    · exact hw
  returned w hw hstatus := by
    rcases hwaiters w hw with hw | ⟨hchecking, -⟩
    · refine (h.returned w hw hstatus).mono hran fun n hn => hid n ?_
      exact Nat.lt_of_lt_of_le hn (h.since_le w hw)
    · cases hstatus.symm.trans hchecking
  wakeup w hw hstatus hcond := by
    rcases hwaiters w hw with hw' | ⟨hchecking, -⟩
    · exact hwake w hw hstatus (h.wakeup w hw' hstatus) hcond
    · cases hstatus.symm.trans hchecking
  wakeupRun := hrun


/-- The test of a predicate. -/
theorem Waits.check (hq : s.Queue) (hids : s.Ids) (i : Nat) : (s.next (.check i)).Waits := by
  simp only [next]
  split
  · exact h
  rename_i w hi
  have hw := mem_of_getElem? hi
  split
  · refine ⟨fun v hv => ?_, fun v hv hstatus => ?_, fun v hv hstatus hcond => ?_, h.wakeupRun⟩
    · rcases Pool.mem_replace hv with hv | hv
      · exact h.since_le v hv
      · rw [mem_singleton.mp hv]
        exact h.since_le w hw
    · rcases Pool.mem_replace hv with hv | hv
      · exact h.returned v hv hstatus
      · rw [mem_singleton.mp hv] at hstatus ⊢
        cases hcond : s.condition w.kind
        · simp [hcond] at hstatus
        · exact satisfied_of_condition hq hids (h.since_le w hw) hcond
    · rcases Pool.mem_replace hv with hv | hv
      · exact h.wakeup v hv hstatus hcond
      · rw [mem_singleton.mp hv] at hstatus hcond
        have hcond : s.condition w.kind = true := hcond
        simp [hcond] at hstatus
  · exact h

theorem Waits.addTask (taskId : I) (callback : Bool) : (s.addTask taskId callback).Waits := by
  refine h.step (by simp [WorkerBase.addTask]) (refl _) (fun n => idOf_addTask_of_lt)
    (fun w hw => .inl hw) (fun w hw hstatus hold hcond => ?_) fun _ _ => Nat.succ_pos _
  cases hkind : w.kind with
  | all => exact .inl (Nat.succ_pos _)
  | byId other => exact .inl (Nat.succ_pos _)
  | handle m =>
    rw [hkind] at hold hcond
    refine hold ?_
    -- the new state is not completed
    simp only [condition, WorkerBase.addTask, Option.any_eq_true] at hcond ⊢
    obtain ⟨state, hs, hc⟩ := hcond
    rcases Nat.lt_or_ge m s.states.length with hlt | hge
    · exact ⟨state, by rwa [getElem?_append_left hlt] at hs, hc⟩
    · rw [getElem?_append_right hge] at hs
      rw [mem_singleton.mp (mem_of_getElem? hs)] at hc
      cases hc

/-- `cv_.notify_all()`: only threads in `TaskState::Wait` stay blocked. -/
theorem Waits.notifyCv (hstates : s'.states = s.states) (hran : s'.ranTasks = s.ranTasks)
    (hwaiters : s'.waiters = s.notifyCv.waiters) (hpc : s'.pc ≠ .asleep)
    (hhandle : ∀ n cb, s.pc = .completed n cb → s'.pc = .completed n cb) : s'.Waits := by
  refine h.step (by rw [hstates]) (by rw [hran]; exact refl _)
    (fun n _ => by rw [idOf, hstates, idOf]) (fun w hw => ?_) (fun w hw hstatus hold hcond => ?_)
    fun hasleep => absurd hasleep hpc
  · simp only [hwaiters, WorkerBase.notifyCv] at hw
    rcases mem_wakeAll hw with ⟨hw, -⟩ | ⟨w', hw', hchecking, hsince⟩
    · exact .inl hw
    · exact .inr ⟨hchecking, by rw [hsince, hstates]; exact h.since_le w' hw'⟩
  · simp only [hwaiters, WorkerBase.notifyCv] at hw
    rcases mem_wakeAll hw with ⟨-, hnot⟩ | ⟨w', hw', hchecking, -⟩
    · cases hkind : w.kind with
      | all => exact absurd ⟨hstatus, by rw [hkind]⟩ hnot
      | byId taskId => exact absurd ⟨hstatus, by rw [hkind]⟩ hnot
      | handle n =>
        rw [hkind] at hold hcond
        simp only [condition, hstates] at hold hcond
        obtain ⟨cb, hcompleted⟩ := hold hcond
        exact ⟨cb, hhandle n cb hcompleted⟩
    · cases hstatus.symm.trans hchecking

/-- A step of a round before its `cv_.notify_all()`. -/
theorem Waits.round (hwaiters : s'.waiters = s.waiters) (hlen : s'.states.length = s.states.length)
    (hran : s.ranTasks ⊆ s'.ranTasks) (hid : ∀ n, s'.idOf n = s.idOf n)
    (hnotify : s'.pc.willNotify = true) (hpc : ∀ n cb, s.pc ≠ .completed n cb)
    (hhandle : ∀ n, s'.condition (.handle n) = true →
      s.condition (.handle n) = true ∨ s'.Notified (.handle n)) : s'.Waits := by
  refine h.step (Nat.le_of_eq hlen.symm) hran (fun n _ => hid n) (fun w hw => .inl (hwaiters ▸ hw))
    (fun w hw hstatus hold hcond => ?_) fun hasleep => ?_
  · cases hkind : w.kind with
    | all => exact .inr hnotify
    | byId taskId => exact .inr hnotify
    | handle n =>
      rw [hkind] at hold hcond
      rcases hhandle n hcond with hcond | hnotified
      · obtain ⟨cb, hcompleted⟩ := hold hcond
        exact absurd hcompleted (hpc n cb)
      · exact hnotified
  · rw [hasleep] at hnotify
    cases hnotify

theorem Waits.run (hq : s.Queue) : s.run.Waits := by
  cases hpc : s.pc with
  | wait =>
    cases ht : s.tasks with
    | nil =>
      rw [run_wait_nil hpc ht]
      refine ⟨h.since_le, h.returned, fun w hw hstatus hcond => ?_, fun _ hne => absurd ht hne⟩
      exact (h.wakeup w hw hstatus hcond).congr rfl (by rw [hpc]; rfl) (by simp [hpc])
    | cons n tasks =>
      rw [run_wait_cons hpc ht]
      exact h.round rfl rfl (refl _) (fun _ => rfl) rfl (by simp [hpc]) fun _ => .inl
  | asleep => rwa [run_asleep hpc]
  | popped n =>
    rw [run_popped hpc]
    exact h.round rfl rfl (subset_append_left _ _) (fun _ => rfl) rfl (by simp [hpc])
      fun _ => .inl
  | ran n =>
    rw [run_ran hpc]
    exact h.round rfl rfl (refl _) (fun _ => rfl) rfl (by simp [hpc]) fun _ => .inl
  | counted n =>
    have hs := getElem?_eq_getElem (hq.current_lt (n := n) (by simp [hpc, current]))
    rw [run_counted hpc hs]
    refine h.round rfl (by simp) (refl _) (fun _ => idOf_set hs rfl) rfl (by simp [hpc])
      fun m hcond => ?_
    -- the only state that became completed is that of the round
    by_cases hmn : m = n
    · exact .inr ⟨_, by rw [hmn]⟩
    · simp only [condition, getElem?_set_ne (Ne.symm hmn)] at hcond
      exact .inl hcond
  | completed n cb =>
    rw [run_completed hpc]
    refine h.step (Nat.le_refl _) (refl _) (fun _ _ => rfl) (fun w hw => ?_)
      (fun w hw hstatus hold hcond => ?_) (by simp)
    · simp only at hw
      rcases mem_wakeAll hw with ⟨hw, -⟩ | ⟨w', hw', hchecking, hsince⟩
      · exact .inl hw
      · exact .inr ⟨hchecking, hsince ▸ h.since_le w' hw'⟩
    · simp only at hw
      rcases mem_wakeAll hw with ⟨-, hnot⟩ | ⟨w', hw', hchecking, -⟩
      · cases hkind : w.kind with
        | all => exact .inr rfl
        | byId taskId => exact .inr rfl
        | handle m =>
          rw [hkind] at hold hcond
          obtain ⟨cb', hcompleted⟩ := hold hcond
          rw [hpc, completed.injEq] at hcompleted
          exact absurd ⟨hstatus, by simp [hkind, hcompleted.1]⟩ hnot
      · cases hstatus.symm.trans hchecking
  | notified n cb =>
    rw [run_notified hpc]
    exact h.round rfl rfl (refl _) (fun _ => rfl) rfl (by simp [hpc]) fun _ => .inl
  | erased n cb =>
    rw [run_erased hpc]
    exact h.notifyCv rfl rfl rfl (by simp) (by simp [hpc])
  | calling n cb =>
    rw [run_calling hpc]
    refine ⟨h.since_le, h.returned, fun w hw hstatus hcond => ?_, by simp⟩
    exact (h.wakeup w hw hstatus hcond).congr rfl (by rw [hpc]; rfl) (by simp [hpc])

theorem Waits.onComplete (n : Nat) : (s.onComplete n).Waits := by
  rcases hs : s.states[n]? with _ | state
  · rw [WorkerBase.onComplete, hs]
    exact h
  cases hc : state.completed
  · rw [onComplete_pending hs hc]
    refine h.step (by simp) (refl _) (fun _ _ => idOf_set hs rfl) (fun _ => .inl)
      (fun w hw hstatus hold hcond => ?_) h.wakeupRun
    cases hkind : w.kind with
    | all =>
      rw [hkind] at hold hcond
      exact hold hcond
    | byId taskId =>
      rw [hkind] at hold hcond
      exact hold hcond
    | handle m =>
      rw [hkind] at hold hcond
      refine hold ?_
      -- the state that was set is not completed
      simp only [condition, Option.any_eq_true] at hcond ⊢
      obtain ⟨state', hm, hcompleted⟩ := hcond
      rcases of_getElem?_set hm with ⟨rfl, rfl⟩ | ⟨-, hm⟩
      · simp [hc] at hcompleted
      · exact ⟨state', hm, hcompleted⟩
  · rw [onComplete_completed hs hc]
    exact ⟨h.since_le, h.returned, h.wakeup, h.wakeupRun⟩

theorem Waits.wakeRun : (s.next .wakeRun).Waits := by
  refine h.step (Nat.le_refl _) (refl _) (fun _ _ => rfl) (fun _ => .inl)
    (fun w hw hstatus hold hcond => ?_) fun hasleep => absurd hasleep woken_ne_asleep
  obtain ⟨-, -, -, -, -, -, hwill⟩ := lists_woken s.pc
  exact (hold hcond).congr rfl hwill fun n cb hpc => by simp [next, hpc, woken]

theorem Waits.wake (i : Nat) : (s.next (.wake i)).Waits := by
  simp only [next]
  split
  · exact h
  rename_i w hi
  split
  · refine h.step (Nat.le_refl _) (refl _) (fun _ _ => rfl) (fun v hv => ?_)
      (fun v hv hstatus hold hcond => hold hcond) h.wakeupRun
    rcases Pool.mem_replace hv with hv | hv
    · exact .inl hv
    · rw [mem_singleton.mp hv]
      exact .inr ⟨rfl, h.since_le w (mem_of_getElem? hi)⟩
  · exact h

theorem Waits.wait (kind : Wait I) : (s.next (.wait kind)).Waits := by
  refine h.step (Nat.le_refl _) (refl _) (fun _ _ => rfl) (fun w hw => ?_)
    (fun w hw hstatus hold hcond => hold hcond) h.wakeupRun
  rcases mem_append.mp hw with hw | hw
  · exact .inl hw
  · rw [mem_singleton.mp hw]
    exact .inr ⟨rfl, Nat.le_refl _⟩

end Waits

/-! ## All of it -/

/-- What every reachable state meets. -/
structure Inv (s : WorkerBase I) : Prop where
  queue : s.Queue
  ids : s.Ids
  callbacks : s.Callbacks
  waits : s.Waits

theorem Inv.start : Inv ({} : WorkerBase I) where
  queue := ⟨rfl, by simp [current], rfl, by simp⟩
  ids := ⟨by simp [unerased, listed], by simp [unerased, listed]⟩
  callbacks := ⟨by simp [holds, stored], by simp, by simp, by simp, by simp [holds]⟩
  waits := ⟨by simp, by simp, by simp, by simp⟩

/-- Only the threads that wait take a step. -/
theorem Inv.of_waits (h : s.Inv) (hw : s'.Waits)
    (hs' : s' = { s with waiters := s'.waiters }) : s'.Inv := by
  refine ⟨?_, ?_, ?_, hw⟩
  · rw [hs']
    exact h.queue.congr rfl rfl rfl rfl (.inl rfl)
  · rw [hs']
    exact h.ids.congr rfl rfl fun _ => rfl
  · rw [hs']
    exact h.callbacks.congr rfl rfl rfl rfl rfl (refl _)

theorem next_check (i : Nat) :
    s.next (.check i) = { s with waiters := (s.next (.check i)).waiters } := by
  simp only [next]
  split
  · rfl
  · split <;> rfl

theorem next_wake (i : Nat) :
    s.next (.wake i) = { s with waiters := (s.next (.wake i)).waiters } := by
  simp only [next]
  split
  · rfl
  · split <;> rfl

theorem Inv.invoke (h : s.Inv) (i : Nat) : (s.next (.invoke i)).Inv := by
  have hcb := h.callbacks.invoke i
  simp only [WorkerBase.next] at hcb ⊢
  split at hcb
  · exact h
  · exact ⟨h.queue.congr rfl rfl rfl rfl (.inl rfl), h.ids.congr rfl rfl fun _ => rfl, hcb,
      ⟨h.waits.since_le, h.waits.returned, h.waits.wakeup, h.waits.wakeupRun⟩⟩

/-- `Run` is blocked no more, or the same thread is. -/
theorem Inv.woken (h : s.Inv) (hw : s'.Waits) (hpc : s'.pc = s.pc.woken)
    (hqueue : s'.tasks = s.tasks ∧ s'.taskIds = s.taskIds ∧ s'.taskCount = s.taskCount)
    (hdone : s'.states = s.states ∧ s'.ranTasks = s.ranTasks)
    (hcalls : s'.calls = s.calls ∧ s'.called = s.called ∧ s'.given = s.given) : s'.Inv := by
  obtain ⟨htasks, hids, hcount⟩ := hqueue
  obtain ⟨hstates, hran⟩ := hdone
  obtain ⟨-, -, -, -, hlisted, hholds, -⟩ := lists_woken s.pc
  refine ⟨h.queue.congr hran htasks hstates hcount (hpc ▸ same_woken),
    h.ids.congr hids ?_ fun n => by rw [idOf, hstates, idOf],
    h.callbacks.congr hcalls.2.1 hcalls.1 (hpc ▸ hholds) hstates hcalls.2.2 ?_, hw⟩
  · rw [unerased, hpc, hlisted, htasks, unerased]
  · rw [hran]
    exact refl _

theorem Inv.step (h : s.Inv) {e : Event I} (hen : s.Enabled e) (hfresh : s.Fresh e) :
    (s.next e).Inv := by
  have ⟨hq, hids, hcb, hw⟩ := h
  cases e with
  | addTask taskId callback =>
    exact ⟨hq.addTask _ _, hids.addTask hq hfresh _, hcb.addTask _ _, hw.addTask _ _⟩
  | notifyAll =>
    simp only [WorkerBase.next]
    split
    · exact h
    · exact h.woken (hw.notifyCv rfl rfl rfl Pc.woken_ne_asleep fun n cb hpc => by
        simp [WorkerBase.notifyCv, hpc, Pc.woken]) rfl ⟨rfl, rfl, rfl⟩ ⟨rfl, rfl⟩ ⟨rfl, rfl, rfl⟩
  | onComplete n =>
    exact ⟨hq.onComplete n, hids.onComplete, hcb.onComplete hq hen.2, hw.onComplete n⟩
  | invoke i => exact h.invoke i
  | wait kind => exact h.of_waits (hw.wait kind) rfl
  | check i => exact h.of_waits (hw.check hq hids i) (next_check i)
  | wake i => exact h.of_waits (hw.wake i) (next_wake i)
  | run => exact ⟨hq.run, hids.run hq, hcb.run hq, hw.run hq⟩
  | wakeRun => exact h.woken hw.wakeRun rfl ⟨rfl, rfl, rfl⟩ ⟨rfl, rfl⟩ ⟨rfl, rfl, rfl⟩

end Morphling.Scheduler.WorkerBase
