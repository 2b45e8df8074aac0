import Mathlib.Algebra.Ring.Nat
import Mathlib.Data.List.Induction
import Morphling.Lib.Run

/-!
# The queues of an event loop (`network/uevent.cpp`)

Threads queue functors and tasks for the thread of the loop. A producer writes the eventfd if it
found its queue empty, after it left the critical section; `WakeupReadCb` reads the eventfd and then
takes both queues. A step is a critical section, a read or a write of the eventfd, or the call of a
functor or a task.

* `Lane`: a queue. `executed` and `inlined` are not in the source: what was called from the queue
  and what was called by `RunInLoop`, with the thread that called it.
* `writers`: threads that are about to write the eventfd. They do nothing else before that.
* `Contract`: what the events of the run queued is executed once and in order, on the thread of the
  loop; and where something is pending, a wakeup is on its way, which in fair runs leads to the
  execution of all that is queued. `contract_always`: it holds after every run.

A task is executed by `loog_arg_func_`, which is taken to be set.
-/

namespace Morphling.Network

open List

/-- `pending_functors_` or `pending_tasks_`, and what became of it. -/
structure Lane (T α : Type*) where
  pending : List α := []
  /-- The rest of the vector that `DoPendingFunctors` swapped out. -/
  batch : List α := []
  executed : List (T × α) := []
  inlined : List (T × α) := []

/-- Where the thread of the loop is in `WakeupReadCb`. -/
inductive LoopPc where
  /-- Not in it. -/
  | idle
  /-- It has read the eventfd. -/
  | swapping
  /-- It executes the functors and tasks it took. -/
  | running
  deriving DecidableEq

/-- `UeventLoop`. -/
structure UeventLoop (T F A : Type*) where
  functors : Lane T F := {}
  tasks : Lane T A := {}
  wakeupFd : Nat := 0
  pc : LoopPc := .idle
  /-- The threads between the critical section of `QueueInLoop` and `Wakeup`. -/
  writers : List T := []

inductive LoopEvent (T F A : Type*) where
  /-- The critical section of `QueueInLoop`. -/
  | queueFunctor (thread : T) (cb : F)
  | queueTask (thread : T) (arg : A)
  /-- `RunInLoop`. -/
  | runFunctor (thread : T) (cb : F)
  | runTask (thread : T) (arg : A)
  /-- A thread writes the eventfd. -/
  | wakeup (thread : T)
  /-- `WakeupReadCb` reads the eventfd. -/
  | read
  /-- The critical section of `DoPendingFunctors`. -/
  | swap
  /-- The next functor or task of the batch, or the end of it. -/
  | next

namespace LoopEvent

variable {T F A : Type*}

/-- A step of the thread of the loop or of a call that has begun. -/
def Internal : LoopEvent T F A → Prop
  | .wakeup _ | .read | .swap | .next => True
  | _ => False

variable [DecidableEq T] (loop : T)

/-- The functor that the event queues: `RunInLoop` queues where the thread is another one. -/
def functor? : LoopEvent T F A → Option F
  | .queueFunctor _ cb => some cb
  | .runFunctor thread cb => if thread = loop then none else some cb
  | _ => none

/-- The task that the event queues. -/
def task? : LoopEvent T F A → Option A
  | .queueTask _ arg => some arg
  | .runTask thread arg => if thread = loop then none else some arg
  | _ => none

end LoopEvent

namespace Lane

variable {T α : Type*} (l : Lane T α)

/-- `push_back`. -/
def push (x : α) : Lane T α := { l with pending := l.pending ++ [x] }

/-- `swap` with an empty vector. -/
def swap : Lane T α := { l with pending := [], batch := l.pending }

/-- The next of the batch is called. -/
def execute (thread : T) (x : α) (batch : List α) : Lane T α :=
  { l with batch := batch, executed := l.executed ++ [(thread, x)] }

/-- A call by `RunInLoop` itself. -/
def runInline (thread : T) (x : α) : Lane T α := { l with inlined := l.inlined ++ [(thread, x)] }

/-- Each element that was queued was executed, is to be executed in this round, or is pending, in
this order; and only the thread of the loop executes. -/
structure Served (loop : T) (queued : List α) : Prop where
  order : l.executed.map Prod.snd ++ (l.batch ++ l.pending) = queued
  thread : ∀ x ∈ l.executed ++ l.inlined, x.1 = loop

variable {l} {loop : T} {queued : List α} {x : α}

namespace Served

section
variable (h : l.Served loop queued)
include h

theorem push (x : α) : (l.push x).Served loop (queued ++ [x]) :=
  ⟨by simp [Lane.push, ← h.order], h.thread⟩

theorem swap (hbatch : l.batch = []) : l.swap.Served loop queued :=
  ⟨by simpa [Lane.swap, hbatch] using h.order, h.thread⟩

theorem execute {batch : List α} (hbatch : l.batch = x :: batch) :
    (l.execute loop x batch).Served loop queued := by
  refine ⟨by simpa [Lane.execute, hbatch] using h.order, fun y hy => ?_⟩
  simp only [Lane.execute, append_assoc, mem_append, mem_singleton] at hy
  rcases hy with hy | rfl | hy
  · exact h.thread y (mem_append_left _ hy)
  · rfl
  · exact h.thread y (mem_append_right _ hy)

theorem runInline (x : α) : (l.runInline loop x).Served loop queued := by
  refine ⟨h.order, fun y hy => ?_⟩
  simp only [Lane.runInline, ← append_assoc] at hy
  rcases mem_append.mp hy with hy | hy
  · exact h.thread y hy
  · rw [mem_singleton.mp hy]

theorem done (hbatch : l.batch = []) (hpending : l.pending = []) :
    l.executed.map Prod.snd = queued := by
  simpa [hbatch, hpending] using h.order

end

end Served

end Lane

namespace UeventLoop

variable {T F A : Type*} [DecidableEq T] (loop : T) (s : UeventLoop T F A)

/-- `Wakeup`: the counter of an eventfd stays below its maximum. -/
def write : UeventLoop T F A :=
  if s.wakeupFd < 2 ^ 64 - 2 then { s with wakeupFd := s.wakeupFd + 1 } else s

/-- The critical section of `QueueInLoop(Functor)`. -/
def queueFunctor (thread : T) (cb : F) : UeventLoop T F A :=
  { s with
    functors := s.functors.push cb
    writers := if s.functors.pending.isEmpty then thread :: s.writers else s.writers }

/-- The critical section of `QueueInLoop(void*)`. -/
def queueTask (thread : T) (arg : A) : UeventLoop T F A :=
  { s with
    tasks := s.tasks.push arg
    writers := if s.tasks.pending.isEmpty then thread :: s.writers else s.writers }

/-- `RunInLoop(Functor)`. -/
def runFunctor (thread : T) (cb : F) : UeventLoop T F A :=
  if thread = loop then { s with functors := s.functors.runInline thread cb }
  else s.queueFunctor thread cb

/-- `RunInLoop(void*)`. -/
def runTask (thread : T) (arg : A) : UeventLoop T F A :=
  if thread = loop then { s with tasks := s.tasks.runInline thread arg }
  else s.queueTask thread arg

/-- `WakeupReadCb` up to the critical section; a read of a zero counter fails. -/
def read : UeventLoop T F A :=
  if s.wakeupFd = 0 then s else { s with wakeupFd := 0, pc := .swapping }

/-- The next step of the loops of `DoPendingFunctors`: the functors, then the tasks. -/
def runNext : UeventLoop T F A :=
  match s.functors.batch, s.tasks.batch with
  | cb :: batch, _ => { s with functors := s.functors.execute loop cb batch }
  | [], arg :: batch => { s with tasks := s.tasks.execute loop arg batch }
  | [], [] => { s with pc := .idle }

/-- A step. An event that cannot happen changes nothing. -/
def next : LoopEvent T F A → UeventLoop T F A
  | .queueFunctor thread cb => s.queueFunctor thread cb
  | .queueTask thread arg => s.queueTask thread arg
  | .runFunctor thread cb => s.runFunctor loop thread cb
  | .runTask thread arg => s.runTask loop thread arg
  | .wakeup thread =>
    if thread ∈ s.writers then { s.write with writers := s.writers.erase thread } else s
  | .read => if s.pc = .idle ∧ loop ∉ s.writers then s.read else s
  | .swap =>
    if s.pc = .swapping then
      { s with functors := s.functors.swap, tasks := s.tasks.swap, pc := .running }
    else s
  | .next => if s.pc = .running ∧ loop ∉ s.writers then s.runNext loop else s

/-- The contract of the queues after the events `es`. -/
structure Contract (es : List (LoopEvent T F A)) : Prop where
  functors : s.functors.Served loop (es.filterMap (·.functor? loop))
  tasks : s.tasks.Served loop (es.filterMap (·.task? loop))
  /-- What is pending will be taken. -/
  wakeup : s.functors.pending ≠ [] ∨ s.tasks.pending ≠ [] →
    s.wakeupFd ≠ 0 ∨ s.writers ≠ [] ∨ s.pc = .swapping
  /-- If nothing more is queued, and the threads that are there take enough steps in any order,
  everything is executed. -/
  progress : ∃ n, ∀ more : List (LoopEvent T F A), (∀ e ∈ more, e.Internal) →
    Run.Rounds (s.writers.map .wakeup ++ [.read, .swap, .next]) n more →
    (Run.exec (next loop) s more).functors.executed.map Prod.snd =
        es.filterMap (·.functor? loop) ∧
      (Run.exec (next loop) s more).tasks.executed.map Prod.snd = es.filterMap (·.task? loop)

end UeventLoop

/-! ## The invariant -/

namespace UeventLoop

variable {T F A : Type*} {loop thread : T} {s : UeventLoop T F A} {cbs : List F} {args : List A}

/-- After the functors `cbs` and the tasks `args` were queued. -/
structure Inv (loop : T) (cbs : List F) (args : List A) (s : UeventLoop T F A) : Prop where
  functors : s.functors.Served loop cbs
  tasks : s.tasks.Served loop args
  wakeup : s.functors.pending ≠ [] ∨ s.tasks.pending ≠ [] →
    s.wakeupFd ≠ 0 ∨ s.writers ≠ [] ∨ s.pc = .swapping
  /-- There is a batch only while it is executed. -/
  batch : s.pc ≠ .running → s.functors.batch = [] ∧ s.tasks.batch = []

theorem Inv.start : Inv loop [] [] ({} : UeventLoop T F A) :=
  ⟨⟨rfl, by simp⟩, ⟨rfl, by simp⟩, by simp, fun _ => ⟨rfl, rfl⟩⟩

/-- Whoever finds a queue empty writes the eventfd. -/
theorem wakeup_push {α : Type*} {pending : List α}
    (h : pending ≠ [] → s.wakeupFd ≠ 0 ∨ s.writers ≠ [] ∨ s.pc = .swapping) :
    s.wakeupFd ≠ 0 ∨ (if pending.isEmpty then thread :: s.writers else s.writers) ≠ [] ∨
      s.pc = .swapping := by
  cases hp : pending with
  | nil => exact .inr (.inl (by simp))
  | cons x rest =>
    rw [isEmpty_cons]
    exact h (by simp [hp])

theorem Inv.queueFunctor (h : Inv loop cbs args s) (cb : F) :
    Inv loop (cbs ++ [cb]) args (s.queueFunctor thread cb) :=
  ⟨h.functors.push cb, h.tasks, fun _ => wakeup_push fun hp => h.wakeup (.inl hp), h.batch⟩

theorem Inv.queueTask (h : Inv loop cbs args s) (arg : A) :
    Inv loop cbs (args ++ [arg]) (s.queueTask thread arg) :=
  ⟨h.functors, h.tasks.push arg, fun _ => wakeup_push fun hp => h.wakeup (.inr hp), h.batch⟩

theorem write_ne_zero : s.write.wakeupFd ≠ 0 := by
  unfold write
  split
  · exact Nat.succ_ne_zero _
  · omega

theorem write_eq : s.write = { s with wakeupFd := s.write.wakeupFd } := by
  unfold write
  split <;> rfl

theorem Inv.runNext (h : Inv loop cbs args s) (hpc : s.pc = .running) :
    Inv loop cbs args (s.runNext loop) := by
  unfold UeventLoop.runNext
  split
  · rename_i hf
    exact ⟨h.functors.execute hf, h.tasks, h.wakeup, fun hne => absurd hpc hne⟩
  · rename_i ht
    exact ⟨h.functors, h.tasks.execute ht, h.wakeup, fun hne => absurd hpc hne⟩
  · rename_i hf ht
    refine ⟨h.functors, h.tasks, fun hp => ?_, fun _ => ⟨hf, ht⟩⟩
    rcases h.wakeup hp with hfd | hw | hswap
    · exact .inl hfd
    · exact .inr (.inl hw)
    · cases hpc.symm.trans hswap

variable [DecidableEq T] {e : LoopEvent T F A}

/-- A step that queues nothing. -/
theorem Inv.next_internal (h : Inv loop cbs args s) (he : e.Internal) :
    Inv loop cbs args (s.next loop e) := by
  cases e with
  | wakeup thread =>
    simp only [UeventLoop.next]
    split
    · rw [write_eq]
      exact ⟨h.functors, h.tasks, fun _ => .inl write_ne_zero, h.batch⟩
    · exact h
  | read =>
    simp only [UeventLoop.next, UeventLoop.read]
    split
    next hpc =>
      split
      · exact h
      · exact ⟨h.functors, h.tasks, fun _ => .inr (.inr rfl), fun _ => h.batch (by simp [hpc.1])⟩
    next => exact h
  | swap =>
    simp only [UeventLoop.next]
    split
    next hpc =>
      obtain ⟨hf, ht⟩ := h.batch (by simp [hpc])
      exact ⟨h.functors.swap hf, h.tasks.swap ht, by simp [Lane.swap], fun hne => absurd rfl hne⟩
    next => exact h
  | next =>
    simp only [UeventLoop.next]
    split
    next hpc => exact h.runNext hpc.1
    next => exact h
  | _ => cases he

theorem Inv.next (h : Inv loop cbs args s) (e : LoopEvent T F A) :
    Inv loop (cbs ++ (e.functor? loop).toList) (args ++ (e.task? loop).toList) (s.next loop e) := by
  cases e with
  | queueFunctor thread cb =>
    rw [show (LoopEvent.queueFunctor thread cb : LoopEvent T F A).task? loop = none from rfl,
      Option.toList_none, append_nil]
    exact h.queueFunctor cb
  | queueTask thread arg =>
    rw [show (LoopEvent.queueTask thread arg : LoopEvent T F A).functor? loop = none from rfl,
      Option.toList_none, append_nil]
    exact h.queueTask arg
  | runFunctor thread cb =>
    simp only [UeventLoop.next, UeventLoop.runFunctor, LoopEvent.functor?, LoopEvent.task?,
      Option.toList_none, append_nil]
    split
    · rename_i hthread
      rw [hthread, Option.toList_none, append_nil]
      exact ⟨h.functors.runInline cb, h.tasks, h.wakeup, h.batch⟩
    · exact h.queueFunctor cb
  | runTask thread arg =>
    simp only [UeventLoop.next, UeventLoop.runTask, LoopEvent.functor?, LoopEvent.task?,
      Option.toList_none, append_nil]
    split
    · rename_i hthread
      rw [hthread, Option.toList_none, append_nil]
      exact ⟨h.functors, h.tasks.runInline arg, h.wakeup, h.batch⟩
    · exact h.queueTask arg
  | wakeup | read | swap | next =>
    simp only [LoopEvent.functor?, LoopEvent.task?, Option.toList_none, append_nil]
    exact h.next_internal trivial

theorem inv_exec (es : List (LoopEvent T F A)) :
    Inv loop (es.filterMap (·.functor? loop)) (es.filterMap (·.task? loop))
      (Run.exec (next loop) {} es) := by
  induction es using List.reverseRecOn with
  | nil => exact Inv.start
  | append_singleton es e ih =>
    rw [filterMap_append, filterMap_append, Run.exec_append]
    exact ih.next e

/-! ## Progress -/

/-- What the threads that are there have to do. -/
def rank (s : UeventLoop T F A) : Nat :=
  4 * s.writers.length + (if s.wakeupFd = 0 then 0 else 3) +
    (s.functors.batch.length + s.tasks.batch.length) +
    (s.functors.pending.length + s.tasks.pending.length) +
    match s.pc with
    | .idle => 0
    | .running => 1
    | .swapping => 2

/-- Nothing is left of the queues. -/
def Idle (s : UeventLoop T F A) : Prop :=
  (s.functors.batch = [] ∧ s.functors.pending = []) ∧ s.tasks.batch = [] ∧ s.tasks.pending = []

theorem rank_wakeup_lt (h : thread ∈ s.writers) : (s.next loop (.wakeup thread)).rank < s.rank := by
  have hlen := length_erase_add_one h
  simp only [next, h, if_true]
  rw [write_eq]
  simp only [rank, write_ne_zero, if_false]
  split <;> omega

theorem rank_read_lt (hpc : s.pc = .idle) (hloop : loop ∉ s.writers) (hfd : s.wakeupFd ≠ 0) :
    (s.next loop .read).rank < s.rank := by
  simp only [next, read, rank, hpc, hloop, hfd, not_false_eq_true, and_self,
    if_true, if_false]
  omega

theorem rank_swap_lt (hpc : s.pc = .swapping) (hf : s.functors.batch = []) (ht : s.tasks.batch = []) :
    (s.next loop .swap).rank < s.rank := by
  simp only [next, rank, hpc, if_true, Lane.swap, hf, ht, length_nil]
  omega

theorem rank_next_lt (hpc : s.pc = .running) (hloop : loop ∉ s.writers) :
    (s.next loop .next).rank < s.rank := by
  simp only [next, hpc, hloop, not_false_eq_true, and_self, if_true]
  unfold runNext
  split
  · rename_i hf
    simp [rank, Lane.execute, hpc, hf]
  · rename_i ht
    simp [rank, Lane.execute, hpc, ht]
  · simp [rank, hpc]

/-- A step that can be taken brings the rank down. -/
theorem Inv.rank_lt_or (h : Inv loop cbs args s) (he : e.Internal) :
    (s.next loop e).rank < s.rank ∨ s.next loop e = s := by
  cases e with
  | wakeup thread =>
    by_cases ht : thread ∈ s.writers
    · exact .inl (rank_wakeup_lt ht)
    · exact .inr (if_neg ht)
  | read =>
    by_cases hread : (s.pc = .idle ∧ loop ∉ s.writers) ∧ s.wakeupFd ≠ 0
    · exact .inl (rank_read_lt hread.1.1 hread.1.2 hread.2)
    · refine .inr ?_
      simp only [UeventLoop.next, UeventLoop.read]
      grind
  | swap =>
    by_cases hpc : s.pc = .swapping
    · obtain ⟨hf, ht⟩ := h.batch (by simp [hpc])
      exact .inl (rank_swap_lt hpc hf ht)
    · exact .inr (if_neg hpc)
  | next =>
    by_cases hpc : s.pc = .running ∧ loop ∉ s.writers
    · exact .inl (rank_next_lt hpc.1 hpc.2)
    · exact .inr (if_neg hpc)
  | _ => cases he

/-- The threads get on, and the eventfd is readable where the loop waits for it. -/
theorem Inv.exists_rank_lt (h : Inv loop cbs args s) (hbusy : ¬s.Idle) :
    ∃ e ∈ s.writers.map .wakeup ++ [.read, .swap, .next], (s.next loop e).rank < s.rank := by
  cases hw : s.writers with
  | cons thread writers =>
    exact ⟨.wakeup thread, by simp, rank_wakeup_lt (by simp [hw])⟩
  | nil =>
    have hloop : loop ∉ s.writers := by simp [hw]
    cases hpc : s.pc with
    | running => exact ⟨.next, by simp, rank_next_lt hpc hloop⟩
    | swapping =>
      obtain ⟨hf, ht⟩ := h.batch (by simp [hpc])
      exact ⟨.swap, by simp, rank_swap_lt hpc hf ht⟩
    | idle =>
      obtain ⟨hf, ht⟩ := h.batch (by simp [hpc])
      have hpending : s.functors.pending ≠ [] ∨ s.tasks.pending ≠ [] := by
        by_contra hnone
        simp only [not_or, not_not] at hnone
        exact hbusy ⟨⟨hf, hnone.1⟩, ht, hnone.2⟩
      have hfd : s.wakeupFd ≠ 0 := by simpa [hw, hpc] using h.wakeup hpending
      exact ⟨.read, by simp, rank_read_lt hpc hloop hfd⟩

/-- No thread begins to write the eventfd, and what is idle stays so. -/
theorem next_internal (he : e.Internal) :
    (∀ t ∈ (s.next loop e).writers, t ∈ s.writers) ∧ (s.Idle → (s.next loop e).Idle) := by
  cases e with
  | wakeup thread =>
    simp only [next]
    split
    · rw [write_eq]
      exact ⟨fun t => mem_of_mem_erase, id⟩
    · exact ⟨fun _ => id, id⟩
  | read =>
    simp only [next, read]
    split
    · split <;> exact ⟨fun _ => id, id⟩
    · exact ⟨fun _ => id, id⟩
  | swap =>
    simp only [next]
    split
    · exact ⟨fun _ => id, fun h => ⟨⟨h.1.2, rfl⟩, h.2.2, rfl⟩⟩
    · exact ⟨fun _ => id, id⟩
  | next =>
    simp only [next, runNext]
    split
    · split
      · rename_i hf
        exact ⟨fun _ => id, fun h => by simp [h.1.1] at hf⟩
      · rename_i ht
        exact ⟨fun _ => id, fun h => by simp [h.2.1] at ht⟩
      · exact ⟨fun _ => id, id⟩
    · exact ⟨fun _ => id, id⟩
  | _ => cases he

/-- The threads that are there are the loop and those that write the eventfd. -/
theorem progress (loop : T) (cbs : List F) (args : List A) (writers : List T) :
    Run.Progress (next loop)
      (fun s : UeventLoop T F A => Inv loop cbs args s ∧ ∀ t ∈ s.writers, t ∈ writers)
      LoopEvent.Internal Idle rank (writers.map .wakeup ++ [.read, .swap, .next])
      (fun s e => (s.next loop e).rank < s.rank) where
  inv s e h he := ⟨h.1.next_internal he, fun t ht => h.2 t ((next_internal he).1 t ht)⟩
  stays s e _ he := (next_internal he).2
  step s e h he _ := (h.1.rank_lt_or he).imp id fun heq => by
    rw [heq]
    exact ⟨rfl, fun _ _ => id⟩
  exists_helps s h hbusy := by
    obtain ⟨e, hmem, hlt⟩ := h.1.exists_rank_lt hbusy
    refine ⟨e, ?_, hlt⟩
    rcases mem_append.mp hmem with hmem | hmem
    · obtain ⟨t, ht, rfl⟩ := mem_map.mp hmem
      exact mem_append_left _ (mem_map_of_mem (h.2 t ht))
    · exact mem_append_right _ hmem
  down _ _ _ _ _ h := h

theorem Inv.executed_of_rounds (h : Inv loop cbs args s) :
    ∃ n, ∀ more : List (LoopEvent T F A), (∀ e ∈ more, e.Internal) →
      Run.Rounds (s.writers.map .wakeup ++ [.read, .swap, .next]) n more →
      (Run.exec (UeventLoop.next loop) s more).functors.executed.map Prod.snd = cbs ∧
        (Run.exec (UeventLoop.next loop) s more).tasks.executed.map Prod.snd = args := by
  refine ⟨s.rank + 1, fun more hmore hrounds => ?_⟩
  have hprogress := progress loop cbs args s.writers
  have hs : Inv loop cbs args s ∧ ∀ t ∈ s.writers, t ∈ s.writers := ⟨h, fun _ => id⟩
  obtain ⟨⟨hf, hf'⟩, ht, ht'⟩ := hprogress.done_of_rounds hs hmore (Nat.lt_succ_self _) hrounds
  have hinv := (Run.inv_exec hprogress.inv hmore hs).1
  exact ⟨hinv.functors.done hf hf', hinv.tasks.done ht ht'⟩

/-- The queues keep their contract in every run. -/
theorem contract_always (loop : T) (es : List (LoopEvent T F A)) :
    (Run.exec (UeventLoop.next loop) {} es).Contract loop es :=
  have h := inv_exec es
  ⟨h.functors, h.tasks, h.wakeup, h.executed_of_rounds⟩

/-- Two threads queue for the loop, which is thread 0; the first functor queues a task when it is
executed. -/
def twoThreads : List (LoopEvent Nat Char Char) :=
  [.queueFunctor 1 'a', .runFunctor 2 'b', .wakeup 1, .runTask 0 'x', .read, .swap, .next,
    .queueTask 0 'y', .wakeup 0, .next, .next, .read, .swap, .next]

example : let s := Run.exec (next 0) {} twoThreads
    s.functors.executed = [(0, 'a'), (0, 'b')] ∧ s.tasks.inlined = [(0, 'x')] ∧
      s.tasks.executed = [(0, 'y')] ∧ s.writers = [] := by
  decide

end UeventLoop
end Morphling.Network
