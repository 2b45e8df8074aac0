import Morphling.Gate.Barrier

/-!
# The lock discipline of queued dispatches

In `DYNAMIC` mode `DispatchMatMulAsync` queues its work in the gate while no device is connected,
and `NotifyDeviceJoined` or `FlushQueue` run the queued closures, which call `DispatchMatMulAsync`
again. The calls lock the tracker's mutex and the gate's mutex, neither of which is recursive.

The locks are in the state: `held` are the locks of the thread that runs the call, and a thread that
acquires a lock it holds fails with that lock (`acquire`). A thread that waits in `EnqueueWork`
for room in the queue holds no lock; what it has left to do is in `waiting`, and `wake` is its next
turn. Closures carry the number of their `EnqueueWork` call, and `executed` is the log of the
closures that ran.

`RegisterDevice` holds the tracker's mutex for its whole body, the notification of the gate
included. So a registration that finds work in the queue locks the mutex twice
(`runClosures_locked`), and `lock_discipline_iff` says that this is the only way to break the
discipline.
-/

namespace Morphling

open List

/-- The two mutexes. -/
inductive Lock where
  | tracker
  | gate
  deriving DecidableEq, Repr

/-- A closure that `EnqueueWork` stored: the number of the call, and the operands. -/
abbrev Closure (W : Type*) := Nat × W

/-- The tracker with its gate, the locks of the running thread, and the threads that wait. -/
structure DispatchState (W : Type*) where
  fleet : Fleet (Closure W)
  held : List Lock := []
  /-- Work that waits for room, and the closures its thread has left to run. -/
  waiting : List (W × List (Closure W)) := []
  /-- The `EnqueueWork` calls so far. -/
  enqueued : Nat := 0
  /-- The closures that ran, by number. -/
  executed : List Nat := []
  /-- The work that went on to the partitions. -/
  dispatched : List W := []

namespace DispatchState

variable {W : Type*} (s : DispatchState W)

def tracker : DevicePartitionTracker := s.fleet.tracker

def gate : DispatchGate (Closure W) := s.fleet.gate

def setTracker (t : DevicePartitionTracker) : DispatchState W :=
  { s with fleet := { s.fleet with tracker := t } }

def setGate (g : DispatchGate (Closure W)) : DispatchState W :=
  { s with fleet := { s.fleet with gate := g } }

/-- `lock()` of a mutex that is not recursive. -/
def acquire (l : Lock) : Except Lock (DispatchState W) :=
  if l ∈ s.held then .error l else .ok { s with held := l :: s.held }

def release (l : Lock) : DispatchState W := { s with held := s.held.erase l }

/-- `GetConnectedDeviceCount`. -/
def getConnectedDeviceCount : Except Lock (Nat × DispatchState W) := do
  let s ← s.acquire .tracker
  return (s.tracker.getConnectedDeviceCount, s.release .tracker)

/-- `EnqueueWork`: `false` where the thread waits for room, which releases the mutex. -/
def enqueueWork (work : W) : Except Lock (Bool × DispatchState W) := do
  let s ← s.acquire .gate
  match s.gate.enqueueWork (s.enqueued, work) with
  | some g => return (true, ({ s.setGate g with enqueued := s.enqueued + 1 }).release .gate)
  | none => return (false, s.release .gate)

/-- `DispatchMatMulAsync` in `DYNAMIC` mode, up to the partitions: `false` where it waits. -/
def dispatchMatMulAsync (work : W) : Except Lock (Bool × DispatchState W) := do
  let (count, s) ← s.getConnectedDeviceCount
  if count = 0 then s.enqueueWork work
  else return (true, { s with dispatched := s.dispatched ++ [work] })

/-- The run of closure `i` is on record. -/
def logRun (i : Nat) : DispatchState W := { s with executed := s.executed ++ [i] }

/-- The loop over `to_flush`. A closure that waits leaves the others to its thread. -/
def runClosures : List (Closure W) → DispatchState W → Except Lock (DispatchState W)
  | [], s => .ok s
  | (i, work) :: rest, s => do
    let (done, s) ← (s.logRun i).dispatchMatMulAsync work
    if done then runClosures rest s
    else return { s with waiting := s.waiting ++ [(work, rest)] }

def notifyDeviceJoined : Except Lock (DispatchState W) := do
  let s ← s.acquire .gate
  let (toFlush, g) := s.gate.notifyDeviceJoined
  runClosures toFlush ((s.setGate g).release .gate)

def notifyDeviceLeft : Except Lock (DispatchState W) := do
  let s ← s.acquire .gate
  return (s.setGate s.gate.notifyDeviceLeft).release .gate

def flushQueue : Except Lock (DispatchState W) := do
  let s ← s.acquire .gate
  let (toFlush, g) := s.gate.flushQueue
  runClosures toFlush ((s.setGate g).release .gate)

/-- `RegisterDevice`: the tracker's mutex is held to the end. -/
def registerDevice (connAddr : String) (uuid : Nat) (now : Int) :
    Except Lock (DispatchState W) := do
  let s ← s.acquire .tracker
  let (r, t) := s.tracker.registerDevice connAddr uuid now
  let s := s.setTracker t
  let s ← if r.notifiesGate then s.notifyDeviceJoined else .ok s
  return s.release .tracker

def disconnectDevice (deviceId now : Int) : Except Lock (DispatchState W) := do
  let s ← s.acquire .tracker
  return (s.setTracker (s.tracker.disconnectDevice deviceId now)).release .tracker

/-- `PurgeDevice`: the gate is notified under the tracker's mutex. -/
def purgeDevice (deviceId : Int) : Except Lock (DispatchState W) := do
  let s ← s.acquire .tracker
  match s.tracker.devicesMap.lookup deviceId with
  | none => return s.release .tracker
  | some _ =>
    let s ← (s.setTracker (s.tracker.purgeDevice deviceId)).notifyDeviceLeft
    return s.release .tracker

/-- The `i`-th waiting thread looks at the queue again. -/
def wake (i : Nat) : Except Lock (DispatchState W) :=
  match s.waiting[i]? with
  | none => .ok s
  | some (work, rest) => do
    let (done, s') ← s.enqueueWork work
    if done then runClosures rest { s' with waiting := s'.waiting.eraseIdx i } else return s'

/-- A call, or a turn of a waiting thread. -/
inductive Call (W : Type*) where
  | dispatchMatMulAsync (work : W)
  | registerDevice (connAddr : String) (uuid : Nat) (now : Int)
  | disconnectDevice (deviceId now : Int)
  | purgeDevice (deviceId : Int)
  | flushQueue
  | wake (i : Nat)

/-- One call of a thread that holds no lock. -/
def step : Call W → Except Lock (DispatchState W)
  | .dispatchMatMulAsync work => do
    let (done, s) ← s.dispatchMatMulAsync work
    return if done then s else { s with waiting := s.waiting ++ [(work, [])] }
  | .registerDevice connAddr uuid now => s.registerDevice connAddr uuid now
  | .disconnectDevice deviceId now => s.disconnectDevice deviceId now
  | .purgeDevice deviceId => s.purgeDevice deviceId
  | .flushQueue => s.flushQueue
  | .wake i => s.wake i

/-- The server after a call. A thread that locked a mutex twice never comes back, and it keeps the
mutex from the others. -/
def next (r : Except Lock (DispatchState W)) (c : Call W) : Except Lock (DispatchState W) :=
  r.bind (·.step c)

/-- No device, and an empty queue. -/
def start (config : CircuitBreakerConfig) (maxQueueSize : Int) : DispatchState W where
  fleet :=
    { tracker := { circuitBreakerConfig := config }
      gate := { mode := .dynamic, barrierCount := 0, maxQueueSize := maxQueueSize } }

/-! ## Calls of a thread that holds no lock -/

universe u in
theorem ok_bind {α β : Type u} (a : α) (f : α → Except Lock β) : (Except.ok a >>= f) = f a := rfl

/-- The work is stored as a new closure. -/
def push (work : W) : DispatchState W :=
  { s.setGate { s.gate with workQueue := s.gate.workQueue ++ [(s.enqueued, work)] } with
    enqueued := s.enqueued + 1 }

/-- The work goes on to the partitions. -/
def pass (work : W) : DispatchState W := { s with dispatched := s.dispatched ++ [work] }

section Unlocked
variable {s : DispatchState W} (h : s.held = [])
include h

theorem acquire_ok (l : Lock) : s.acquire l = .ok { s with held := [l] } := by
  simp [acquire, h]

theorem getConnectedDeviceCount_ok :
    s.getConnectedDeviceCount = .ok (s.tracker.getConnectedDeviceCount, s) := by
  obtain ⟨fleet, held, waiting, enqueued, executed, dispatched⟩ := s
  obtain rfl : held = [] := h
  rfl

/-- `EnqueueWork` stores the closure, or the thread waits and nothing changed. -/
theorem enqueueWork_ok (work : W) : s.enqueueWork work =
    if (s.gate.workQueue.length : Int) < s.gate.maxQueueSize then .ok (true, s.push work)
    else .ok (false, s) := by
  obtain ⟨fleet, held, waiting, enqueued, executed, dispatched⟩ := s
  obtain rfl : held = [] := h
  simp only [enqueueWork, acquire_ok, ok_bind, DispatchGate.enqueueWork, gate]
  by_cases hr : (fleet.gate.workQueue.length : Int) < fleet.gate.maxQueueSize
  · simp only [hr, if_true]
    rfl
  · simp only [hr, if_false]
    rfl

theorem dispatchMatMulAsync_ok (work : W) : s.dispatchMatMulAsync work =
    if s.tracker.getConnectedDeviceCount = 0 then s.enqueueWork work
    else .ok (true, s.pass work) := by
  simp only [dispatchMatMulAsync, getConnectedDeviceCount_ok h]
  rfl

end Unlocked

/-- A closure that runs under the tracker's mutex locks it again. -/
theorem runClosures_locked {s : DispatchState W} (h : Lock.tracker ∈ s.held)
    {js : List (Closure W)} (hjs : js ≠ []) : runClosures js s = .error .tracker := by
  obtain ⟨⟨i, work⟩, rest, rfl⟩ := exists_cons_of_ne_nil hjs
  have h₁ : Lock.tracker ∈ (s.logRun i).held := h
  simp only [runClosures, dispatchMatMulAsync, getConnectedDeviceCount, acquire, h₁, if_true]
  rfl

/-- What the loop over `to_flush` does without the mutex: every closure runs, and each that finds no
device is stored again as a new closure. There is room for all of them. -/
theorem runClosures_ok {s : DispatchState W} (js : List (Closure W)) (h : s.held = [])
    (hroom : js = [] ∨ (s.gate.workQueue.length + js.length : Int) ≤ s.gate.maxQueueSize) :
    ∃ s' m, runClosures js s = .ok s' ∧ s'.held = [] ∧ s'.gate.mode = s.gate.mode ∧
      s'.gate.maxQueueSize = s.gate.maxQueueSize ∧ s'.tracker = s.tracker ∧
      s'.waiting = s.waiting ∧ s'.executed = s.executed ++ js.map Prod.fst ∧ m ≤ js.length ∧
      s'.enqueued = s.enqueued + m ∧
      s'.gate.workQueue.map Prod.fst = s.gate.workQueue.map Prod.fst ++ List.range' s.enqueued m := by
  induction js generalizing s with
  | nil => exact ⟨s, 0, rfl, h, rfl, rfl, rfl, rfl, by simp, Nat.le_refl 0, rfl, by simp⟩
  | cons j rest ih =>
    obtain ⟨i, work⟩ := j
    have hroom' := hroom.resolve_left (cons_ne_nil _ _)
    simp only [length_cons] at hroom'
    have h₁ : (s.logRun i).held = [] := h
    by_cases hc : (s.logRun i).tracker.getConnectedDeviceCount = 0
    · -- No device: the work goes back into the queue.
      have hlt : ((s.logRun i).gate.workQueue.length : Int) < (s.logRun i).gate.maxQueueSize := by
        show (s.gate.workQueue.length : Int) < s.gate.maxQueueSize
        omega
      have hq₁ : ((s.logRun i).push work).gate.workQueue = s.gate.workQueue ++ [(s.enqueued, work)] :=
        rfl
      obtain ⟨s', m, hs, hheld, hmode, hmax, htr, hw, hex, hm, henq, hq⟩ :=
        ih (s := (s.logRun i).push work) h (.inr (by
          rw [hq₁, length_append, length_singleton]
          show _ ≤ s.gate.maxQueueSize
          omega))
      refine ⟨s', m + 1, ?_, hheld, hmode, hmax, htr, hw, ?_, by simpa using hm, ?_, ?_⟩
      · rw [runClosures, dispatchMatMulAsync_ok h₁, if_pos hc, enqueueWork_ok h₁, if_pos hlt, ok_bind]
        exact hs
      · rw [hex]
        show s.executed ++ [i] ++ _ = _
        simp
      · rw [henq]
        show s.enqueued + 1 + m = _
        omega
      · rw [hq, hq₁]
        show _ ++ List.range' (s.enqueued + 1) m = _
        simp [List.range'_succ]
    · obtain ⟨s', m, hs, hheld, hmode, hmax, htr, hw, hex, hm, henq, hq⟩ :=
        ih (s := (s.logRun i).pass work) h (.inr (by
          show (s.gate.workQueue.length + rest.length : Int) ≤ s.gate.maxQueueSize
          omega))
      refine ⟨s', m, ?_, hheld, hmode, hmax, htr, hw, ?_, hm.trans (Nat.le_succ _), henq, hq⟩
      · rw [runClosures, dispatchMatMulAsync_ok h₁, if_neg hc, ok_bind]
        exact hs
      · rw [hex]
        show s.executed ++ [i] ++ _ = _
        simp

/-! ## The discipline -/

/-- Between calls: no lock is held, the queue is within its bound, no thread waits in the middle of
a flush, and the closures ran or are queued in the order of their `EnqueueWork` calls. -/
structure Orderly (s : DispatchState W) : Prop where
  held : s.held = []
  mode : s.gate.mode = .dynamic
  room : s.gate.workQueue = [] ∨ (s.gate.workQueue.length : Int) ≤ s.gate.maxQueueSize
  idle : ∀ e ∈ s.waiting, e.2 = []
  fifo : s.executed ++ s.gate.workQueue.map Prod.fst = List.range s.enqueued

variable {s} {addr : String} {uuid : Nat} {now : Int} {c : Call W}

/-- A flush of the queue by a thread that holds no lock runs every closure that is in it. -/
theorem Orderly.flush (h : Orderly s) (g : DispatchGate (Closure W)) (t : DevicePartitionTracker)
    (hg : g.mode = .dynamic ∧ g.maxQueueSize = s.gate.maxQueueSize ∧ g.workQueue = []) :
    ∃ s', runClosures s.gate.workQueue { s with fleet := ⟨t, g⟩ } = .ok s' ∧ Orderly s' ∧
      s'.tracker = t ∧ s'.executed = List.range s.enqueued := by
  obtain ⟨hmode, hmax, hnil⟩ := hg
  obtain ⟨s', m, hs, hheld, hm', hmax', htr, hw, hex, hm, henq, hq⟩ :=
    runClosures_ok (s := { s with fleet := ⟨t, g⟩ }) s.gate.workQueue h.held
      (h.room.imp id fun hr => by simpa [gate, hnil, hmax] using hr)
  have hex' : s'.executed = List.range s.enqueued := hex.trans h.fifo
  have hq' : s'.gate.workQueue.map Prod.fst = List.range' s.enqueued m := by
    rw [hq]
    show g.workQueue.map Prod.fst ++ _ = _
    rw [hnil]
    rfl
  have hlen : s'.gate.workQueue.length = m := by simpa using congrArg List.length hq'
  refine ⟨s', hs, ⟨hheld, hm'.trans hmode, ?_, by rw [hw]; exact h.idle, ?_⟩, htr, hex'⟩
  · rcases h.room with hr | hr
    · left
      rw [hr] at hm
      exact length_eq_zero_iff.mp (hlen.trans (Nat.le_zero.mp hm))
    · right
      rw [hlen, hmax', show DispatchState.gate { s with fleet := ⟨t, g⟩ } = g from rfl, hmax]
      omega
  · rw [hex', hq', henq, range_eq_range', range_eq_range']
    show _ ++ _ = List.range' 0 (s.enqueued + m)
    simpa using List.range'_append_1 (s := 0) (m := s.enqueued) (n := m)

/-- A call that drains the queue. -/
def Drains (s : DispatchState W) : Call W → Prop
  | .flushQueue => True
  | .registerDevice connAddr uuid now => Fleet.Notifies s.tracker connAddr uuid now
  | _ => False

/-- No registration that notifies the gate finds work in the queue. -/
def QueueOk (s : DispatchState W) : Call W → Prop
  | .registerDevice connAddr uuid now =>
    Fleet.Notifies s.tracker connAddr uuid now → s.gate.workQueue = []
  | _ => True


/-- `EnqueueWork` between calls: the thread waits and nothing changed, or the closure is the last in
the queue. -/
theorem Orderly.push (h : Orderly s)
    (hlt : (s.gate.workQueue.length : Int) < s.gate.maxQueueSize) (work : W) :
    Orderly (s.push work) := by
  refine ⟨h.held, h.mode, .inr ?_, h.idle, ?_⟩
  · show ((s.gate.workQueue ++ [(s.enqueued, work)]).length : Int) ≤ s.gate.maxQueueSize
    rw [length_append, length_singleton]
    omega
  · show s.executed ++ (s.gate.workQueue ++ [(s.enqueued, work)]).map Prod.fst =
      List.range (s.enqueued + 1)
    rw [map_append, ← append_assoc, h.fifo, range_succ]
    rfl

theorem Orderly.dispatch (h : Orderly s) (work : W) :
    ∃ s', s.step (.dispatchMatMulAsync work) = .ok s' ∧ Orderly s' := by
  simp only [step, dispatchMatMulAsync_ok h.held, enqueueWork_ok h.held]
  split
  · split
    next hlt => exact ⟨_, rfl, h.push hlt work⟩
    next =>
      refine ⟨_, rfl, h.held, h.mode, h.room, fun e he => ?_, h.fifo⟩
      rcases mem_append.mp he with he | he
      · exact h.idle e he
      · rw [mem_singleton.mp he]
  · exact ⟨_, rfl, h.held, h.mode, h.room, h.idle, h.fifo⟩

theorem Orderly.wake (h : Orderly s) (i : Nat) : ∃ s', s.step (.wake i) = .ok s' ∧ Orderly s' := by
  simp only [step, DispatchState.wake]
  cases hi : s.waiting[i]? with
  | none => exact ⟨s, rfl, h⟩
  | some e =>
    obtain ⟨work, rest⟩ := e
    obtain rfl : rest = [] := h.idle _ (mem_of_getElem? hi)
    simp only [enqueueWork_ok h.held]
    split
    next hlt =>
      have hp := h.push hlt work
      exact ⟨_, rfl, hp.held, hp.mode, hp.room, fun e he => hp.idle e (mem_of_mem_eraseIdx he),
        hp.fifo⟩
    next => exact ⟨s, rfl, h⟩

theorem notifyDeviceLeft_fields (g : DispatchGate W) : g.notifyDeviceLeft.mode = g.mode ∧
    g.notifyDeviceLeft.maxQueueSize = g.maxQueueSize ∧
    g.notifyDeviceLeft.workQueue = g.workQueue := by
  unfold DispatchGate.notifyDeviceLeft
  split <;> exact ⟨rfl, rfl, rfl⟩

theorem notifyDeviceJoined_dynamic {g : DispatchGate W} (h : g.mode = .dynamic) :
    g.notifyDeviceJoined =
      (g.workQueue, { g with connectedCount := g.connectedCount + 1, workQueue := [] }) := by
  simp [DispatchGate.notifyDeviceJoined, h]

theorem Orderly.purge (h : Orderly s) (d : Int) :
    ∃ s', s.step (.purgeDevice d) = .ok s' ∧ Orderly s' := by
  simp only [step, DispatchState.purgeDevice, acquire_ok h.held, ok_bind]
  split
  · exact ⟨_, rfl, rfl, h.mode, h.room, h.idle, h.fifo⟩
  · obtain ⟨hm, hmax, hq⟩ := notifyDeviceLeft_fields s.gate
    refine ⟨_, rfl, rfl, hm.trans h.mode, ?_, h.idle, ?_⟩
    · show s.gate.notifyDeviceLeft.workQueue = [] ∨
        (s.gate.notifyDeviceLeft.workQueue.length : Int) ≤ s.gate.notifyDeviceLeft.maxQueueSize
      rw [hq, hmax]
      exact h.room
    · show s.executed ++ s.gate.notifyDeviceLeft.workQueue.map Prod.fst = _
      rw [hq]
      exact h.fifo

/-- The notification runs the queue with the locks that its caller holds. -/
theorem notifyDeviceJoined_eq (hl : Lock.gate ∉ s.held) (hm : s.gate.mode = .dynamic) :
    s.notifyDeviceJoined = runClosures s.gate.workQueue (s.setGate { s.gate with
      connectedCount := s.gate.connectedCount + 1, workQueue := [] }) := by
  have hr : (Lock.gate :: s.held).erase .gate = s.held :=
    erase_cons_head ..
  have hg : DispatchState.gate { s with held := .gate :: s.held } = s.gate := rfl
  simp only [notifyDeviceJoined, acquire, hl, if_false, ok_bind, hg, notifyDeviceJoined_dynamic hm,
    release, setGate, hr]

theorem flushQueue_eq (hl : Lock.gate ∉ s.held) :
    s.flushQueue = runClosures s.gate.workQueue (s.setGate { s.gate with workQueue := [] }) := by
  have hr : (Lock.gate :: s.held).erase .gate = s.held :=
    erase_cons_head ..
  have hg : DispatchState.gate { s with held := .gate :: s.held } = s.gate := rfl
  simp only [flushQueue, acquire, hl, if_false, ok_bind, hg, DispatchGate.flushQueue, release,
    setGate, hr]

/-- A registration that notifies the gate runs the queue under the tracker's mutex. -/
theorem Orderly.register_notifies (h : Orderly s) (hn : Fleet.Notifies s.tracker addr uuid now) :
    s.step (.registerDevice addr uuid now) = (do
      let s' ← runClosures s.gate.workQueue { s with
        held := [.tracker]
        fleet := ⟨(s.tracker.registerDevice addr uuid now).2,
          { s.gate with connectedCount := s.gate.connectedCount + 1, workQueue := [] }⟩ }
      return s'.release .tracker) := by
  have hg := (Fleet.registerDevice_notifies hn).1
  have ht : DispatchState.tracker { s with held := [.tracker] } = s.tracker := rfl
  have hj := notifyDeviceJoined_eq (s := { s with held := [.tracker] }.setTracker
    (s.tracker.registerDevice addr uuid now).2)
    (show Lock.gate ∉ [Lock.tracker] by decide) h.mode
  simp only [step, registerDevice, acquire_ok h.held, ok_bind, ht, hg, if_true]
  rw [hj]
  rfl

theorem Orderly.register_quiet (h : Orderly s) (hn : ¬ Fleet.Notifies s.tracker addr uuid now) :
    s.step (.registerDevice addr uuid now) = .ok { s with
      held := []
      fleet := ⟨(s.tracker.registerDevice addr uuid now).2, s.gate⟩ } := by
  have hg := (Fleet.registerDevice_quiet s.tracker hn).1
  have ht : DispatchState.tracker { s with held := [.tracker] } = s.tracker := rfl
  simp only [step, registerDevice, acquire_ok h.held, ok_bind, ht, hg, Bool.false_eq_true, if_false]
  rfl

/-- A call that meets `QueueOk` comes back, and a drain ran everything that was in the queue. -/
theorem Orderly.step (h : Orderly s) (hok : QueueOk s c) :
    ∃ s', s.step c = .ok s' ∧ Orderly s' ∧ (Drains s c → s'.executed = List.range s.enqueued) := by
  cases c with
  | dispatchMatMulAsync work =>
    obtain ⟨s', hs, ho⟩ := h.dispatch work
    exact ⟨s', hs, ho, False.elim⟩
  | registerDevice addr uuid now =>
    by_cases hn : Fleet.Notifies s.tracker addr uuid now
    · have hnil := hok hn
      have hfifo := h.fifo
      rw [h.register_notifies hn, hnil]
      rw [hnil, map_nil, append_nil] at hfifo
      refine ⟨_, rfl, ⟨rfl, h.mode, .inl rfl, h.idle, ?_⟩, fun _ => hfifo⟩
      exact (append_nil _).trans hfifo
    · rw [h.register_quiet hn]
      exact ⟨_, rfl, ⟨rfl, h.mode, h.room, h.idle, h.fifo⟩, fun hd => absurd hd hn⟩
  | disconnectDevice d now =>
    simp only [DispatchState.step, disconnectDevice, acquire_ok h.held, ok_bind]
    exact ⟨_, rfl, ⟨rfl, h.mode, h.room, h.idle, h.fifo⟩, False.elim⟩
  | purgeDevice d =>
    obtain ⟨s', hs, ho⟩ := h.purge d
    exact ⟨s', hs, ho, False.elim⟩
  | flushQueue =>
    obtain ⟨s', hs, ho, -, hex⟩ := h.flush { s.gate with workQueue := [] } s.tracker
      ⟨h.mode, rfl, rfl⟩
    exact ⟨s', (flushQueue_eq (by rw [h.held]; decide)).trans hs, ho, fun _ => hex⟩
  | wake i =>
    obtain ⟨s', hs, ho⟩ := h.wake i
    exact ⟨s', hs, ho, False.elim⟩

/-- A call that does not meet `QueueOk` locks the tracker's mutex twice. -/
theorem Orderly.step_locked (h : Orderly s) (hok : ¬ QueueOk s c) : s.step c = .error .tracker := by
  cases c with
  | registerDevice addr uuid now =>
    obtain ⟨hn, hq⟩ := not_forall.mp hok
    rw [h.register_notifies hn, runClosures_locked (mem_singleton.mpr rfl) hq]
    rfl
  | _ => exact absurd trivial hok

/-! ## Whole runs -/

/-- The discipline of a run: no thread locks a mutex that it holds, the closures run once and in the
order of their `EnqueueWork` calls, and each notification or flush runs all that were stored before
it. -/
structure Disciplined (r : Except Lock (DispatchState W)) (calls : List (Call W)) : Prop where
  unlocked : ∀ pre l, pre <+: calls → Run.exec next r pre ≠ .error l
  fifo : ∀ pre s, pre <+: calls → Run.exec next r pre = .ok s →
    s.executed ++ s.gate.workQueue.map Prod.fst = List.range s.enqueued
  drained : ∀ pre c s s', pre ++ [c] <+: calls → Run.exec next r pre = .ok s →
    Run.exec next r (pre ++ [c]) = .ok s' → Drains s c → s'.executed = List.range s.enqueued

/-- `QueueOk` in the state of a run. -/
def RunOk (r : Except Lock (DispatchState W)) (c : Call W) : Prop := ∀ s, r = .ok s → QueueOk s c

theorem exec_concat (r : Except Lock (DispatchState W)) (pre : List (Call W)) (c : Call W) :
    Run.exec next r (pre ++ [c]) = next (Run.exec next r pre) c :=
  Run.exec_append

theorem orderly_start (config : CircuitBreakerConfig) (maxQueueSize : Int) :
    Orderly (start config maxQueueSize : DispatchState W) :=
  ⟨rfl, rfl, .inl rfl, nofun, rfl⟩

/-- **The lock discipline of queued dispatches.** A run keeps it exactly when no registration that
notifies the gate finds work in the queue. -/
theorem lock_discipline_iff (config : CircuitBreakerConfig) (maxQueueSize : Int)
    (calls : List (Call W)) :
    Disciplined (.ok (start config maxQueueSize)) calls ↔
      Run.Along next RunOk (.ok (start config maxQueueSize)) calls := by
  have h₀ : ∃ s, (.ok (start config maxQueueSize) : Except Lock (DispatchState W)) = .ok s ∧
      Orderly s := ⟨_, rfl, orderly_start config maxQueueSize⟩
  have hkeep : ∀ (r : Except Lock (DispatchState W)) c, (∃ s, r = .ok s ∧ Orderly s) →
      RunOk r c → ∃ s, next r c = .ok s ∧ Orderly s := by
    rintro r c ⟨s, rfl, h⟩ hok
    obtain ⟨s', hs, h', -⟩ := h.step (hok s rfl)
    exact ⟨s', hs, h'⟩
  constructor
  · intro hd
    -- The states with a lock taken twice are not reached, so every call met the condition.
    refine (Run.always_iff_along (P := fun _ _ => True) (I := fun r => ∀ l, r ≠ .error l)
      (J := fun r => ∃ s, r = .ok s ∧ Orderly s) ?_ (fun r c hr _ => hkeep r c hr) ?_
      (.of_forall fun _ _ => trivial) h₀).mp fun pre hpre l => hd.unlocked pre l hpre
    · rintro r ⟨s, rfl, -⟩ l
      exact nofun
    · rintro r c ⟨s, rfl, h⟩ - hno t ht
      obtain rfl := Except.ok.inj ht
      by_contra hok
      exact hno _ (h.step_locked hok)
  · intro hok
    have hall := hok.always hkeep h₀
    refine ⟨fun pre l hpre he => ?_, fun pre s hpre hs => ?_, fun pre c s s' hpre hs hs' hdr => ?_⟩
    · obtain ⟨s, hs, -⟩ := hall pre hpre
      rw [hs] at he
      cases he
    · obtain ⟨s', hs', h⟩ := hall pre hpre
      obtain rfl := Except.ok.inj (hs.symm.trans hs')
      exact h.fifo
    · obtain ⟨t, ht, h⟩ := hall pre ((prefix_append ..).trans hpre)
      obtain rfl := Except.ok.inj (hs.symm.trans ht)
      have hq := Run.along_iff_forall.mp hok pre c hpre s hs
      obtain ⟨t', ht', -, hex⟩ := h.step hq
      rw [exec_concat, hs] at hs'
      obtain rfl := Except.ok.inj (hs'.symm.trans ht')
      exact hex hdr

/-- Work is queued while no device is connected; the first registration locks the tracker's mutex
and runs the queued closure, which locks it again. -/
theorem register_with_queued_work : Run.exec next (.ok (start {} 16 : DispatchState Unit))
    [.dispatchMatMulAsync (), .registerDevice "a" 0 0] = .error .tracker := by
  rfl

end DispatchState
end Morphling
