import Morphling.Gate.Barrier

/-!
# Work in the queue while devices are connected

In `DYNAMIC` mode a dispatch reads the number of connected devices under the tracker's mutex and, if
it is zero, stores its work under the gate's mutex. A registration notifies the gate, which takes
the work out of the queue.

* A step is what a call does under one mutex, so a registration may come between the two steps of a
  dispatch (`dispatching`).
* A registration that takes work out of the queue runs it under the tracker's mutex, which the work
  locks again. The call does not come back, and no other call gets the mutex (`stuck`).
* A reconnection by UUID does not notify the gate.

`served_iff`: the queue is empty while devices are connected exactly if work is stored only while
there are none, and a reconnection by UUID finds an empty queue.
-/

namespace Morphling

/-- The tracker with its gate, and the calls in progress. -/
structure GateRun (W : Type*) where
  fleet : Fleet W
  /-- Dispatches that counted no device and are about to store their work. -/
  dispatching : List W := []
  stuck : Bool := false
  /-- The work that went on to the partitions. -/
  dispatched : List W := []

namespace GateRun

variable {W : Type*} (s : GateRun W)

/-- A locked step of a call. -/
inductive Step (W : Type*) where
  /-- `DispatchMatMulAsync` reads the number of connected devices. -/
  | dispatchMatMulAsync (work : W)
  /-- A dispatch is at `EnqueueWork`. -/
  | enqueueWork (i : Nat)
  | registerDevice (connAddr : String) (uuid : Nat) (now : Int)
  | disconnectDevice (deviceId now : Int)

def connected : Nat := s.fleet.tracker.getConnectedDeviceCount

def registerDevice (connAddr : String) (uuid : Nat) (now : Int) : GateRun W :=
  let (r, t) := s.fleet.tracker.registerDevice connAddr uuid now
  if r.notifiesGate then
    let (toFlush, g) := s.fleet.gate.notifyDeviceJoined
    { s with fleet := ⟨t, g⟩, stuck := !toFlush.isEmpty }
  else { s with fleet := ⟨t, s.fleet.gate⟩ }

/-- A step that waits for a mutex or for room changes nothing. -/
def next : Step W → GateRun W
  | .dispatchMatMulAsync work =>
    if s.stuck then s
    else if s.connected = 0 then { s with dispatching := s.dispatching ++ [work] }
    else { s with dispatched := s.dispatched ++ [work] }
  | .enqueueWork i =>
    match s.dispatching[i]? with
    | none => s
    | some work =>
      match s.fleet.gate.enqueueWork work with
      | none => s
      | some g => { s with
          fleet := { s.fleet with gate := g }, dispatching := s.dispatching.eraseIdx i }
  | .registerDevice connAddr uuid now => if s.stuck then s else s.registerDevice connAddr uuid now
  | .disconnectDevice deviceId now =>
    if s.stuck then s
    else { s with fleet := { s.fleet with
        tracker := s.fleet.tracker.disconnectDevice deviceId now } }

/-- No device, and an empty queue. -/
def start (config : CircuitBreakerConfig) (maxQueueSize : Int) : GateRun W where
  fleet :=
    { tracker := { circuitBreakerConfig := config }
      gate := { mode := .dynamic, barrierCount := 0, maxQueueSize := maxQueueSize } }

/-- Where no call is in progress and a device is connected, the queue is empty. -/
def NotStranded : Prop :=
  s.dispatching = [] → s.stuck = false → 0 < s.connected → s.fleet.gate.workQueue = []

/-- The same, whatever is in progress. -/
def Served : Prop := 0 < s.connected → s.fleet.gate.workQueue = []

/-- Work is stored while no device is connected, and a reconnection by UUID that is accepted finds
an empty queue. -/
def Timely : Step W → Prop
  | .enqueueWork i =>
    i < s.dispatching.length → s.fleet.gate.workQueue.length < s.fleet.gate.maxQueueSize →
      s.connected = 0
  | .registerDevice _ uuid now =>
    ∀ d device, s.stuck = false → s.fleet.tracker.findByUuid uuid = some (d, device) →
      ¬device.Rejected s.fleet.tracker.circuitBreakerConfig now → s.fleet.gate.workQueue = []
  | _ => True

/-! ## Connected devices -/

open DevicePartitionTracker

variable {s} {t : DevicePartitionTracker} {addr : String} {uuid : Nat} {now d : Int}
  {device : DeviceLiveness}

/-- A disconnect connects no device. -/
theorem connected_disconnectDevice (h : 0 < (t.disconnectDevice d now).getConnectedDeviceCount) :
    0 < t.getConnectedDeviceCount := by
  unfold disconnectDevice at h
  split at h
  · exact h
  · rename_i device hl
    have hcount := Assoc.countP_insert_add (fun e => e.2.isConnected) t.devicesMap d
      (DeviceLiveness.countFailure t.circuitBreakerConfig { device with isConnected := false } now)
    have hoff : (DeviceLiveness.countFailure t.circuitBreakerConfig
        { device with isConnected := false } now).isConnected = false := by
      unfold DeviceLiveness.countFailure
      split
      · dsimp only
        split <;> rfl
      · rfl
    simp only [hoff, Bool.false_eq_true, if_false] at hcount
    unfold getConnectedDeviceCount at h ⊢
    dsimp only at h
    omega

/-- A reconnection by UUID connects its device. -/
theorem connected_reconnectByUuid :
    0 < (t.reconnectByUuid d device addr uuid).getConnectedDeviceCount :=
  List.countP_pos_iff.mpr ⟨⟨d, _⟩, List.mem_cons_self, rfl⟩

/-! ## Steps -/

theorem notifyDeviceJoined_queue {g : DispatchGate W} (h : g.mode = .dynamic) :
    g.notifyDeviceJoined.2.workQueue = [] ∧ g.notifyDeviceJoined.2.mode = .dynamic := by
  simp [DispatchGate.notifyDeviceJoined, h]

theorem mode_next (h : s.fleet.gate.mode = .dynamic) (e : Step W) :
    (s.next e).fleet.gate.mode = .dynamic := by
  cases e with
  | dispatchMatMulAsync work =>
    simp only [next]
    split
    · exact h
    · split <;> exact h
  | enqueueWork i =>
    simp only [next, DispatchGate.enqueueWork]
    split
    · exact h
    · split
      · exact h
      · rename_i heq
        cases (Option.ite_none_right_eq_some.mp heq).2
        exact h
  | registerDevice addr uuid now =>
    simp only [next, registerDevice]
    split
    · exact h
    · split
      · exact (notifyDeviceJoined_queue h).2
      · exact h
  | disconnectDevice d now =>
    simp only [next]
    split <;> exact h

/-- A registration, by what it does to the queue. -/
theorem served_registerDevice (h : s.Served) (hmode : s.fleet.gate.mode = .dynamic) :
    (s.registerDevice addr uuid now).Served ↔ ∀ d device,
      s.fleet.tracker.findByUuid uuid = some (d, device) →
      ¬device.Rejected s.fleet.tracker.circuitBreakerConfig now → s.fleet.gate.workQueue = [] := by
  by_cases hn : Fleet.Notifies s.fleet.tracker addr uuid now
  · -- The gate is notified, and the queue is empty afterwards.
    have hnotifies := (Fleet.registerDevice_notifies hn).1
    simp only [registerDevice, hnotifies, if_true, Served, (notifyDeviceJoined_queue hmode).1,
      implies_true, hn.1, reduceCtorEq, false_implies]
  · have hquiet := (Fleet.registerDevice_quiet s.fleet.tracker hn).1
    simp only [registerDevice, hquiet, Bool.false_eq_true, if_false]
    cases hf : s.fleet.tracker.findByUuid uuid with
    | none =>
      -- The address leads to a device in quarantine.
      simp only [Fleet.Notifies, hf, true_and, not_forall, not_not] at hn
      obtain ⟨d, device, ha, hl, hr⟩ := hn
      rw [registerDevice_addr_rejected hf ha hl hr]
      simpa using h
    | some e =>
      obtain ⟨d, device⟩ := e
      by_cases hr : device.Rejected s.fleet.tracker.circuitBreakerConfig now
      · rw [registerDevice_uuid_rejected hf hr]
        refine ⟨fun _ d' device' heq hr' => ?_, fun _ => h⟩
        cases heq
        exact absurd hr hr'
      · rw [registerDevice_uuid hf hr]
        refine ⟨fun hserved _ _ _ _ => hserved connected_reconnectByUuid, fun hq _ => ?_⟩
        exact hq d device rfl hr

/-- A step keeps the queue empty exactly if it meets the condition. -/
theorem served_next (h : s.Served) (hmode : s.fleet.gate.mode = .dynamic) (e : Step W) :
    (s.next e).Served ↔ s.Timely e := by
  cases e with
  | dispatchMatMulAsync work =>
    simp only [Timely, iff_true, next]
    split
    · exact h
    · split <;> exact h
  | enqueueWork i =>
    simp only [next, DispatchGate.enqueueWork, Timely]
    cases hi : s.dispatching[i]? with
    | none =>
      have hlen := List.getElem?_eq_none_iff.mp hi
      exact ⟨fun _ hlt => absurd hlt (Nat.not_lt_of_le hlen), fun _ => h⟩
    | some work =>
      have hlen := (List.getElem?_eq_some_iff.mp hi).1
      by_cases hroom : (s.fleet.gate.workQueue.length : Int) < s.fleet.gate.maxQueueSize
      · simp only [hroom, if_true, hlen, true_implies]
        constructor
        · intro hserved
          by_contra hconn
          exact absurd (hserved (Nat.pos_of_ne_zero hconn)) (by simp)
        · intro hconn hpos
          exact absurd hconn (Nat.ne_of_gt hpos)
      · simpa only [hroom, if_false, false_implies, implies_true, iff_true] using h
  | registerDevice addr uuid now =>
    simp only [next, Timely]
    cases hstuck : s.stuck with
    | true => simpa using h
    | false => simpa using served_registerDevice h hmode
  | disconnectDevice d now =>
    simp only [next, Timely, iff_true]
    split
    · exact h
    · exact fun hpos => h (connected_disconnectDevice hpos)

/-! ## Runs -/

/-- The queue is empty while devices are connected exactly if all steps meet the condition; then no
work is stranded. -/
theorem served_iff (config : CircuitBreakerConfig) (maxQueueSize : Int) (es : List (Step W)) :
    (Run.Always next Served (start config maxQueueSize) es ↔
      Run.Along next Timely (start config maxQueueSize) es) ∧
    (Run.Along next Timely (start config maxQueueSize) es →
      Run.Always next NotStranded (start config maxQueueSize) es) := by
  have hiff : Run.Always next Served (start config maxQueueSize) es ↔
      Run.Along next Timely (start config maxQueueSize) es :=
    Run.always_iff_along (P := fun _ _ => True)
    (J := fun s : GateRun W => s.Served ∧ s.fleet.gate.mode = .dynamic)
    (fun _ h => h.1) (fun s e h _ he => ⟨(served_next h.1 h.2 e).mpr he, mode_next h.2 e⟩)
    (fun s e h _ he => (served_next h.1 h.2 e).mp he)
    (Run.Along.of_forall fun _ _ => trivial) ⟨fun _ => rfl, rfl⟩
  exact ⟨hiff, fun h => Run.Always.mono (fun _ hs _ _ => hs) (hiff.mpr h)⟩

/-- A device with a UUID leaves, work is queued, and the device comes back. -/
def reconnected : List (Step Unit) :=
  [.registerDevice "a" 7 0, .disconnectDevice 0 0, .dispatchMatMulAsync (), .enqueueWork 0,
    .registerDevice "b" 7 0]

/-- A device registers between the two steps of a dispatch. -/
def overtaken : List (Step Unit) :=
  [.dispatchMatMulAsync (), .registerDevice "a" 0 0, .enqueueWork 0]

theorem reconnected_stranded : ¬Run.Always next NotStranded (start {} 16) reconnected ∧
    ¬Run.Always next NotStranded (start {} 16) overtaken := by
  refine ⟨fun h => ?_, fun h => ?_⟩
  · exact absurd (h.last rfl rfl (by decide)) (by decide)
  · exact absurd (h.last rfl rfl (by decide)) (by decide)

end GateRun
end Morphling
