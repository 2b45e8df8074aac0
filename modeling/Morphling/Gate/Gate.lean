import Morphling.Tracker.Device

/-!
# The dispatch gate (`dispatch_gate.cpp`)

The gate holds dispatches back: in `BARRIER` mode until `barrier_count` devices joined, in `DYNAMIC`
mode it queues work while no device is connected. `DevicePartitionTracker` tells it about devices
that join and leave.

Each operation is one critical section of the gate's mutex and one function of the state; what runs
after the section (the closures of the queue) is in its result. `EnqueueWork` on a full queue
blocks, which is `none`. The timeout of `WaitForReady` is left out: with it the call returns `false`
without a change of the state.
-/

namespace Morphling

/-- `DeviceMode`. -/
inductive DeviceMode where
  | barrier
  | dynamic
  deriving DecidableEq, Repr

/-- `DispatchGate`, with work of type `W` in its queue. -/
structure DispatchGate (W : Type*) where
  mode : DeviceMode
  barrierCount : Int
  maxQueueSize : Int
  barrierMet : Bool := false
  connectedCount : Int := 0
  workQueue : List W := []

namespace DispatchGate

variable {W : Type*} (g : DispatchGate W)

/-- `NotifyDeviceJoined`: the closures that it runs after the critical section. -/
def notifyDeviceJoined : List W × DispatchGate W :=
  let g := { g with connectedCount := g.connectedCount + 1 }
  let g := if g.mode = .barrier ∧ g.barrierMet = false ∧ g.barrierCount ≤ g.connectedCount then
    { g with barrierMet := true } else g
  if g.mode = .dynamic then (g.workQueue, { g with workQueue := [] }) else ([], g)

def notifyDeviceLeft : DispatchGate W :=
  if g.connectedCount > 0 then { g with connectedCount := g.connectedCount - 1 } else g

/-- `EnqueueWork`: `none` where it waits for room. -/
def enqueueWork (dispatchFn : W) : Option (DispatchGate W) :=
  if (g.workQueue.length : Int) < g.maxQueueSize then
    some { g with workQueue := g.workQueue ++ [dispatchFn] }
  else none

/-- `FlushQueue`: the closures that it runs after the critical section. -/
def flushQueue : List W × DispatchGate W := (g.workQueue, { g with workQueue := [] })

end DispatchGate

/-- The device tracker with its gate. -/
structure Fleet (W : Type*) where
  tracker : DevicePartitionTracker := {}
  gate : DispatchGate W

end Morphling
