import Mathlib.Data.List.Sort
import Morphling.Lib.Run

/-!
# The timers of an event loop (`network/timer_queue_uevent.cpp`)

All of it runs on the thread of the loop. `TimerfdReadCb` takes the expired timers out of both sets,
calls their callbacks and puts the periodic ones back. Callbacks may add and cancel timers, so a
step is `AddTimer`, `Cancel`, the start of `TimerfdReadCb`, the next turn of its loop, or its end.

* `Timer.address`: where the timer is in memory; it only orders timers that expire at the same time.
* The timerfd is armed, readable, or neither. `timerfd_settime` arms it, a read disarms it.
* `ids`, `started`, `cancelled`, `deleted` and `batch` are not in the source: the timers of this
  queue, the callbacks that were called, the calls of `Cancel` and of `delete`, and the number of
  calls of `TimerfdReadCb`.
* `Contract`: what the queue promises.
-/

namespace Morphling.Network

/-- `Timestamp::valid`; times are in microseconds since the epoch. -/
def valid (time : Int) : Bool := 0 < time

/-- `Timer`. -/
structure Timer where
  expiration : Int
  /-- The interval of a periodic timer. -/
  interval : Option Nat
  sequence : Nat
  address : Nat
  deriving DecidableEq

namespace Timer

def repeats (t : Timer) : Bool := t.interval.isSome

/-- `Restart`; zero is `Timestamp::invalid()`. -/
def restart (t : Timer) (now : Int) : Timer :=
  match t.interval with
  | some interval => { t with expiration := now + interval }
  | none => { t with expiration := 0 }

/-- The order of `timers_`, of pairs of an expiration and a pointer. -/
def Before (t u : Timer) : Prop :=
  t.expiration < u.expiration ∨ (t.expiration = u.expiration ∧ t.address ≤ u.address)

instance : DecidableRel Before := fun _ _ => inferInstanceAs (Decidable (_ ∨ _))

end Timer

/-- A callback that was called. -/
structure TimerStart where
  timer : Timer
  /-- The time that the batch took for now. -/
  now : Int
  batch : Nat
  /-- Whether the timer had been cancelled. -/
  cancelled : Bool
  deriving DecidableEq

/-- `TimerQueueUevent`. -/
structure TimerQueue where
  timers : List Timer := []
  activeTimers : List (Nat × Timer) := []
  callingExpiredTimers : Bool := false
  cancelingTimers : List Nat := []
  /-- `Timer::created_num_`. -/
  createdNum : Nat := 0
  armed : Bool := false
  readable : Bool := false
  /-- The vector of `TimerfdReadCb`, and how far its loop is. -/
  expired : List Timer := []
  position : Nat := 0
  /-- The last time that `TimerfdReadCb` took for now. -/
  now : Int := 0
  ids : List Nat := []
  started : List TimerStart := []
  cancelled : List Nat := []
  deleted : List Nat := []
  batch : Nat := 0

inductive TimerEvent where
  /-- `AddTimer`; the allocator chooses the address. -/
  | addTimer (when' : Int) (interval : Option Nat) (address : Nat)
  /-- `Cancel`. -/
  | cancel (sequence : Nat)
  /-- Another loop makes a timer. -/
  | createElsewhere
  /-- The timerfd expires. -/
  | fire
  /-- `TimerfdReadCb` begins. The timerfd was readable, but may have been set again since. -/
  | readCb (now : Int)
  /-- The next turn of the loop of `TimerfdReadCb`, or its end. -/
  | next

namespace TimerQueue

variable (s : TimerQueue)

/-- `ResetTimerfd`. -/
def resetTimerfd : TimerQueue := { s with armed := true, readable := false }

/-- `Insert`, without its result. -/
def insert (t : Timer) : TimerQueue :=
  { s with
    timers := s.timers.orderedInsert Timer.Before t
    activeTimers := (t.sequence, t) :: s.activeTimers }

/-- The result of `Insert`. -/
def earliestChanged (t : Timer) : Bool :=
  match s.timers with
  | [] => true
  | u :: _ => t.expiration < u.expiration

def addTimerInLoop (t : Timer) : TimerQueue :=
  if s.earliestChanged t then (s.insert t).resetTimerfd else s.insert t

/-- `AddTimer` on the thread of the loop. -/
def addTimer (when' : Int) (interval : Option Nat) (address : Nat) : TimerQueue :=
  { s with createdNum := s.createdNum + 1, ids := s.createdNum :: s.ids }.addTimerInLoop
    { expiration := when', interval := interval, sequence := s.createdNum, address := address }

def cancelInLoop (sequence : Nat) : TimerQueue :=
  match s.activeTimers.find? (·.1 = sequence) with
  | some (_, t) =>
    { s with
      timers := s.timers.erase t
      activeTimers := s.activeTimers.filter (·.1 ≠ sequence)
      deleted := t.sequence :: s.deleted
      cancelled := sequence :: s.cancelled }
  | none =>
    { s with
      cancelingTimers :=
        if s.callingExpiredTimers then sequence :: s.cancelingTimers else s.cancelingTimers
      cancelled := sequence :: s.cancelled }

/-- `GetExpired`: the timers up to `now`, with the greatest address. -/
def getExpired (now : Int) : TimerQueue :=
  let expired := s.timers.takeWhile (·.expiration ≤ now)
  { s with
    expired := expired
    timers := s.timers.dropWhile (·.expiration ≤ now)
    activeTimers := s.activeTimers.filter fun p => p.1 ∉ expired.map Timer.sequence }

/-- `TimerfdReadCb` up to its loop. -/
def timerfdReadCb (now : Int) : TimerQueue :=
  { { s with readable := false, now := now, batch := s.batch + 1 }.getExpired now with
    callingExpiredTimers := true
    cancelingTimers := []
    position := 0 }

/-- A turn of the loop of `Reset`. -/
def resetOne (now : Int) (s : TimerQueue) (t : Timer) : TimerQueue :=
  if t.repeats ∧ t.sequence ∉ s.cancelingTimers then s.insert (t.restart now)
  else { s with deleted := t.sequence :: s.deleted }

/-- `Reset`. -/
def reset (expired : List Timer) (now : Int) : TimerQueue :=
  let s := expired.foldl (resetOne now) s
  match s.timers with
  | [] => s
  | t :: _ => if valid t.expiration then s.resetTimerfd else s

/-- A turn of the loop of `TimerfdReadCb`, for the timer `t`. -/
def runTimer (t : Timer) : TimerQueue :=
  if t.sequence ∈ s.cancelingTimers then { s with position := s.position + 1 }
  else
    { s with
      position := s.position + 1
      started := s.started ++ [⟨t, s.now, s.batch, decide (t.sequence ∈ s.cancelled)⟩] }

/-- A step. An event that cannot happen changes nothing. -/
def next : TimerEvent → TimerQueue
  | .addTimer when' interval address => s.addTimer when' interval address
  | .cancel sequence => s.cancelInLoop sequence
  | .createElsewhere => { s with createdNum := s.createdNum + 1 }
  | .fire => if s.armed then { s with armed := false, readable := true } else s
  | .readCb now => if s.callingExpiredTimers then s else s.timerfdReadCb now
  | .next =>
    if s.callingExpiredTimers then
      match s.expired[s.position]? with
      | some t => s.runTimer t
      | none => { s with callingExpiredTimers := false, expired := [] }.reset s.expired s.now
    else s

/-- The timers that are deleted once `~TimerQueueUevent` is done. -/
def destroyed : List Nat := s.deleted ++ s.timers.map Timer.sequence

/-- The clock shows valid times, and timers of this queue are cancelled. -/
def Enabled : TimerEvent → Prop
  | .cancel sequence => sequence ∈ s.ids
  | .readCb now => valid now = true
  | _ => True

instance : ∀ e, Decidable (s.Enabled e)
  | .cancel sequence => inferInstanceAs (Decidable (sequence ∈ s.ids))
  | .readCb now => inferInstanceAs (Decidable (valid now = true))
  | .addTimer .. | .createElsewhere | .fire | .next => .isTrue trivial

/-- The contract of the queue. -/
structure Contract : Prop where
  /-- Both sets hold the same timers. -/
  same : s.activeTimers.Perm (s.timers.map fun t => (t.sequence, t))
  /-- A timer that starts twice is periodic, and does so in different batches. -/
  once : s.started.Pairwise fun a b => a.timer.sequence = b.timer.sequence →
    (a.timer.repeats = true ∧ b.timer.repeats = true) ∧ a.batch ≠ b.batch
  /-- No timer starts before it expires, or after it was cancelled. -/
  due : ∀ x ∈ s.started, x.timer.expiration ≤ x.now ∧ x.cancelled = false
  /-- Each timer is in a set, in the batch, or was deleted, and was deleted once. -/
  deleted : (s.deleted ++ (s.expired ++ s.timers).map Timer.sequence).Perm s.ids ∧ s.ids.Nodup
  destroyed : s.callingExpiredTimers = false → s.destroyed.Perm s.ids
  /-- No timer is forgotten. -/
  armed : s.callingExpiredTimers = false → s.timers ≠ [] → s.armed = true ∨ s.readable = true

end TimerQueue
end Morphling.Network
