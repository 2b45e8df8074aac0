import Mathlib.Data.Rat.Floor
import Morphling.Lib.Run

/-!
# The virtual clock (`timer/virtual_clock.cpp`)

Virtual time is the system time since `start_system_time_us_`, scaled, after
`start_virtual_time_us_`; while the clock is paused it is `pause_virtual_time_us_`. A call takes the
mutex for its whole body, so it is one step, with the system time that it reads.

* `withLock`: a call that takes the mutex while it holds it does not return.
* The scale is a rational, and a scaled time is rounded down. Times are `uint64_t` and wrap around;
  `pause_virtual_time_us_` is an `int64_t` in the source, with the same bits.
* `Lawful`: what a call may do to the virtual time. `laws_of_tracked`: runs in which `Advance` is
  only called where `virtual_time_us_` is the virtual time less the step, and `GetElapsedTime` is
  not called, are lawful; no other runs are.
-/

namespace Morphling.Timer

/-- `VirtualClock`. -/
structure VirtualClock where
  virtualTimeUs : UInt64 := 0
  startVirtualTimeUs : UInt64 := 0
  startSystemTimeUs : UInt64 := 0
  timeScaleFactor : ℚ := 1
  isPaused : Bool := false
  pauseVirtualTimeUs : UInt64 := 0
  /-- The mutex is held. -/
  locked : Bool := false

/-- The calls of a clock. -/
inductive ClockOp where
  | initializeClock
  | reset (initialTimeUs : UInt64)
  | pause
  | resume
  | setTimeScale (scale : ℚ)
  | getTimeScale
  | advance (deltaUs : UInt64)
  | getCurrentTime
  | isPaused
  | getElapsedTime

/-- A scaled time, rounded down. -/
def scaled (elapsedUs : UInt64) (scale : ℚ) : Nat := ⌊(elapsedUs.toNat : ℚ) * scale⌋₊

namespace VirtualClock

variable (now : UInt64)

/-- `std::lock_guard<std::mutex> lock(mutex_)` around a body. -/
def withLock {α : Type*} (body : VirtualClock → Option (α × VirtualClock)) (s : VirtualClock) :
    Option (α × VirtualClock) :=
  if s.locked then none
  else (body { s with locked := true }).map fun r => (r.1, { r.2 with locked := false })

/-- `elapsed_virtual_time_us`. -/
def elapsedVirtualTimeUs (s : VirtualClock) : UInt64 :=
  UInt64.ofNat (scaled (now - s.startSystemTimeUs) s.timeScaleFactor)

/-- `Initialize`. -/
def initializeClock : VirtualClock → Option (Unit × VirtualClock) := withLock fun s =>
  some ((), { s with
    startSystemTimeUs := now
    startVirtualTimeUs := 0
    virtualTimeUs := 0
    timeScaleFactor := 1
    isPaused := false })

/-- The body of `GetCurrentTime`. -/
def currentTime (s : VirtualClock) : UInt64 :=
  if s.isPaused then s.pauseVirtualTimeUs else s.startVirtualTimeUs + s.elapsedVirtualTimeUs now

def getCurrentTime : VirtualClock → Option (UInt64 × VirtualClock) := withLock fun s =>
  some (s.currentTime now, s)

def advance (deltaUs : UInt64) : VirtualClock → Option (Unit × VirtualClock) := withLock fun s =>
  if s.isPaused then some ((), { s with pauseVirtualTimeUs := s.pauseVirtualTimeUs + deltaUs })
  else
    let virtualTimeUs := s.virtualTimeUs + deltaUs
    some ((), { s with
      virtualTimeUs := virtualTimeUs
      startVirtualTimeUs := virtualTimeUs + deltaUs - s.elapsedVirtualTimeUs now })

def setTimeScale (scale : ℚ) : VirtualClock → Option (Unit × VirtualClock) := withLock fun s =>
  if scale < 0 then some ((), s)
  else some ((), { s with
    timeScaleFactor := scale
    startSystemTimeUs := now
    startVirtualTimeUs := s.startVirtualTimeUs + s.elapsedVirtualTimeUs now })

def getTimeScale : VirtualClock → Option (ℚ × VirtualClock) := withLock fun s =>
  some (s.timeScaleFactor, s)

def pause : VirtualClock → Option (Unit × VirtualClock) := withLock fun s =>
  if s.isPaused then some ((), s)
  else some ((), { s with
    pauseVirtualTimeUs := s.startVirtualTimeUs + s.elapsedVirtualTimeUs now
    isPaused := true })

def resume : VirtualClock → Option (Unit × VirtualClock) := withLock fun s =>
  if s.isPaused then
    some ((), { s with
      isPaused := false
      startSystemTimeUs := now
      startVirtualTimeUs := s.pauseVirtualTimeUs })
  else some ((), s)

def getIsPaused : VirtualClock → Option (Bool × VirtualClock) := withLock fun s =>
  some (s.isPaused, s)

def reset (initialTimeUs : UInt64) : VirtualClock → Option (Unit × VirtualClock) :=
  withLock fun s => some ((), { s with
    startSystemTimeUs := now
    startVirtualTimeUs := initialTimeUs
    virtualTimeUs := initialTimeUs
    timeScaleFactor := 1
    isPaused := false
    pauseVirtualTimeUs := 0 })

/-- `GetElapsedTime` calls `GetCurrentTime` under the lock. -/
def getElapsedTime : VirtualClock → Option (UInt64 × VirtualClock) := withLock fun s => do
  let (currentTime, s) ← s.getCurrentTime now
  some (if s.startVirtualTimeUs ≤ currentTime then currentTime - s.startVirtualTimeUs else 0, s)

/-- The clock after a call that returns. -/
def call (s : VirtualClock) : ClockOp → Option VirtualClock
  | .initializeClock => (s.initializeClock now).map Prod.snd
  | .reset initialTimeUs => (s.reset now initialTimeUs).map Prod.snd
  | .pause => (s.pause now).map Prod.snd
  | .resume => (s.resume now).map Prod.snd
  | .setTimeScale scale => (s.setTimeScale now scale).map Prod.snd
  | .getTimeScale => s.getTimeScale.map Prod.snd
  | .advance deltaUs => (s.advance now deltaUs).map Prod.snd
  | .getCurrentTime => (s.getCurrentTime now).map Prod.snd
  | .isPaused => s.getIsPaused.map Prod.snd
  | .getElapsedTime => (s.getElapsedTime now).map Prod.snd

end VirtualClock

/-- A clock in use. -/
structure Timeline where
  clock : VirtualClock := {}
  /-- The system time of the last call. -/
  last : UInt64 := 0
  /-- What `GetCurrentTime` returned since the last `Initialize` or `Reset`. -/
  reads : List UInt64 := []

namespace Timeline

variable (s : Timeline)

/-- A call `op` at the system time `now`. A call that does not return keeps the mutex. -/
def next (e : UInt64 × ClockOp) : Timeline :=
  match s.clock.call e.1 e.2 with
  | none => { s with clock := { s.clock with locked := true }, last := e.1 }
  | some clock =>
    { clock := clock
      last := e.1
      reads := match e.2 with
        | .initializeClock | .reset _ => []
        | .getCurrentTime => s.reads ++ ((s.clock.getCurrentTime e.1).map Prod.fst).toList
        | _ => s.reads }

/-- System time does not go back. -/
def Timely (e : UInt64 × ClockOp) : Prop := s.last ≤ e.1

/-- What a call does to the virtual time, from `old` to `new`. -/
def Keeps (old new : UInt64) : ClockOp → Prop
  | .initializeClock | .reset _ => True
  | .advance deltaUs => new.toNat = old.toNat + deltaUs.toNat
  | _ => new = old

/-- The laws of a call, and of the time since the one before it. -/
structure Lawful (e : UInt64 × ClockOp) : Prop where
  passes : s.clock.currentTime s.last ≤ s.clock.currentTime e.1
  paused : s.clock.isPaused = true → s.clock.currentTime e.1 = s.clock.currentTime s.last
  /-- The mutex is free whenever the call takes it. -/
  returns : ∃ clock, s.clock.call e.1 e.2 = some clock
  keeps : ∀ clock, s.clock.call e.1 e.2 = some clock →
    Keeps (s.clock.currentTime e.1) (clock.currentTime e.1) e.2

/-- `virtual_time_us_` is the virtual time less the step, and `GetElapsedTime` is not called. -/
def Tracked (e : UInt64 × ClockOp) : Prop :=
  match e.2 with
  | .getElapsedTime => False
  | .advance deltaUs => s.clock.isPaused = false →
    s.clock.virtualTimeUs + deltaUs = s.clock.currentTime e.1
  | _ => True

/-- The virtual time that passes since the last call. -/
def passed (now : UInt64) : Nat :=
  scaled (now - s.clock.startSystemTimeUs) s.clock.timeScaleFactor -
    scaled (s.last - s.clock.startSystemTimeUs) s.clock.timeScaleFactor

/-- Virtual time stays below `2 ^ 64`. -/
def Fits (e : UInt64 × ClockOp) : Prop :=
  (s.clock.isPaused = false →
    (s.clock.currentTime s.last).toNat + s.passed e.1 < 2 ^ 64) ∧
  match e.2 with
  | .advance deltaUs => (s.clock.currentTime e.1).toNat + deltaUs.toNat < 2 ^ 64
  | _ => True

end Timeline

/-! ## One call -/

namespace VirtualClock

variable {s clock : VirtualClock} {now then' : UInt64} {op : ClockOp}

theorem scaled_zero (scale : ℚ) : scaled 0 scale = 0 := by simp [scaled]

theorem elapsedVirtualTimeUs_self (h : s.startSystemTimeUs = now) :
    s.elapsedVirtualTimeUs now = 0 := by
  simp [elapsedVirtualTimeUs, h, scaled_zero]

theorem withLock_of_locked {α : Type*} {body : VirtualClock → Option (α × VirtualClock)}
    (h : s.locked = true) : withLock body s = none := by
  simp [withLock, h]

/-- A call of `GetElapsedTime` never returns. -/
theorem getElapsedTime_eq_none : s.getElapsedTime now = none := by
  cases h : s.locked
  · simp [getElapsedTime, getCurrentTime, withLock, h]
  · exact withLock_of_locked h

/-- The virtual time after a call, from the clock before it. -/
def timeAfter (s : VirtualClock) (now : UInt64) : ClockOp → UInt64
  | .initializeClock => 0
  | .reset initialTimeUs => initialTimeUs
  | .advance deltaUs =>
    if s.isPaused then s.currentTime now + deltaUs else s.virtualTimeUs + deltaUs + deltaUs
  | _ => s.currentTime now

/-- What a call that returns leaves behind. -/
structure Returned (s : VirtualClock) (now : UInt64) (op : ClockOp) (clock : VirtualClock) :
    Prop where
  free : clock.locked = false
  scale : 0 ≤ s.timeScaleFactor → 0 ≤ clock.timeScaleFactor
  start : s.startSystemTimeUs ≤ now → clock.startSystemTimeUs ≤ now
  time : clock.currentTime now = s.timeAfter now op

/-- A clock whose base is the present. -/
theorem currentTime_of_start (hstart : s.startSystemTimeUs = now) (hrun : s.isPaused = false) :
    s.currentTime now = s.startVirtualTimeUs := by
  rw [currentTime, hrun, elapsedVirtualTimeUs_self hstart]
  simp

/-- A call whose body does not take the mutex again. -/
theorem withLock_snd {α : Type*} {body : VirtualClock → Option (α × VirtualClock)} {a : α}
    (hfree : s.locked = false) (hbody : body { s with locked := true } = some (a, clock)) :
    (withLock body s).map Prod.snd = some { clock with locked := false } := by
  simp [withLock, hfree, hbody]

theorem Returned.of_same (s : VirtualClock) (hop : s.timeAfter now op = s.currentTime now) :
    Returned s now op { s with locked := false } :=
  ⟨rfl, id, id, hop.symm⟩

theorem Returned.of_start (hfree : clock.locked = false) (hstart : clock.startSystemTimeUs = now)
    (hscale : 0 ≤ s.timeScaleFactor → 0 ≤ clock.timeScaleFactor)
    (htime : clock.currentTime now = s.timeAfter now op) : Returned s now op clock :=
  ⟨hfree, hscale, fun _ => hstart ▸ UInt64.le_refl _, htime⟩

theorem call_spec (now : UInt64) (hfree : s.locked = false) (hop : op ≠ .getElapsedTime) :
    ∃ clock, s.call now op = some clock ∧ Returned s now op clock := by
  cases op with
  | initializeClock =>
    exact ⟨_, withLock_snd hfree rfl,
      .of_start rfl rfl (fun _ => zero_le_one) (currentTime_of_start rfl rfl)⟩
  | reset initialTimeUs =>
    exact ⟨_, withLock_snd hfree rfl,
      .of_start rfl rfl (fun _ => zero_le_one) (currentTime_of_start rfl rfl)⟩
  | pause =>
    cases hp : s.isPaused
    · refine ⟨_, withLock_snd hfree (if_neg (by simp [hp])), rfl, id, id, ?_⟩
      simp [currentTime, timeAfter, hp, elapsedVirtualTimeUs]
    · exact ⟨_, withLock_snd hfree (if_pos hp), .of_same s rfl⟩
  | resume =>
    cases hp : s.isPaused
    · exact ⟨_, withLock_snd hfree (if_neg (by simp [hp])), .of_same s rfl⟩
    · refine ⟨_, withLock_snd hfree (if_pos hp), .of_start rfl rfl id ?_⟩
      refine Eq.trans (currentTime_of_start rfl rfl) ?_
      simp [timeAfter, currentTime, hp]
  | setTimeScale scale =>
    by_cases hs : scale < 0
    · exact ⟨_, withLock_snd hfree (if_pos hs), .of_same s rfl⟩
    · refine ⟨_, withLock_snd hfree (if_neg hs), .of_start rfl rfl (fun _ => not_lt.mp hs) ?_⟩
      cases hp : s.isPaused
      · refine Eq.trans (currentTime_of_start rfl rfl) ?_
        simp [timeAfter, currentTime, hp, elapsedVirtualTimeUs]
      · simp [timeAfter, currentTime, hp]
  | getTimeScale => exact ⟨_, withLock_snd hfree rfl, .of_same s rfl⟩
  | advance deltaUs =>
    cases hp : s.isPaused
    · refine ⟨_, withLock_snd hfree (if_neg (by simp [hp])), rfl, id, id, ?_⟩
      simp only [currentTime, timeAfter, hp, elapsedVirtualTimeUs, Bool.false_eq_true, if_false]
      grind
    · refine ⟨_, withLock_snd hfree (if_pos hp), rfl, id, id, ?_⟩
      simp [currentTime, timeAfter, hp]
  | getCurrentTime => exact ⟨_, withLock_snd hfree rfl, .of_same s rfl⟩
  | isPaused => exact ⟨_, withLock_snd hfree rfl, .of_same s rfl⟩
  | getElapsedTime => exact absurd rfl hop

/-! ## Time that passes -/

theorem toNat_elapsed (h : s.startSystemTimeUs ≤ now) :
    (now - s.startSystemTimeUs).toNat = now.toNat - s.startSystemTimeUs.toNat := by
  rw [UInt64.le_iff_toNat_le] at h
  have := now.toNat_lt
  rw [UInt64.toNat_sub]
  omega

theorem scaled_mono (hscale : 0 ≤ s.timeScaleFactor) (hstart : s.startSystemTimeUs ≤ then')
    (hle : then' ≤ now) : scaled (then' - s.startSystemTimeUs) s.timeScaleFactor ≤
      scaled (now - s.startSystemTimeUs) s.timeScaleFactor := by
  refine Nat.floor_mono (mul_le_mul_of_nonneg_right ?_ hscale)
  rw [toNat_elapsed hstart, toNat_elapsed (UInt64.le_trans hstart hle)]
  rw [UInt64.le_iff_toNat_le] at hle
  exact_mod_cast Nat.sub_le_sub_right hle _

/-- Virtual time goes on by the scaled time, if it does not wrap around. -/
theorem toNat_currentTime (hrun : s.isPaused = false) (hscale : 0 ≤ s.timeScaleFactor)
    (hstart : s.startSystemTimeUs ≤ then') (hle : then' ≤ now) :
    (s.currentTime now).toNat = ((s.currentTime then').toNat +
      (scaled (now - s.startSystemTimeUs) s.timeScaleFactor -
        scaled (then' - s.startSystemTimeUs) s.timeScaleFactor)) % 2 ^ 64 := by
  have hmono := scaled_mono hscale hstart hle
  simp only [currentTime, hrun, elapsedVirtualTimeUs, Bool.false_eq_true, if_false,
    UInt64.toNat_add, UInt64.toNat_ofNat']
  omega

theorem currentTime_paused (hp : s.isPaused = true) : s.currentTime now = s.pauseVirtualTimeUs := by
  simp [currentTime, hp]

theorem free_of_call (h : s.call now op = some clock) : s.locked = false := by
  by_contra hlocked
  rw [Bool.not_eq_false] at hlocked
  cases op <;> simp [call, initializeClock, reset, pause, resume, setTimeScale, getTimeScale,
    advance, getCurrentTime, getIsPaused, getElapsedTime, withLock_of_locked hlocked] at h

theorem ne_getElapsedTime_of_call (h : s.call now op = some clock) : op ≠ .getElapsedTime := by
  rintro rfl
  simp [call, getElapsedTime_eq_none] at h

/-- A call that returns. -/
theorem returned_of_call (h : s.call now op = some clock) : Returned s now op clock := by
  obtain ⟨clock', hcall, hreturned⟩ :=
    call_spec now (free_of_call h) (ne_getElapsedTime_of_call h)
  rw [h, Option.some.injEq] at hcall
  exact hcall ▸ hreturned

end VirtualClock

/-! ## Runs -/

namespace Timeline

open VirtualClock

variable {s : Timeline} {e : UInt64 × ClockOp}

structure Inv (s : Timeline) : Prop where
  free : s.clock.locked = false
  scale : 0 ≤ s.clock.timeScaleFactor
  start : s.clock.startSystemTimeUs ≤ s.last
  sorted : s.reads.Pairwise (· ≤ ·)
  reads_le : ∀ r ∈ s.reads, r ≤ s.clock.currentTime s.last

theorem Inv.passes (h : s.Inv) (htimely : s.Timely e) (hfits : s.Fits e) :
    s.clock.currentTime s.last ≤ s.clock.currentTime e.1 := by
  cases hp : s.clock.isPaused
  · rw [UInt64.le_iff_toNat_le, toNat_currentTime hp h.scale h.start htimely]
    have hlt := hfits.1 hp
    rw [passed] at hlt
    rw [Nat.mod_eq_of_lt hlt]
    exact Nat.le_add_right _ _
  · rw [currentTime_paused hp, currentTime_paused hp]
    exact UInt64.le_refl _

theorem toNat_add_of_lt {a b : UInt64} (h : a.toNat + b.toNat < 2 ^ 64) :
    (a + b).toNat = a.toNat + b.toNat := by
  rw [UInt64.toNat_add, Nat.mod_eq_of_lt h]

theorem Inv.lawful (h : s.Inv) (htimely : s.Timely e) (htracked : s.Tracked e)
    (hfits : s.Fits e) : s.Lawful e := by
  obtain ⟨now, op⟩ := e
  have hop : op ≠ .getElapsedTime := by
    rintro rfl
    exact htracked
  obtain ⟨clock, hcall, -⟩ := call_spec now h.free hop
  refine ⟨h.passes htimely hfits, fun hp => ?_, ⟨clock, hcall⟩, fun clock hcall => ?_⟩
  · rw [currentTime_paused hp, currentTime_paused hp]
  · have htime := (returned_of_call hcall).time
    cases op with
    | initializeClock => trivial
    | reset initialTimeUs => trivial
    | advance deltaUs =>
      -- running, `virtual_time_us_` has not followed the time unless it is tracked
      have hsum : clock.currentTime now = s.clock.currentTime now + deltaUs := by
        rw [htime, timeAfter]
        cases hp : s.clock.isPaused
        · rw [← htracked hp]
          rfl
        · rfl
      rw [Keeps, hsum, toNat_add_of_lt hfits.2]
    | _ => exact htime

/-- A lawful call but `Initialize` and `Reset` does not take the time back. -/
theorem Keeps.le {old new : UInt64} {op : ClockOp} (h : Keeps old new op)
    (hinit : op ≠ .initializeClock) (hreset : ∀ t, op ≠ .reset t) : old ≤ new := by
  cases op with
  | initializeClock => exact absurd rfl hinit
  | reset t => exact absurd rfl (hreset t)
  | advance deltaUs =>
    rw [UInt64.le_iff_toNat_le, show new.toNat = old.toNat + deltaUs.toNat from h]
    exact Nat.le_add_right _ _
  | _ => exact UInt64.le_of_eq (Eq.symm h)

/-- The reads after a call. -/
theorem next_reads {clock : VirtualClock} (hcall : s.clock.call e.1 e.2 = some clock) :
    (s.next e).reads = [] ∨
      ((s.next e).reads = s.reads ∨ (s.next e).reads = s.reads ++ [s.clock.currentTime e.1]) ∧
        e.2 ≠ .initializeClock ∧ ∀ t, e.2 ≠ .reset t := by
  obtain ⟨now, op⟩ := e
  simp only [next, hcall]
  cases op with
  | initializeClock => exact .inl rfl
  | reset t => exact .inl rfl
  | getCurrentTime =>
    refine .inr ⟨.inr ?_, by simp⟩
    simp [VirtualClock.getCurrentTime, withLock, free_of_call hcall, currentTime,
      elapsedVirtualTimeUs]
  | _ => exact .inr ⟨.inl rfl, by simp⟩

/-- A lawful call keeps what is known about the clock. -/
theorem Inv.step (h : s.Inv) (htimely : s.Timely e) (hlawful : s.Lawful e) : (s.next e).Inv := by
  obtain ⟨clock, hcall⟩ := hlawful.returns
  have hreturned := returned_of_call hcall
  have hkeeps := hlawful.keeps clock hcall
  have hle : ∀ r ∈ s.reads, r ≤ s.clock.currentTime e.1 :=
    fun r hr => UInt64.le_trans (h.reads_le r hr) hlawful.passes
  have hclock : (s.next e).clock = clock := by simp only [next, hcall]
  have hlast : (s.next e).last = e.1 := by simp only [next, hcall]
  have hreads := next_reads hcall
  refine ⟨hclock ▸ hreturned.free, hclock ▸ hreturned.scale h.scale, ?_, ?_, ?_⟩
  · rw [hclock, hlast]
    exact hreturned.start (UInt64.le_trans h.start htimely)
  · rcases hreads with hnil | ⟨hsame | hread, -⟩
    · rw [hnil]
      exact .nil
    · rw [hsame]
      exact h.sorted
    · rw [hread]
      exact List.pairwise_append.mpr ⟨h.sorted, List.pairwise_singleton _ _, by simpa using hle⟩
  · rw [hclock, hlast]
    rcases hreads with hnil | ⟨hsame | hread, hinit, hreset⟩
    · simp [hnil]
    · rw [hsame]
      exact fun r hr => UInt64.le_trans (hle r hr) (hkeeps.le hinit hreset)
    · rw [hread]
      intro r hr
      refine UInt64.le_trans ?_ (hkeeps.le hinit hreset)
      rcases List.mem_append.mp hr with hr | hr
      · exact hle r hr
      · exact UInt64.le_of_eq (List.mem_singleton.mp hr)

theorem Lawful.tracked (h : s.Lawful e) : s.Tracked e := by
  obtain ⟨now, op⟩ := e
  obtain ⟨clock, hcall⟩ := h.returns
  have htime := (returned_of_call hcall).time
  have hkeeps := h.keeps clock hcall
  cases op with
  | getElapsedTime => exact ne_getElapsedTime_of_call hcall rfl
  | advance deltaUs =>
    intro hp
    have hsum : clock.currentTime now = s.clock.virtualTimeUs + deltaUs + deltaUs := by
      simpa [timeAfter, hp] using htime
    have hnew : clock.currentTime now = s.clock.currentTime now + deltaUs := by
      rw [← UInt64.toNat_inj, UInt64.toNat_add, ← show _ = _ from hkeeps]
      exact (Nat.mod_eq_of_lt (UInt64.toNat_lt _)).symm
    rw [hsum] at hnew
    show s.clock.virtualTimeUs + deltaUs = s.clock.currentTime now
    grind
  | _ => trivial

/-- The laws of the clock, along a run: those of every call, and that what `GetCurrentTime` returns
does not decrease between calls of `Initialize` and `Reset`. -/
def Laws (es : List (UInt64 × ClockOp)) : Prop :=
  Run.Along next Lawful {} es ∧ Run.Always next (fun s => s.reads.Pairwise (· ≤ ·)) {} es

theorem Inv.new : Inv {} := ⟨rfl, zero_le_one, UInt64.le_refl _, .nil, by simp⟩

theorem Inv.laws {es : List (UInt64 × ClockOp)} (h : s.Inv) (htimely : Run.Along next Timely s es)
    (htracked : Run.Along next (fun s e => s.Tracked e ∧ s.Fits e) s es) :
    Run.Along next Lawful s es ∧ Run.Always next Inv s es := by
  induction es generalizing s with
  | nil => exact ⟨trivial, Run.always_nil.mpr h⟩
  | cons e es ih =>
    have hlawful := h.lawful htimely.1 htracked.1.1 htracked.1.2
    obtain ⟨hlaws, hinv⟩ := ih (h.step htimely.1 hlawful) htimely.2 htracked.2
    exact ⟨⟨hlawful, hlaws⟩, Run.always_cons.mpr ⟨h, hinv⟩⟩

/-- The laws hold in the runs in which `virtual_time_us_` is the virtual time less the step at every
`Advance` of a running clock, `GetElapsedTime` is not called and virtual time stays below `2 ^ 64`.
They hold in no run that breaks one of the first two. -/
theorem laws_of_tracked (es : List (UInt64 × ClockOp)) (htimely : Run.Along next Timely {} es) :
    (Run.Along next (fun s e => s.Tracked e ∧ s.Fits e) {} es → Laws es) ∧
      (Laws es → Run.Along next Tracked {} es) := by
  refine ⟨fun htracked => ?_, fun hlaws => hlaws.1.mono fun _ _ => Lawful.tracked⟩
  obtain ⟨hlawful, hinv⟩ := Inv.new.laws htimely htracked
  exact ⟨hlawful, hinv.mono fun _ h => h.sorted⟩

instance Timely.decidable (s : Timeline) (e : UInt64 × ClockOp) : Decidable (s.Timely e) :=
  inferInstanceAs (Decidable (s.last ≤ e.1))

instance Tracked.decidable (s : Timeline) : ∀ e, Decidable (s.Tracked e)
  | (_, .getElapsedTime) => .isFalse id
  | (now, .advance deltaUs) => inferInstanceAs (Decidable (s.clock.isPaused = false →
      s.clock.virtualTimeUs + deltaUs = s.clock.currentTime now))
  | (_, .initializeClock) | (_, .reset _) | (_, .pause) | (_, .resume) => .isTrue trivial
  | (_, .setTimeScale _) | (_, .getTimeScale) | (_, .getCurrentTime) => .isTrue trivial
  | (_, .isPaused) => .isTrue trivial

instance Fits.decidable (s : Timeline) : ∀ e, Decidable (s.Fits e)
  | (now, .advance deltaUs) => inferInstanceAs (Decidable ((s.clock.isPaused = false →
      (s.clock.currentTime s.last).toNat + s.passed now < 2 ^ 64) ∧
        (s.clock.currentTime now).toNat + deltaUs.toNat < 2 ^ 64))
  | (now, .getElapsedTime) | (now, .initializeClock) | (now, .reset _) | (now, .pause)
  | (now, .resume) | (now, .setTimeScale _) | (now, .getTimeScale) | (now, .getCurrentTime)
  | (now, .isPaused) => inferInstanceAs (Decidable ((s.clock.isPaused = false →
      (s.clock.currentTime s.last).toNat + s.passed now < 2 ^ 64) ∧ True))

/-- A step by nothing, a millisecond after `Initialize`. -/
def advanceBack : List (UInt64 × ClockOp) :=
  [(0, .initializeClock), (1000, .getCurrentTime), (1000, .advance 0), (1000, .getCurrentTime)]

/-- It takes the time back to zero. -/
theorem advanceBack_not_laws : Run.Along next Timely {} advanceBack ∧
    (Run.exec next {} advanceBack).reads = [1000, 0] ∧ ¬Laws advanceBack := by
  have hreads : (Run.exec next {} advanceBack).reads = [1000, 0] := by decide +kernel
  refine ⟨by decide +kernel, hreads, fun h => ?_⟩
  have hsorted := h.2.last
  rw [hreads] at hsorted
  exact absurd hsorted (by decide)

/-- A step by the time since `Initialize`, then steps while paused, and half speed. -/
def tracked : List (UInt64 × ClockOp) :=
  [(7, .initializeClock), (12, .advance 5), (12, .getCurrentTime), (20, .pause), (30, .advance 100),
    (40, .getCurrentTime), (50, .resume), (50, .setTimeScale (1 / 2)), (61, .getCurrentTime)]

theorem tracked_laws : (Run.exec next {} tracked).reads = [10, 118, 123] ∧ Laws tracked :=
  ⟨by decide +kernel, (laws_of_tracked tracked (by decide +kernel)).1 (by decide +kernel)⟩

end Timeline
end Morphling.Timer
