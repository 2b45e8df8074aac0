import Mathlib.Data.List.Basic

/-!
# The measurement session of a device (`device_measurement_session.cpp`)

A session sends the enabled probes one after the other (latency, bandwidth, FLOPS), waits for the
answer to each, and reports the outcome to `on_done`. All of it runs on the thread of the device's
connection, so an event is one function of the state.

* **What is outside** (`Env`): the clock, the result of `send_`, and a reference GEMM that calls
  `done` before `reference_gemm_` returns. A later call is an event of its own.
* **Doubles** (`Double`): the operations that the code uses, with no law assumed, so rounding and
  NaN are those of the instance.
* **The trace**: what the session did, oldest first. Timers armed, probes sent, responses accepted,
  matrices compared, and the calls of `on_done`.

The contents of the probe payloads and of the challenge matrices are left out: the session writes
them into its messages and does not read them again.
-/

namespace Morphling

/-- The operations on `double` and `float` values that the session uses. -/
class Double (F : Type*) extends Add F, Sub F, Mul F, Div F, LT F where
  decLt : ∀ a b : F, Decidable (a < b)
  fabs : F → F
  /-- The value of an integer. -/
  ofNat : Nat → F
  /-- `static_cast<uint64_t>`. -/
  toUInt64 : F → Nat
  /-- The constant `1e-9`. -/
  nano : F
  /-- The `float` that is stored in four bytes. -/
  load : List UInt8 → F

namespace Double

instance {F : Type*} [Double F] : DecidableLT F := decLt

/-- `std::max`. -/
def max {F : Type*} [Double F] (a b : F) : F := if a < b then b else a

/-- A duration in nanoseconds, in seconds. -/
def seconds {F : Type*} [Double F] (ns : Nat) : F := ofNat ns / ofNat 1000000000

instance : Double Float where
  decLt := Float.decLt
  fabs := Float.abs
  ofNat := Float.ofNat
  toUInt64 x := x.toUInt64.toNat
  nano := 1e-9
  load bytes :=
    (Float32.ofBits (UInt32.ofNat (bytes.foldr (fun b n => b.toNat + 256 * n) 0))).toFloat

end Double

/-- `MeasurementState`. -/
inductive MeasurementState where
  | idle
  | latPending
  | bwPending
  | flopsPending
  | done
  | failed
  deriving DecidableEq, Repr

/-- The states in which `Finish` does nothing. -/
def MeasurementState.terminal : MeasurementState → Bool
  | .done | .failed => true
  | _ => false

inductive Probe where
  | latency
  | bandwidth
  | flops
  deriving DecidableEq, Repr

/-- The state in which the session waits for the answer to a probe. -/
def Probe.pending : Probe → MeasurementState
  | .latency => .latPending
  | .bandwidth => .bwPending
  | .flops => .flopsPending

/-- The `measured_*` fields of `DeviceProfileData`. -/
structure MeasuredProfile where
  measuredLatNs : Nat := 0
  measuredDlBwBps : Nat := 0
  measuredUlBwBps : Nat := 0
  measuredFlops : Nat := 0
  measuredFlopsVerified : Bool := false

structure MeasurementResult where
  ok : Bool
  terminalState : MeasurementState
  measuredProfile : MeasuredProfile

namespace DeviceMeasurementSession

/-- What a session does: the calls of its callbacks, and the responses that it takes. -/
inductive Action (F : Type*) where
  /-- `timer_.Arm`. -/
  | arm
  /-- `send_` with the request of a probe, and its result. -/
  | send (probe : Probe) (probeId : Nat) (ok : Bool)
  /-- A response that passed the checks of its handler. -/
  | accept (probe : Probe) (probeId : Nat)
  /-- The reference result is compared with that of the device. -/
  | compare (cref cdev : List F)
  /-- `on_done`. -/
  | done (r : MeasurementResult)

/-- `DeviceMeasurementSession::Config`, with whether the session has a timer. -/
structure Config (F : Type*) where
  enableLatency : Bool := false
  enableBandwidth : Bool := false
  enableFlops : Bool := false
  bandwidthPayloadBytes : Nat := 4 * 1024 * 1024
  flopsMatrixDim : Nat := 256
  flopsTolerance : F
  hasTimer : Bool := true

/-- `ProbeMessageCodec::EchoView`. The payload is not compared with the one sent. -/
structure EchoView where
  probeId : Nat
  payload : List UInt8 := []

/-- `ProbeMessageCodec::FlopsResponseView`. -/
structure FlopsResponseView where
  probeId : Nat
  matrixC : List UInt8

/-- The arguments of `ReferenceGemmDoneFn`. -/
structure ReferenceDone (F : Type*) where
  ok : Bool
  c : Option (List F)

/-- What the session reads from outside during one event. -/
structure Env (F : Type*) where
  /-- The clock, when the event is handled. -/
  now : Nat := 0
  /-- The clock, when the next probe is sent. -/
  sentAt : Nat := 0
  /-- The result of `send_`. -/
  sendOk : Bool := true
  /-- The call of `done` that `reference_gemm_` makes before it returns. -/
  reference : Option (ReferenceDone F) := none

end DeviceMeasurementSession

open DeviceMeasurementSession Double

/-- `DeviceMeasurementSession`, with the trace of what it did. -/
structure DeviceMeasurementSession (F : Type*) where
  cfg : Config F
  state : MeasurementState := .idle
  probeIdSeq : Nat := 0
  inFlightProbeId : Nat := 0
  timerArmed : Bool := false
  tSend : Nat := 0
  measuredLatNs : Nat := 0
  refC : Option (List F) := none
  refCReady : Bool := false
  pendingDeviceC : Option (List F) := none
  flopsElapsedSec : F
  measured : MeasuredProfile := {}
  /-- `on_done_` is set. -/
  onDone : Bool := false
  trace : List (DeviceMeasurementSession.Action F) := []

namespace DeviceMeasurementSession

variable {F : Type*} (s : DeviceMeasurementSession F)

def log (a : Action F) : DeviceMeasurementSession F := { s with trace := s.trace ++ [a] }

/-! ## The timer and the end of the session -/

def cancelTimer : DeviceMeasurementSession F := { s with timerArmed := false }

def armTimer : DeviceMeasurementSession F :=
  let s := s.cancelTimer
  if s.cfg.hasTimer then { s with timerArmed := true }.log .arm else s

def finish (ok : Bool) : DeviceMeasurementSession F :=
  if s.state.terminal then s
  else
    let s := { s with state := if ok then .done else .failed }.cancelTimer
    if s.onDone then { s with onDone := false }.log (.done ⟨ok, s.state, s.measured⟩) else s

def onTimeout : DeviceMeasurementSession F := { s with timerArmed := false }.finish false

/-! ## The probes -/

section Probes

variable (env : Env F)

/-- The first lines of the three functions that start a probe. -/
def enter (p : Probe) : DeviceMeasurementSession F :=
  { s with
    state := p.pending
    probeIdSeq := s.probeIdSeq + 1
    inFlightProbeId := s.probeIdSeq + 1 }

/-- Their last lines: arm the timer, then send. -/
def transmit (p : Probe) : DeviceMeasurementSession F :=
  let s := { s with tSend := env.sentAt }.armTimer
  let s := s.log (.send p s.inFlightProbeId env.sendOk)
  if env.sendOk then s else s.cancelTimer.finish false

def startLatencyProbe : DeviceMeasurementSession F := (s.enter .latency).transmit env .latency

def startBandwidthProbe : DeviceMeasurementSession F := (s.enter .bandwidth).transmit env .bandwidth

variable [Double F]

/-- The loop that compares the two results: no entry is off by more than the tolerance. -/
def verified (cfg : Config F) (cref cdev : List F) : Bool :=
  cref.length == cdev.length && (cref.zip cdev).all fun (r, d) =>
    !decide (cfg.flopsTolerance + cfg.flopsTolerance * fabs r < fabs (r - d))

/-- The end of a FLOPS probe, where both results are there. -/
def verify (flops : F) (cref cdev : List F) : DeviceMeasurementSession F :=
  { s.log (.compare cref cdev) with
    measured :=
      { s.measured with
        measuredFlops := toUInt64 flops
        measuredFlopsVerified := verified s.cfg cref cdev } }.finish (verified s.cfg cref cdev)

/-- The callback of the reference GEMM. -/
def onReference (r : ReferenceDone F) : DeviceMeasurementSession F :=
  match r.ok, r.c with
  | true, some c =>
    let s := { s with refC := some c, refCReady := true }
    match s.pendingDeviceC with
    | none => s
    | some devC =>
      let mm := ofNat s.cfg.flopsMatrixDim
      { s with pendingDeviceC := none }.verify
        (ofNat 2 * mm * mm * mm / max s.flopsElapsedSec nano) c devC
  | _, _ =>
    let s := { s with refCReady := false }
    if s.state = .flopsPending then s.cancelTimer.finish false else s

/-- Forget the results of an earlier FLOPS probe. -/
def resetFlops : DeviceMeasurementSession F :=
  { s with
    refCReady := false, refC := none, pendingDeviceC := none, flopsElapsedSec := ofNat 0 }

def startFlopsProbe : DeviceMeasurementSession F :=
  let s := (s.enter .flops).resetFlops
  -- `reference_gemm_` may complete at once, also with an error; the probe is sent all the same.
  let s := match env.reference with
    | none => s
    | some r => s.onReference r
  s.transmit env .flops

def start : DeviceMeasurementSession F :=
  let s := { s with onDone := true }
  if s.state ≠ .idle then s.finish false
  else if !s.cfg.enableLatency && !s.cfg.enableBandwidth && !s.cfg.enableFlops then
    { s with state := .done }.log (.done ⟨true, .done, s.measured⟩)
  else if s.cfg.enableLatency then s.startLatencyProbe env
  else if s.cfg.enableBandwidth then s.startBandwidthProbe env
  else s.startFlopsProbe env

/-! ## The responses

The message is what the codec makes of it, `none` where it does not parse. Each handler returns
whether it took the response. -/

/-- The response passed the checks. -/
def take (p : Probe) (probeId : Nat) : DeviceMeasurementSession F :=
  s.cancelTimer.log (.accept p probeId)

/-- The time since the probe was sent, less twice the measured latency where it is longer. -/
def elapsedNs : Nat :=
  let rttNs := env.now - s.tSend
  let latNs := 2 * s.measuredLatNs
  if rttNs > latNs then rttNs - latNs else rttNs

def measureLatency : DeviceMeasurementSession F :=
  let latNs := (env.now - s.tSend) / 2
  { s with measuredLatNs := latNs, measured := { s.measured with measuredLatNs := latNs } }

def measureBandwidth : DeviceMeasurementSession F :=
  let transferSec : F := max nano (seconds (s.elapsedNs env))
  let bps := toUInt64 (ofNat s.cfg.bandwidthPayloadBytes / transferSec)
  { s with measured := { s.measured with measuredDlBwBps := bps, measuredUlBwBps := bps } }

def measureFlops : DeviceMeasurementSession F :=
  { s with flopsElapsedSec := max nano (seconds (s.elapsedNs env)) }

def onProbeLatencyResponse (view : Option EchoView) : Bool × DeviceMeasurementSession F :=
  match view with
  | none => (false, s)
  | some view =>
    if s.state = .latPending ∧ view.probeId = s.inFlightProbeId then
      let s := (s.take .latency view.probeId).measureLatency env
      (true,
        if s.cfg.enableBandwidth then s.startBandwidthProbe env
        else if s.cfg.enableFlops then s.startFlopsProbe env
        else { s with state := .done }.finish true)
    else (false, s)

def onProbeBandwidthResponse (view : Option EchoView) : Bool × DeviceMeasurementSession F :=
  match view with
  | none => (false, s)
  | some view =>
    if s.state = .bwPending ∧ view.probeId = s.inFlightProbeId then
      let s := (s.take .bandwidth view.probeId).measureBandwidth env
      (true,
        if s.cfg.enableFlops then s.startFlopsProbe env
        else { s with state := .done }.finish true)
    else (false, s)

/-- The device's matrix, from the bytes of its response. -/
def deviceC (m : Nat) (matrixC : List UInt8) : List F :=
  (List.range (m * m)).map fun i => load ((matrixC.drop (4 * i)).take 4)

def onProbeFlopsResponse (view : Option FlopsResponseView) : Bool × DeviceMeasurementSession F :=
  match view with
  | none => (false, s)
  | some view =>
    if s.state = .flopsPending ∧ view.probeId = s.inFlightProbeId then
      let s := (s.take .flops view.probeId).measureFlops env
      let m := s.cfg.flopsMatrixDim
      if view.matrixC.length ≠ m * m * 4 then (true, s.finish false)
      else if !s.refCReady then (true, { s with pendingDeviceC := some (deviceC m view.matrixC) })
      else
        match s.refC with
        -- `ref_c_ready_` is only set together with `ref_c_`.
        | none => (true, s)
        | some c =>
          (true, s.verify (ofNat 2 * ofNat m * ofNat m * ofNat m /
            s.flopsElapsedSec) c (deviceC m view.matrixC))
    else (false, s)

end Probes

/-! ## Events -/

/-- What happens to a session. -/
inductive Event (F : Type*) where
  | start (env : Env F)
  | latencyResponse (view : Option EchoView) (env : Env F)
  | bandwidthResponse (view : Option EchoView) (env : Env F)
  | flopsResponse (view : Option FlopsResponseView) (env : Env F)
  | timeout
  | reference (r : ReferenceDone F)

def handle {F : Type*} [Double F] (s : DeviceMeasurementSession F) :
    Event F → DeviceMeasurementSession F
  | .start env => s.start env
  | .latencyResponse view env => (s.onProbeLatencyResponse env view).2
  | .bandwidthResponse view env => (s.onProbeBandwidthResponse env view).2
  | .flopsResponse view env => (s.onProbeFlopsResponse env view).2
  | .timeout => s.onTimeout
  | .reference r => s.onReference r

/-- The session is started once, before all else. A timer that was cancelled does not expire. -/
def Enabled : Event F → Prop
  | .start _ => s.state = .idle
  | .timeout => s.state ≠ .idle ∧ s.timerArmed = true
  | _ => s.state ≠ .idle

instance : ∀ e : Event F, Decidable (s.Enabled e)
  | .start _ => inferInstanceAs (Decidable (s.state = .idle))
  | .timeout => inferInstanceAs (Decidable (s.state ≠ .idle ∧ s.timerArmed = true))
  | .latencyResponse .. | .bandwidthResponse .. | .flopsResponse .. | .reference _ =>
    inferInstanceAs (Decidable (s.state ≠ .idle))

/-- A new session. -/
def new [Double F] (cfg : Config F) : DeviceMeasurementSession F :=
  { cfg := cfg, flopsElapsedSec := ofNat 0 }

end DeviceMeasurementSession
end Morphling
