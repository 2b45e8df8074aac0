import Mathlib.Data.List.Pairwise
import Morphling.Lib.Run
import Morphling.Session.Session

/-!
# The outcome of a measurement session

What a session owes to its caller (`Outcome`), in every state of a run: `on_done` was called once if
the session has ended and not at all before, `ok` only after every enabled probe was answered in
turn and the results agreed, and after the call the session is still in the state it reported and
has started nothing.

`outcome_iff` says which runs keep it. Two kinds of steps break it (`StepOk`):

* The answer to the last echo probe, where no FLOPS probe follows: the handler sets `DONE` before it
  calls `Finish`, and `Finish` takes the session for one that has reported already.
* The start of the FLOPS probe with a reference GEMM that fails at once: the callback ends the
  session, and then the timer is armed and the probe sent.
-/

namespace Morphling.DeviceMeasurementSession

open List

variable {F : Type*} {q : Probe} {o : Option Probe} {cfg : Config F}

/-! ## The property -/

namespace Config

variable (cfg : Config F)

def enabled : Probe → Bool
  | .latency => cfg.enableLatency
  | .bandwidth => cfg.enableBandwidth
  | .flops => cfg.enableFlops

/-- The enabled probes that come before a probe. -/
def before : Probe → List Probe
  | .latency => []
  | .bandwidth => [Probe.latency].filter cfg.enabled
  | .flops => [Probe.latency, .bandwidth].filter cfg.enabled

/-- The enabled probes, in order. -/
def probes : List Probe := [Probe.latency, .bandwidth, .flops].filter cfg.enabled

/-- The probe that comes after a probe, or at the start. -/
def next : Option Probe → Option Probe
  | none => [Probe.latency, .bandwidth, .flops].find? cfg.enabled
  | some .latency => [Probe.bandwidth, .flops].find? cfg.enabled
  | some .bandwidth => [Probe.flops].find? cfg.enabled
  | some .flops => none

end Config

namespace Action

def isDone : Action F → Bool
  | .done _ => true
  | _ => false

/-- The actions of a session that goes on: it arms a timer or sends a probe. -/
def starts : Action F → Bool
  | .arm | .send .. => true
  | _ => false

end Action

/-- Each of the probes is sent and answered in turn, under ids that count from `1`. -/
def rounds (ps : List Probe) : List (Action F) :=
  (ps.zipIdx 1).flatMap fun (p, i) => [.send p i true, .accept p i]

/-- What `ok` stands for: every enabled probe was answered in turn, and where the FLOPS probe is
enabled the device's result agrees with the reference. -/
def Passed [Double F] (cfg : Config F) (trace : List (Action F)) : Prop :=
  (rounds cfg.probes).Sublist trace ∧
    (cfg.enableFlops = true →
      ∃ cref cdev, .compare cref cdev ∈ trace ∧ verified cfg cref cdev = true)

/-- What the session owes to its caller. -/
structure Outcome [Double F] (s : DeviceMeasurementSession F) : Prop where
  /-- `on_done` was called once if the session has ended, and not before. -/
  once : s.trace.countP Action.isDone = if s.state.terminal then 1 else 0
  /-- It was called with `ok` only if all probes passed. -/
  passed : ∀ r, .done r ∈ s.trace → r.ok = true → Passed s.cfg s.trace
  /-- The session is still in the state that it reported. -/
  stays : ∀ r, .done r ∈ s.trace → s.state = if r.ok then .done else .failed
  /-- After the call it armed no timer and sent no probe. -/
  quiet : s.trace.Pairwise fun a b => a.isDone = true → b.starts = false

/-! ## The condition -/

/-- The reference GEMM completes with an error. -/
def ReferenceDone.failed (r : ReferenceDone F) : Bool := !(r.ok && r.c.isSome)

/-- It does so before `reference_gemm_` returns. -/
def Env.referenceFails (env : Env F) : Bool := env.reference.any ReferenceDone.failed

/-- A probe follows, and if it is the FLOPS probe its reference GEMM does not fail at once. -/
def LaunchOk (env : Env F) : Option Probe → Prop
  | none => False
  | some .flops => env.referenceFails = false
  | some _ => True

instance (env : Env F) : ∀ p, Decidable (LaunchOk env p)
  | none => inferInstanceAs (Decidable False)
  | some .flops => inferInstanceAs (Decidable (env.referenceFails = false))
  | some .latency | some .bandwidth => inferInstanceAs (Decidable True)

/-- The step does not break the outcome: if it starts or ends a probe, `LaunchOk` holds. -/
def StepOk (s : DeviceMeasurementSession F) : Event F → Prop
  | .start env => LaunchOk env (s.cfg.next none)
  | .latencyResponse (some view) env =>
    s.state = .latPending ∧ view.probeId = s.inFlightProbeId →
      LaunchOk env (s.cfg.next (some .latency))
  | .bandwidthResponse (some view) env =>
    s.state = .bwPending ∧ view.probeId = s.inFlightProbeId →
      LaunchOk env (s.cfg.next (some .bandwidth))
  | _ => True

instance (s : DeviceMeasurementSession F) : ∀ e, Decidable (s.StepOk e)
  | .start env => inferInstanceAs (Decidable (LaunchOk env (s.cfg.next none)))
  | .latencyResponse (some view) env =>
    inferInstanceAs (Decidable (s.state = .latPending ∧ view.probeId = s.inFlightProbeId →
      LaunchOk env (s.cfg.next (some .latency))))
  | .bandwidthResponse (some view) env =>
    inferInstanceAs (Decidable (s.state = .bwPending ∧ view.probeId = s.inFlightProbeId →
      LaunchOk env (s.cfg.next (some .bandwidth))))
  | .latencyResponse none _ | .bandwidthResponse none _ | .flopsResponse .. | .timeout
  | .reference _ => inferInstanceAs (Decidable True)

/-! ## Rounds -/

theorem rounds_concat {ps : List Probe} {p : Probe} :
    (rounds (ps ++ [p]) : List (Action F)) =
      rounds ps ++ [.send p (ps.length + 1) true, .accept p (ps.length + 1)] := by
  simp [rounds, zipIdx_append, Nat.add_comm]

theorem Config.next_eq_some (h : cfg.next o = some q) (ho : ∀ p ∈ o, cfg.enabled p = true) :
    cfg.enabled q = true ∧ cfg.before q = o.elim [] fun p => cfg.before p ++ [p] := by
  have hq : cfg.enabled q = true := by
    rcases o with _ | _ | _ | _ <;> first | exact find?_some h | cases h
  refine ⟨hq, ?_⟩
  rcases o with _ | p
  · cases q <;> simp_all [Config.next, Config.before, find?_cons, filter_cons] <;> grind
  · have hp := ho p rfl
    cases p <;> cases q <;>
      simp_all [Config.next, Config.before, find?_cons, filter_cons] <;> grind

theorem Config.probes_of_flops (h : cfg.enableFlops = true) :
    cfg.probes = cfg.before .flops ++ [.flops] := by
  simp [Config.probes, Config.before, filter_cons, Config.enabled, h]
  grind

/-! ## The end of a session -/

variable {s : DeviceMeasurementSession F} {p : Probe} {env : Env F} {ok : Bool}
  {l : List (Action F)}

/-- `on_done` is set and was not called yet. -/
structure Open (s : DeviceMeasurementSession F) : Prop where
  onDone : s.onDone = true
  silent : ∀ a ∈ s.trace, a.isDone = false

theorem Open.log (h : s.Open) {a : Action F} (ha : a.isDone = false) : (s.log a).Open := by
  refine ⟨h.onDone, fun b hb => ?_⟩
  rcases mem_append.mp hb with hb | hb
  · exact h.silent b hb
  · rwa [mem_singleton.mp hb]

theorem finish_of_terminal (h : s.state.terminal = true) : s.finish ok = s := by
  rw [finish, if_pos h]

theorem finish_terminal (ok : Bool) : (s.finish ok).state.terminal = true := by
  unfold finish
  split
  · assumption
  · cases s.onDone <;> cases ok <;> rfl

theorem Open.finish_eq (h : s.Open) (hs : s.state.terminal = false) (ok : Bool) :
    s.finish ok =
      { s with
        state := if ok then .done else .failed
        timerArmed := false
        onDone := false
        trace := s.trace ++ [.done ⟨ok, if ok then .done else .failed, s.measured⟩] } := by
  simp [finish, hs, cancelTimer, DeviceMeasurementSession.log, h.onDone]

section Outcome

variable [Double F]

/-- A session that has not reported and has not ended owes nothing yet. -/
theorem Open.outcome (h : ∀ a ∈ s.trace, a.isDone = false) (hs : s.state.terminal = false) :
    Outcome s := by
  have hdone : ∀ r, .done r ∉ s.trace := fun r hr => nomatch h _ hr
  refine ⟨?_, fun r hr => (hdone r hr).elim, fun r hr => (hdone r hr).elim, ?_⟩
  · rw [hs, countP_eq_zero.mpr fun a ha => by simp [h a ha]]
    rfl
  · exact pairwise_of_forall_mem_list fun a ha b _ hd => by simp [h a ha] at hd

/-- `Finish` reports a session that has not ended. -/
theorem Open.finish (h : s.Open) (hs : s.state.terminal = false)
    (hok : ok = true → Passed s.cfg s.trace) : Outcome (s.finish ok) := by
  have hdone : ∀ r, Action.done r ∉ s.trace := fun r hr => nomatch h.silent _ hr
  have hmem : ∀ r, Action.done r ∈ (s.finish ok).trace → r.ok = ok := by
    intro r hr
    rw [h.finish_eq hs, mem_append, mem_singleton] at hr
    rcases hr with hr | hr
    · exact (hdone r hr).elim
    · cases hr
      rfl
  refine ⟨?_, fun r hr hr' => ?_, fun r hr => ?_, ?_⟩
  · have h0 : s.trace.countP Action.isDone = 0 :=
      countP_eq_zero.mpr fun a ha => by simp [h.silent a ha]
    rw [if_pos (finish_terminal ok), h.finish_eq hs, countP_append, h0]
    rfl
  · obtain ⟨hr1, hr2⟩ := hok (hmem r hr ▸ hr')
    rw [h.finish_eq hs]
    refine ⟨hr1.trans (sublist_append_left _ _), fun hf => ?_⟩
    obtain ⟨cref, cdev, hc, hv⟩ := hr2 hf
    exact ⟨cref, cdev, mem_append_left _ hc, hv⟩
  · rw [hmem r hr, h.finish_eq hs]
  · rw [h.finish_eq hs]
    refine pairwise_append.mpr ⟨?_, pairwise_singleton _ _, fun a ha b hb hd => ?_⟩
    · exact pairwise_of_forall_mem_list fun a ha b _ hd => by simp [h.silent a ha] at hd
    · rw [mem_singleton.mp hb]
      rfl

/-- What an ended session may still do. -/
theorem Outcome.extend {t : DeviceMeasurementSession F} (h : Outcome s) (hc : t.cfg = s.cfg)
    (hs : t.state = s.state) (ht : t.trace = s.trace ++ l)
    (hl : ∀ a ∈ l, a.isDone = false ∧ a.starts = false) : Outcome t := by
  have hmem : ∀ r, Action.done r ∈ t.trace → Action.done r ∈ s.trace := by
    intro r hr
    rw [ht] at hr
    exact (mem_append.mp hr).resolve_right fun hr => nomatch (hl _ hr).1
  refine ⟨?_, fun r hr hok => ?_, fun r hr => hs ▸ h.stays r (hmem r hr), ?_⟩
  · have h0 : l.countP Action.isDone = 0 :=
      countP_eq_zero.mpr fun a ha => by simp [(hl a ha).1]
    rw [hs, ← h.once, ht, countP_append, h0, Nat.add_zero]
  · obtain ⟨h1, h2⟩ := h.passed r (hmem r hr) hok
    rw [hc, ht]
    refine ⟨h1.trans (sublist_append_left _ _), fun hf => ?_⟩
    obtain ⟨cref, cdev, hm, hv⟩ := h2 hf
    exact ⟨cref, cdev, mem_append_left _ hm, hv⟩
  · rw [ht]
    refine pairwise_append.mpr ⟨h.quiet, ?_, fun a _ b hb _ => (hl b hb).2⟩
    exact pairwise_of_forall_mem_list fun a ha b _ hd => by simp [(hl a ha).1] at hd

end Outcome

/-! ## The phases of a session -/

/-- The session may start probe `p`: the probes before it were answered. -/
structure Ready (s : DeviceMeasurementSession F) (p : Probe) : Prop extends Open s where
  enabled : s.cfg.enabled p = true
  probeIdSeq : s.probeIdSeq = (s.cfg.before p).length
  answered : (rounds (s.cfg.before p)).Sublist s.trace
  noResult : s.pendingDeviceC = none

/-- The session waits for the answer to probe `p`. -/
structure Waiting (s : DeviceMeasurementSession F) (p : Probe) : Prop extends Open s where
  enabled : s.cfg.enabled p = true
  state : s.state = p.pending
  probeIdSeq : s.probeIdSeq = s.inFlightProbeId
  inFlight : s.inFlightProbeId = (s.cfg.before p).length + 1
  sent : (rounds (s.cfg.before p) ++ [Action.send p s.inFlightProbeId true]).Sublist s.trace
  /-- A result of the device that waits for the reference is that of an answer. -/
  result : ∀ c, s.pendingDeviceC = some c →
    p = .flops ∧ (rounds (s.cfg.before p ++ [p])).Sublist s.trace

/-- The session has not been started. -/
structure Fresh (s : DeviceMeasurementSession F) : Prop where
  state : s.state = .idle
  probes : s.cfg.probes ≠ []
  probeIdSeq : s.probeIdSeq = 0
  noResult : s.pendingDeviceC = none
  trace : s.trace = []

/-- The invariant: the session is new, waits for an answer, or has ended and reported. -/
inductive Inv [Double F] (s : DeviceMeasurementSession F) : Prop where
  | fresh (h : Fresh s)
  | waiting (p : Probe) (h : Waiting s p)
  | ended (hs : s.state.terminal = true) (h : Outcome s)

theorem pending_terminal (p : Probe) : p.pending.terminal = false := by cases p <;> rfl

theorem pending_ne_idle (p : Probe) : p.pending ≠ .idle := by cases p <;> decide

theorem pending_inj {p : Probe} (h : p.pending = q.pending) : p = q := by
  cases p <;> cases q <;> first | rfl | cases h

theorem Waiting.live (h : s.Waiting p) : s.state.terminal = false := by
  rw [h.state, pending_terminal]

/-- What `transmit` adds to the trace before the result of the send counts. -/
theorem transmit_eq (s : DeviceMeasurementSession F) (env : Env F) (p : Probe) :
    ∃ t, (s.transmit env p = if env.sendOk then t else t.cancelTimer.finish false) ∧
      t.cfg = s.cfg ∧ t.state = s.state ∧ t.probeIdSeq = s.probeIdSeq ∧
      t.inFlightProbeId = s.inFlightProbeId ∧ t.pendingDeviceC = s.pendingDeviceC ∧
      t.onDone = s.onDone ∧
      ∃ l, t.trace = s.trace ++ l ++ [.send p s.inFlightProbeId env.sendOk] ∧
        ∀ a ∈ l, a.isDone = false := by
  refine ⟨_, rfl, ?_⟩
  cases ht : s.cfg.hasTimer
  · simp [armTimer, cancelTimer, log, ht]
  · simp [armTimer, cancelTimer, log, ht]
    exact ⟨[.arm], by simp [Action.isDone]⟩

/-- The session after it took the answer to probe `p`. -/
structure Takes (s t : DeviceMeasurementSession F) (p : Probe) : Prop where
  cfg : t.cfg = s.cfg
  probeIdSeq : t.probeIdSeq = s.probeIdSeq
  pendingDeviceC : t.pendingDeviceC = s.pendingDeviceC
  onDone : t.onDone = s.onDone
  trace : t.trace = s.trace ++ [.accept p s.inFlightProbeId]

variable {t : DeviceMeasurementSession F}

theorem Waiting.opened (h : s.Waiting p) (ht : Takes s t p) : t.Open := by
  have := h.toOpen.log (a := .accept p s.inFlightProbeId) rfl
  exact ⟨ht.onDone.trans h.onDone, by rw [ht.trace]; exact this.silent⟩

/-- With the answer, probe `p` has had its round. -/
theorem Waiting.answered (h : s.Waiting p)
    (ht : t.trace = s.trace ++ [.accept p s.inFlightProbeId]) :
    (rounds (s.cfg.before p ++ [p])).Sublist t.trace := by
  have hr : (rounds (s.cfg.before p ++ [p]) : List (Action F)) =
      (rounds (s.cfg.before p) ++ [.send p s.inFlightProbeId true]) ++
        [.accept p s.inFlightProbeId] := by
    rw [rounds_concat, h.inFlight, append_assoc]
    rfl
  rw [hr, ht]
  exact h.sent.append (List.Sublist.refl _)

theorem Waiting.ready (h : s.Waiting p) (ht : Takes s t p) (hq : s.cfg.next (some p) = some q) :
    t.Ready q := by
  obtain ⟨hen, hbe⟩ := Config.next_eq_some hq (by rintro _ ⟨⟩; exact h.enabled)
  refine ⟨h.opened ht, ht.cfg ▸ hen, ?_, ?_, ?_⟩
  · rw [ht.probeIdSeq, h.probeIdSeq, h.inFlight, ht.cfg, hbe]
    simp
  · rw [ht.cfg, hbe]
    exact h.answered ht.trace
  · rw [ht.pendingDeviceC]
    refine Option.eq_none_iff_forall_ne_some.mpr fun c hc => ?_
    obtain ⟨rfl, -⟩ := h.result c hc
    cases hq

/-- What does not touch the probe leaves the session waiting. -/
theorem Waiting.keep (h : s.Waiting p) (hc : t.cfg = s.cfg) (hs : t.state = s.state)
    (hq : t.probeIdSeq = s.probeIdSeq) (hi : t.inFlightProbeId = s.inFlightProbeId)
    (hd : t.onDone = s.onDone) (ht : t.trace = s.trace ++ l) (hl : ∀ a ∈ l, a.isDone = false)
    (hr : ∀ c, t.pendingDeviceC = some c → p = .flops ∧
      (rounds (s.cfg.before p ++ [p])).Sublist t.trace) : t.Waiting p := by
  refine ⟨⟨hd.trans h.onDone, fun a ha => ?_⟩, hc ▸ h.enabled, hs.trans h.state, by
    rw [hq, hi, h.probeIdSeq], by rw [hi, hc, h.inFlight], ?_, hc ▸ hr⟩
  · rw [ht] at ha
    exact (mem_append.mp ha).elim (h.silent a) (hl a)
  · rw [hc, hi, ht]
    exact h.sent.trans (sublist_append_left _ _)

theorem Fresh.ready (h : s.Fresh) (hq : s.cfg.next none = some q) :
    { s with onDone := true }.Ready q := by
  obtain ⟨hen, hbe⟩ := Config.next_eq_some hq nofun
  refine ⟨⟨rfl, by simp [h.trace]⟩, hen, ?_, ?_, h.noResult⟩
  · simp only [hbe]
    exact h.probeIdSeq
  · simp only [hbe]
    exact nil_sublist _

section Phases

variable [Double F] {e : Event F} {view : EchoView}

theorem Inv.outcome (h : Inv s) : Outcome s := by
  cases h with
  | fresh h => exact Open.outcome (by simp [h.trace]) (by rw [h.state]; rfl)
  | waiting p h => exact Open.outcome h.silent (by rw [h.state, pending_terminal])
  | ended _ h => exact h

/-- A session that waits fails: a timeout, an error of the reference or of a send. -/
theorem Open.fail (h : s.Open) (hs : s.state.terminal = false) : Inv (s.finish false) :=
  .ended (finish_terminal false) (h.finish hs nofun)

/-- The probe goes out, or the session fails. -/
theorem transmit_inv (ho : s.Open) (he : s.cfg.enabled p = true) (hs : s.state = p.pending)
    (hq : s.probeIdSeq = s.inFlightProbeId)
    (hi : s.inFlightProbeId = (s.cfg.before p).length + 1)
    (hr : (rounds (s.cfg.before p)).Sublist s.trace) (hn : s.pendingDeviceC = none) :
    Inv (s.transmit env p) := by
  obtain ⟨t, heq, tc, ts, tq, ti, tp, td, l, tl, hl⟩ := s.transmit_eq env p
  have hopen : t.Open := by
    refine ⟨td.trans ho.onDone, fun a ha => ?_⟩
    rw [tl, mem_append, mem_append, mem_singleton] at ha
    rcases ha with (ha | ha) | rfl
    · exact ho.silent a ha
    · exact hl a ha
    · rfl
  have hlive : t.state.terminal = false := by rw [ts, hs, pending_terminal]
  rw [heq]
  split
  next hok =>
    refine .waiting p ⟨hopen, tc ▸ he, ts.trans hs, by rw [tq, ti, hq], by rw [ti, tc, hi], ?_, ?_⟩
    · rw [tl, tc, ti, hok]
      exact (hr.trans (sublist_append_left _ _)).append (List.Sublist.refl _)
    · intro c hc
      rw [tp, hn] at hc
      cases hc
  next => exact Open.fail ⟨hopen.onDone, hopen.silent⟩ hlive

/-! ## The next probe -/

/-- What the handlers do next: start a probe, or end the session. -/
def launch (s : DeviceMeasurementSession F) (env : Env F) : Option Probe →
    DeviceMeasurementSession F
  | some .latency => s.startLatencyProbe env
  | some .bandwidth => s.startBandwidthProbe env
  | some .flops => s.startFlopsProbe env
  | none => { s with state := .done }.finish true

theorem onReference_failed (s : DeviceMeasurementSession F) {r : ReferenceDone F}
    (h : r.failed = true) :
    s.onReference r = if s.state = .flopsPending then
      { s with refCReady := false }.cancelTimer.finish false else { s with refCReady := false } := by
  obtain ⟨ok, c⟩ := r
  cases ok <;> cases c <;> first | rfl | cases h

/-- The reference GEMM of a new FLOPS probe: no result of the device waits for it. -/
theorem startFlopsProbe_eq (s : DeviceMeasurementSession F) (h : env.referenceFails = false) :
    ∃ c r, s.startFlopsProbe env =
      { (s.enter .flops).resetFlops with refC := c, refCReady := r }.transmit env .flops := by
  unfold Env.referenceFails at h
  rcases hr : env.reference with _ | ⟨ok, c⟩
  · exact ⟨none, false, by simp only [startFlopsProbe, hr]; rfl⟩
  · rw [hr] at h
    cases ok <;> cases c <;> try cases h
    exact ⟨_, true, by simp only [startFlopsProbe, hr]; rfl⟩

theorem Ready.launch (h : s.Ready p) (hok : LaunchOk env (some p)) :
    Inv (s.launch env (some p)) := by
  have hi : s.probeIdSeq + 1 = (s.cfg.before p).length + 1 := by rw [h.probeIdSeq]
  cases p with
  | latency =>
    exact transmit_inv ⟨h.onDone, h.silent⟩ h.enabled rfl rfl hi h.answered h.noResult
  | bandwidth =>
    exact transmit_inv ⟨h.onDone, h.silent⟩ h.enabled rfl rfl hi h.answered h.noResult
  | flops =>
    obtain ⟨c, r, heq⟩ := s.startFlopsProbe_eq hok
    rw [DeviceMeasurementSession.launch, heq]
    exact transmit_inv ⟨h.onDone, h.silent⟩ h.enabled rfl rfl hi h.answered rfl

/-- A session that has reported must not send a probe. -/
theorem not_outcome_transmit {r : MeasurementResult} (hs : s.state.terminal = true)
    (hr : .done r ∈ s.trace) : ¬ Outcome (s.transmit env p) := by
  intro ho
  obtain ⟨t, heq, -, ts, -, -, -, -, l, tl, -⟩ := s.transmit_eq env p
  have htr : (s.transmit env p).trace = t.trace := by
    rw [heq]
    split
    · rfl
    · rw [finish_of_terminal (by rw [← hs, ← ts]; rfl)]
      rfl
  have hq := ho.quiet
  rw [htr, tl, pairwise_append] at hq
  exact nomatch hq.2.2 _ (mem_append_left _ hr) _ (mem_singleton_self _) rfl

/-- The reference GEMM fails at once: the probe is sent after `on_done`. -/
theorem Open.not_outcome_startFlopsProbe (h : s.Open) (hf : env.referenceFails = true) :
    ¬ Outcome (s.startFlopsProbe env) := by
  obtain ⟨r, hr, hfail⟩ := (Option.any_eq_true _ _).mp hf
  have hopen : { (s.enter .flops).resetFlops with refCReady := false }.cancelTimer.Open :=
    ⟨h.onDone, h.silent⟩
  have hpending : (s.enter .flops).resetFlops.state = .flopsPending := rfl
  simp only [startFlopsProbe, hr, onReference_failed _ hfail, if_pos hpending]
  refine not_outcome_transmit (r := ⟨false, .failed, s.measured⟩) (finish_terminal false) ?_
  rw [hopen.finish_eq rfl]
  exact mem_append_right _ (mem_singleton_self _)

/-- The session that ends without a FLOPS probe does not report. -/
theorem Open.not_outcome_done (h : s.Open) :
    ¬ Outcome ({ s with state := .done }.finish true) := by
  intro ho
  have h0 : s.trace.countP Action.isDone = 0 :=
    countP_eq_zero.mpr fun a ha => by simp [h.silent a ha]
  have h1 := ho.once
  rw [finish_of_terminal rfl, h0] at h1
  cases h1

theorem launch_inv (hr : ∀ q ∈ o, s.Ready q) (hok : LaunchOk env o) : Inv (s.launch env o) := by
  cases o with
  | none => exact hok.elim
  | some q => exact (hr q rfl).launch hok

theorem Open.launchOk (h : s.Open) (ho : Outcome (s.launch env o)) : LaunchOk env o := by
  rcases o with _ | _ | _ | _
  · exact h.not_outcome_done ho
  · trivial
  · trivial
  · exact Bool.eq_false_iff.mpr fun hf => h.not_outcome_startFlopsProbe hf ho

/-! ## The events -/


theorem start_eq (h : s.Fresh) :
    s.start env = { s with onDone := true }.launch env (s.cfg.next none) := by
  have hp := h.probes
  unfold Config.probes at hp
  unfold start Config.next
  cases hl : s.cfg.enableLatency <;> cases hb : s.cfg.enableBandwidth <;>
    cases hf : s.cfg.enableFlops <;>
    simp_all [h.state, Config.enabled, launch]

/-- The event brings a response to the echo probe `p`. -/
inductive Echo : Event F → Probe → Option EchoView → Env F → Prop where
  | latency (view : Option EchoView) (env : Env F) :
    Echo (.latencyResponse view env) .latency view env
  | bandwidth (view : Option EchoView) (env : Env F) :
    Echo (.bandwidthResponse view env) .bandwidth view env

omit [Double F] in
theorem Event.cases_echo (e : Event F) : (∃ env, e = .start env) ∨ (∃ p view env, Echo e p view env) ∨
    (∃ view env, e = .flopsResponse view env) ∨ e = .timeout ∨ ∃ r, e = .reference r := by
  cases e with
  | start env => exact .inl ⟨env, rfl⟩
  | latencyResponse view env => exact .inr (.inl ⟨_, _, _, .latency view env⟩)
  | bandwidthResponse view env => exact .inr (.inl ⟨_, _, _, .bandwidth view env⟩)
  | flopsResponse view env => exact .inr (.inr (.inl ⟨view, env, rfl⟩))
  | timeout => exact .inr (.inr (.inr (.inl rfl)))
  | reference r => exact .inr (.inr (.inr (.inr ⟨r, rfl⟩)))

/-- The session after it took and measured the answer to an echo probe. -/
def takeEcho (s : DeviceMeasurementSession F) (env : Env F) : Probe → DeviceMeasurementSession F
  | .latency => (s.take .latency s.inFlightProbeId).measureLatency env
  | .bandwidth => (s.take .bandwidth s.inFlightProbeId).measureBandwidth env
  | .flops => s.take .flops s.inFlightProbeId

theorem takes_takeEcho (s : DeviceMeasurementSession F) (env : Env F) (p : Probe) :
    Takes s (s.takeEcho env p) p := by
  cases p <;> exact ⟨rfl, rfl, rfl, rfl, rfl⟩

/-- The answer to the probe in flight launches the next probe. -/
theorem Echo.handle_eq (h : Echo e p (some view) env)
    (hv : s.state = p.pending ∧ view.probeId = s.inFlightProbeId) :
    s.handle e = (s.takeEcho env p).launch env (s.cfg.next (some p)) := by
  have hcfg : s.cfg = (s.takeEcho env p).cfg := (takes_takeEcho s env p).cfg.symm
  cases h with
  | latency =>
    have hv : s.state = .latPending ∧ _ := hv
    simp only [handle, onProbeLatencyResponse, if_pos hv]
    rw [hcfg, takeEcho, ← hv.2]
    generalize (s.take .latency view.probeId).measureLatency env = t
    cases hb : t.cfg.enableBandwidth <;> cases hf : t.cfg.enableFlops <;>
      simp [Config.next, Config.enabled, hb, hf, launch]
  | bandwidth =>
    have hv : s.state = .bwPending ∧ _ := hv
    simp only [handle, onProbeBandwidthResponse, if_pos hv]
    rw [hcfg, takeEcho, ← hv.2]
    generalize (s.take .bandwidth view.probeId).measureBandwidth env = t
    cases hf : t.cfg.enableFlops <;> simp [Config.next, Config.enabled, hf, launch]

/-- Every other response to an echo probe is ignored. -/
theorem Echo.handle_or {view : Option EchoView} (h : Echo e p view env)
    (s : DeviceMeasurementSession F) : s.handle e = s ∨
      ∃ v, view = some v ∧ s.state = p.pending ∧ v.probeId = s.inFlightProbeId := by
  rcases view with _ | view
  · left
    cases h <;> rfl
  by_cases hv : s.state = p.pending ∧ view.probeId = s.inFlightProbeId
  · exact .inr ⟨view, rfl, hv⟩
  · left
    cases h with
    | latency => exact congrArg Prod.snd (if_neg hv)
    | bandwidth => exact congrArg Prod.snd (if_neg hv)

/-- The comparison decides a session whose FLOPS probe was answered. -/
theorem Open.verify (h : s.Open) (hs : s.state.terminal = false)
    (hf : s.cfg.enableFlops = true)
    (hr : (rounds (s.cfg.before .flops ++ [.flops])).Sublist s.trace) (flops : F)
    (cref cdev : List F) : Inv (s.verify flops cref cdev) := by
  have hopen := h.log (a := .compare cref cdev) rfl
  have hpass : verified s.cfg cref cdev = true → Passed s.cfg (s.log (.compare cref cdev)).trace := by
    refine fun hv => ⟨?_, fun _ => ⟨cref, cdev, ?_, hv⟩⟩
    · rw [Config.probes_of_flops hf]
      exact hr.trans (sublist_append_left _ _)
    · exact mem_append_right _ (mem_singleton_self _)
  unfold DeviceMeasurementSession.verify
  refine .ended (finish_terminal _) (Open.finish ?_ ?_ ?_)
  · exact ⟨hopen.onDone, hopen.silent⟩
  · exact hs
  · exact hpass

/-- The answer to the FLOPS probe: it has the wrong size, waits for the reference, or is compared
with it. -/
theorem Waiting.onProbeFlopsResponse (h : s.Waiting .flops) {view : FlopsResponseView}
    (hv : view.probeId = s.inFlightProbeId) :
    Inv (s.onProbeFlopsResponse env (some view)).2 := by
  have hs : s.state = .flopsPending := h.state
  simp only [DeviceMeasurementSession.onProbeFlopsResponse, if_pos (And.intro hs hv)]
  generalize ht : (s.take .flops view.probeId).measureFlops env = t
  have htr : t.trace = s.trace ++ [.accept .flops s.inFlightProbeId] := by
    rw [← ht, ← hv]
    rfl
  have hopen : t.Open := h.opened ⟨by rw [← ht]; rfl, by rw [← ht]; rfl, by rw [← ht]; rfl, by
    rw [← ht]; rfl, htr⟩
  have hround := h.answered htr
  have hwait : ∀ c, Waiting { t with pendingDeviceC := c } .flops := by
    intro c
    subst ht
    exact h.keep rfl rfl rfl rfl rfl htr (by simp [Action.isDone]) fun _ _ => ⟨rfl, hround⟩
  have hlive : t.state.terminal = false := (hwait none).live
  split
  · exact hopen.fail hlive
  split
  · exact .waiting .flops (hwait _)
  split
  · exact .waiting .flops (hwait t.pendingDeviceC)
  · refine hopen.verify hlive (hwait none).enabled ?_ _ _ _
    subst ht
    exact hround

/-- The reference GEMM completes while the session waits. -/
theorem Waiting.onReference (h : s.Waiting p) (r : ReferenceDone F) : Inv (s.onReference r) := by
  have hkeep : ∀ c b, Waiting { s with refC := c, refCReady := b } p := fun c b =>
    h.keep rfl rfl rfl rfl rfl (append_nil _).symm nofun h.result
  unfold DeviceMeasurementSession.onReference
  split
  · dsimp only
    split
    · exact .waiting p (hkeep _ _)
    next devC hc =>
      obtain ⟨rfl, hround⟩ := h.result devC hc
      refine Open.verify ?_ ?_ ?_ ?_ _ _ _
      · exact ⟨h.onDone, h.silent⟩
      · exact h.live
      · exact h.enabled
      · exact hround
  · dsimp only
    split
    · refine Open.fail ?_ h.live
      exact ⟨h.onDone, h.silent⟩
    · exact .waiting p (hkeep _ _)

/-- A response is ignored unless it answers the probe in flight. -/
theorem onProbeFlopsResponse_ignored {view : FlopsResponseView}
    (h : ¬ (s.state = .flopsPending ∧ view.probeId = s.inFlightProbeId)) :
    (s.onProbeFlopsResponse env (some view)).2 = s := by
  simp only [onProbeFlopsResponse, if_neg h]

theorem verify_of_terminal (hs : s.state.terminal = true) (flops : F) (cref cdev : List F) :
    (s.verify flops cref cdev).cfg = s.cfg ∧ (s.verify flops cref cdev).state = s.state ∧
      (s.verify flops cref cdev).trace = s.trace ++ [.compare cref cdev] := by
  rw [verify, finish_of_terminal]
  · exact ⟨rfl, rfl, rfl⟩
  · exact hs

/-- An ended session still takes the result of the reference, and compares it. -/
theorem Outcome.onReference (h : Outcome s) (hs : s.state.terminal = true) (r : ReferenceDone F) :
    Inv (s.onReference r) := by
  unfold DeviceMeasurementSession.onReference
  split
  · dsimp only
    split
    · exact .ended hs (h.extend rfl rfl (append_nil _).symm nofun)
    next c _ _ _ devC _ =>
      obtain ⟨hc, hst, htr⟩ := verify_of_terminal
        (s := { s with refC := some c, refCReady := true, pendingDeviceC := none }) hs
        (Double.ofNat 2 * Double.ofNat s.cfg.flopsMatrixDim * Double.ofNat s.cfg.flopsMatrixDim *
          Double.ofNat s.cfg.flopsMatrixDim / Double.max s.flopsElapsedSec Double.nano) c devC
      refine .ended (hst.symm ▸ hs) (h.extend hc hst htr fun a ha => ?_)
      rw [mem_singleton.mp ha]
      exact ⟨rfl, rfl⟩
  · dsimp only
    split
    next hf => rw [hf] at hs; cases hs
    · exact .ended hs (h.extend rfl rfl (append_nil _).symm nofun)

/-! ## Runs -/

/-- A session in one of the waiting states waits for that probe. -/
theorem Inv.waiting_of_state (h : Inv s) (hs : s.state = p.pending) : s.Waiting p := by
  cases h with
  | fresh h => exact (pending_ne_idle p (hs.symm.trans h.state)).elim
  | waiting q h =>
    obtain rfl := pending_inj (h.state.symm.trans hs)
    exact h
  | ended ht _ =>
    rw [hs, pending_terminal] at ht
    cases ht

/-- A session that can be started is new. -/
theorem Inv.fresh_of_state (h : Inv s) (hs : s.state = .idle) : s.Fresh := by
  cases h with
  | fresh h => exact h
  | waiting p h => exact (pending_ne_idle p (h.state.symm.trans hs)).elim
  | ended ht _ =>
    rw [hs] at ht
    cases ht

omit [Double F] in
theorem Echo.stepOk_iff (h : Echo e p (some view) env) :
    s.StepOk e ↔ (s.state = p.pending ∧ view.probeId = s.inFlightProbeId →
      LaunchOk env (s.cfg.next (some p))) := by
  cases h <;> exact Iff.rfl

/-- An event that meets the condition keeps the invariant. -/
theorem Inv.handle (h : Inv s) (he : s.Enabled e) (hok : s.StepOk e) : Inv (s.handle e) := by
  rcases e.cases_echo with ⟨env, rfl⟩ | ⟨p, view, env, hp⟩ | ⟨_ | view, env, rfl⟩ | rfl | ⟨r, rfl⟩
  · have hf := h.fresh_of_state he
    rw [DeviceMeasurementSession.handle, start_eq hf]
    exact launch_inv (fun q hq => hf.ready hq) hok
  · rcases hp.handle_or s with heq | ⟨v, rfl, hv⟩
    · rwa [heq]
    · rw [hp.handle_eq hv]
      exact launch_inv (fun q hq => (h.waiting_of_state hv.1).ready (takes_takeEcho s env p) hq)
        (hp.stepOk_iff.mp hok hv)
  · exact h
  · by_cases hv : s.state = .flopsPending ∧ view.probeId = s.inFlightProbeId
    · exact (h.waiting_of_state (p := .flops) hv.1).onProbeFlopsResponse hv.2
    · rwa [DeviceMeasurementSession.handle, onProbeFlopsResponse_ignored hv]
  · cases h with
    | fresh h => exact (he.1 h.state).elim
    | waiting p h =>
      refine Open.fail ?_ h.live
      exact ⟨h.onDone, h.silent⟩
    | ended hs h =>
      rw [DeviceMeasurementSession.handle, onTimeout, finish_of_terminal (by exact hs)]
      exact .ended hs (h.extend rfl rfl (append_nil _).symm nofun)
  · cases h with
    | fresh h => exact (he h.state).elim
    | waiting p h => exact h.onReference r
    | ended hs h => exact h.onReference hs r

/-- Only an event that meets the condition keeps the outcome. -/
theorem Inv.stepOk (h : Inv s) (he : s.Enabled e) (ho : Outcome (s.handle e)) : s.StepOk e := by
  rcases e.cases_echo with ⟨env, rfl⟩ | ⟨p, _ | view, env, hp⟩ | ⟨view, env, rfl⟩ | rfl | ⟨r, rfl⟩
  · have hf := h.fresh_of_state he
    rw [DeviceMeasurementSession.handle, start_eq hf] at ho
    exact Open.launchOk ⟨rfl, by simp [hf.trace]⟩ ho
  · cases hp <;> trivial
  · refine hp.stepOk_iff.mpr fun hv => ?_
    rw [hp.handle_eq hv] at ho
    exact ((h.waiting_of_state hv.1).opened (takes_takeEcho s env p)).launchOk ho
  · trivial
  · trivial
  · trivial

/-- The runs in which a session keeps its word are those in which the last echo probe is always
followed by a FLOPS probe, and no reference GEMM fails at once. -/
theorem outcome_iff (cfg : Config F) (hp : cfg.probes ≠ []) (events : List (Event F))
    (he : Run.Along handle Enabled (new cfg) events) :
    Run.Always handle Outcome (new cfg) events ↔ Run.Along handle StepOk (new cfg) events :=
  Run.always_iff_along (fun _ => Inv.outcome) (fun _ _ h => h.handle) (fun _ _ h => h.stepOk) he
    (.fresh ⟨rfl, hp, rfl, rfl, rfl⟩)

end Phases

/-! ## Two runs -/

def latencyOnly : Config Float := { enableLatency := true, flopsTolerance := 0 }

/-- The device answers the only probe, and `on_done` is not called. -/
theorem latencyOnly_unreported :
    let run : List (Event Float) := [.start {}, .latencyResponse (some ⟨1, []⟩) {}]
    Run.Along handle Enabled (new latencyOnly) run ∧
      (Run.exec handle (new latencyOnly) run).state = .done ∧
      (Run.exec handle (new latencyOnly) run).trace.countP Action.isDone = 0 ∧
      ¬ Run.Always handle Outcome (new latencyOnly) run := by
  refine ⟨by decide, rfl, rfl, fun h => ?_⟩
  exact nomatch h.last.once

def flopsOnly : Config Float := { enableFlops := true, flopsMatrixDim := 0, flopsTolerance := 0 }

/-- The device answers before the reference GEMM completes, and the session ends with `DONE`. -/
theorem flopsOnly_reported :
    let run : List (Event Float) :=
      [.start {}, .flopsResponse (some ⟨1, []⟩) {}, .reference ⟨true, some []⟩]
    Run.Always handle Outcome (new flopsOnly) run ∧
      (Run.exec handle (new flopsOnly) run).state = .done :=
  ⟨(outcome_iff flopsOnly (by decide) _ (by decide)).mpr (by decide), rfl⟩

end Morphling.DeviceMeasurementSession
