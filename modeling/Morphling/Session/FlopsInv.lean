import Morphling.Session.Outcome

/-!
# The comparison of the FLOPS probe

What the reports of a session say about the answers of the device, where every reference result is
one and the same list `C`.

* `FlopsInv`, `flopsInv_exec`: a report with `measured_flops_verified` stands for an answer that
  agrees with `C`, the last one that the session took. The device may answer as it likes.
* `endedVerified_exec`: where the answers agree with `C`, a session that takes one and gets the
  reference ends with such a report, whichever comes first.

The session compares in two places, one for each order in which the answer and the reference
arrive; both are `verify`. What the rest of the handlers does to the fields of the FLOPS probe is
said once, by `Keeps`.
-/

namespace Morphling.DeviceMeasurementSession

open List MeasurementState

variable {F : Type*}

/-- The results of the reference GEMM that come with an event. -/
def Event.references : Event F → List (ReferenceDone F)
  | .start env | .latencyResponse _ env | .bandwidthResponse _ env | .flopsResponse _ env =>
    env.reference.toList
  | .timeout => []
  | .reference r => [r]

/-- Every result of the reference that comes with the event is `C`, unless it is an error. -/
def Event.ReferencesAre (C : List F) (e : Event F) : Prop :=
  ∀ r ∈ e.references, ∀ c, r.ok = true → r.c = some c → c = C

/-- The response that an event brings to the FLOPS probe in flight. -/
def answers (s : DeviceMeasurementSession F) : Event F → Option FlopsResponseView
  | .flopsResponse (some view) _ =>
    if s.state = .flopsPending ∧ view.probeId = s.inFlightProbeId then some view else none
  | _ => none

/-- A part of a handler that compares nothing: it may forget results, and it may end the session. -/
structure Keeps (s t : DeviceMeasurementSession F) : Prop where
  cfg : t.cfg = s.cfg
  reference : t.refCReady = true → s.refCReady = true ∧ t.refC = s.refC
  result : t.pendingDeviceC = s.pendingDeviceC ∨ t.pendingDeviceC = none
  measured : t.measured.measuredFlopsVerified = s.measured.measuredFlopsVerified
  ended : s.state.terminal = true → t.state.terminal = true
  opened : t.state.terminal = true ∨ t.onDone = s.onDone
  trace : s.trace <+: t.trace
  reported : ∀ r, .done r ∈ t.trace → .done r ∈ s.trace ∨ s.state.terminal = false ∧
    t.state.terminal = true ∧
    r.measuredProfile.measuredFlopsVerified = s.measured.measuredFlopsVerified

variable {s t u : DeviceMeasurementSession F} {env : Env F} {p : Probe}

namespace Keeps

theorem trans (h : Keeps s t) (h' : Keeps t u) : Keeps s u where
  cfg := h'.cfg.trans h.cfg
  reference hu := by
    obtain ⟨ht, hrt⟩ := h'.reference hu
    obtain ⟨hs, hrs⟩ := h.reference ht
    exact ⟨hs, hrt.trans hrs⟩
  result := h'.result.elim (fun e => e ▸ h.result) .inr
  measured := h'.measured.trans h.measured
  ended hs := h'.ended (h.ended hs)
  opened := h'.opened.elim .inl fun e => h.opened.imp h'.ended e.trans
  trace := h.trace.trans h'.trace
  reported r hr := by
    rcases h'.reported r hr with hr | ⟨ht, hu, e⟩
    · exact (h.reported r hr).imp id fun ⟨hs, ht, e⟩ => ⟨hs, h'.ended ht, e⟩
    · refine .inr ⟨Bool.eq_false_iff.mpr fun hs => ?_, hu, e.trans h.measured⟩
      cases ht.symm.trans (h.ended hs)

theorem log {a : Action F} (ha : a.isDone = false) : Keeps s (s.log a) where
  cfg := rfl
  reference h := ⟨h, rfl⟩
  result := .inl rfl
  measured := rfl
  ended h := h
  opened := .inr rfl
  trace := prefix_append _ _
  reported r hr := by
    rcases mem_append.mp hr with hr | hr
    · exact .inl hr
    · rw [← mem_singleton.mp hr] at ha
      cases ha

/-- A change to the fields that only the measurement reads. -/
theorem of_eq (hc : t.cfg = s.cfg) (hr : t.refCReady = s.refCReady) (hC : t.refC = s.refC)
    (hp : t.pendingDeviceC = s.pendingDeviceC)
    (hm : t.measured.measuredFlopsVerified = s.measured.measuredFlopsVerified)
    (hs : s.state.terminal = true → t.state.terminal = true) (hd : t.onDone = s.onDone)
    (ht : t.trace = s.trace) : Keeps s t :=
  ⟨hc, fun h => ⟨hr ▸ h, hC⟩, .inl hp, hm, hs, .inr hd, ht ▸ prefix_rfl,
    fun _ h => .inl (ht ▸ h)⟩

theorem cancelTimer : Keeps s s.cancelTimer := of_eq rfl rfl rfl rfl rfl id rfl rfl

theorem finish (ok : Bool) : Keeps s (s.finish ok) := by
  unfold DeviceMeasurementSession.finish
  split
  · exact of_eq rfl rfl rfl rfl rfl id rfl rfl
  next hs =>
    have hterm : (if ok then done else .failed).terminal = true := by
      cases ok <;> rfl
    cases hd : s.onDone
    · exact of_eq rfl rfl rfl rfl rfl (fun h => (hs h).elim) hd.symm rfl
    · refine ⟨rfl, fun h => ⟨h, rfl⟩, .inl rfl, rfl, fun h => (hs h).elim, .inl hterm,
        prefix_append _ _, fun r hr => ?_⟩
      rcases mem_append.mp hr with hr | hr
      · exact .inl hr
      · cases mem_singleton.mp hr
        exact .inr ⟨Bool.eq_false_iff.mpr hs, hterm, rfl⟩

theorem transmit (env : Env F) (p : Probe) : Keeps s (s.transmit env p) := by
  have harm : Keeps s { s with tSend := env.sentAt }.armTimer := by
    unfold armTimer
    dsimp only
    split
    · have htime : Keeps s { s with tSend := env.sentAt, timerArmed := true } :=
        of_eq rfl rfl rfl rfl rfl id rfl rfl
      exact htime.trans (log rfl)
    · exact of_eq rfl rfl rfl rfl rfl id rfl rfl
  unfold DeviceMeasurementSession.transmit
  dsimp only
  split
  · exact harm.trans (log rfl)
  · exact ((harm.trans (log rfl)).trans cancelTimer).trans (finish false)

theorem enter (hs : s.state.terminal = false) (p : Probe) : Keeps s (s.enter p) :=
  of_eq rfl rfl rfl rfl rfl (fun h => nomatch hs.symm.trans h) rfl rfl

end Keeps

variable [Double F] {cfg : Config F} {C cref cdev : List F} {v : Option FlopsResponseView}
  {events : List (Event F)} {view : FlopsResponseView}

/-- The response has the size of the matrix, and the comparison with `C` accepts it. -/
def Agrees (cfg : Config F) (C : List F) (view : FlopsResponseView) : Prop :=
  view.matrixC.length = cfg.flopsMatrixDim * cfg.flopsMatrixDim * 4 ∧
    verified cfg C (deviceC cfg.flopsMatrixDim view.matrixC) = true

/-- The invariant of a started session whose reference results are `C`; `v` is the last response
that it took for its FLOPS probe. -/
structure FlopsInv (cfg : Config F) (C : List F) (s : DeviceMeasurementSession F)
    (v : Option FlopsResponseView) : Prop where
  config : s.cfg = cfg
  opened : s.state.terminal = true ∨ s.onDone = true
  reference : s.refCReady = true → s.refC = some C
  /-- A result that waits for the reference is that of the last response. -/
  result : s.state.terminal = false → ∀ d, s.pendingDeviceC = some d → ∃ view, v = some view ∧
    view.matrixC.length = cfg.flopsMatrixDim * cfg.flopsMatrixDim * 4 ∧
    deviceC cfg.flopsMatrixDim view.matrixC = d
  measured : s.measured.measuredFlopsVerified = true → s.state.terminal = true
  reported : ∀ r, .done r ∈ s.trace → s.state.terminal = true ∧
    (r.measuredProfile.measuredFlopsVerified = true → ∃ view, v = some view ∧ Agrees cfg C view)

namespace FlopsInv

theorem keeps (h : FlopsInv cfg C s v) (hk : Keeps s t) : FlopsInv cfg C t v where
  config := hk.cfg.trans h.config
  opened := hk.opened.elim .inl fun e => h.opened.imp hk.ended e.trans
  reference ht := by
    obtain ⟨hs, e⟩ := hk.reference ht
    exact e.trans (h.reference hs)
  result ht d hd := by
    rcases hk.result with e | e
    · exact h.result (Bool.eq_false_iff.mpr fun hs => nomatch ht.symm.trans (hk.ended hs)) d
        (e ▸ hd)
    · cases e.symm.trans hd
  measured ht := hk.ended (h.measured (hk.measured ▸ ht))
  reported r hr := by
    rcases hk.reported r hr with hr | ⟨hs, ht, e⟩
    · exact (h.reported r hr).imp hk.ended id
    · exact ⟨ht, fun hv => nomatch hs.symm.trans (h.measured (e ▸ hv))⟩

/-- Both results are there: the session ends with what the comparison says. Only a session that had
not ended takes a new response for it. -/
theorem verify {v₀ : Option FlopsResponseView} (h : FlopsInv cfg C s v₀)
    (hsame : s.state.terminal = true → v₀ = v) (flops : F)
    (hv : s.state.terminal = false → verified s.cfg cref cdev = true →
      ∃ view, v = some view ∧ Agrees cfg C view) : FlopsInv cfg C (s.verify flops cref cdev) v := by
  unfold DeviceMeasurementSession.verify
  generalize verified s.cfg cref cdev = ok at hv
  let t : DeviceMeasurementSession F := { s.log (.compare cref cdev) with
    measured := { s.measured with
      measuredFlops := Double.toUInt64 flops, measuredFlopsVerified := ok } }
  have hk : Keeps t (t.finish ok) := Keeps.finish ok
  have hend : (t.finish ok).state.terminal = true := finish_terminal ok
  refine ⟨hk.cfg.trans h.config, .inl hend, fun ht => ?_, fun ht => ?_, fun _ => hend,
    fun r hr => ⟨hend, fun hr' => ?_⟩⟩
  · obtain ⟨hs, e⟩ := hk.reference ht
    exact e.trans (h.reference hs)
  · cases hend.symm.trans ht
  · rcases hk.reported r hr with hr | ⟨hs, -, e⟩
    · have hr : .done r ∈ s.trace :=
        (mem_append.mp hr).resolve_right fun h => nomatch mem_singleton.mp h
      rw [← hsame (h.reported r hr).1]
      exact (h.reported r hr).2 hr'
    · exact hv hs (e.symm.trans hr')

/-- A result of the reference is `C`, unless it is an error. -/
theorem onReference (h : FlopsInv cfg C s v) {r : ReferenceDone F}
    (hr : ∀ c, r.ok = true → r.c = some c → c = C) : FlopsInv cfg C (s.onReference r) v := by
  unfold DeviceMeasurementSession.onReference
  split
  next c hok hc =>
    obtain rfl := hr c hok hc
    dsimp only
    split
    · exact ⟨h.config, h.opened, fun _ => rfl, h.result, h.measured, h.reported⟩
    next d hd =>
      have h' : FlopsInv cfg c { s with refC := some c, refCReady := true, pendingDeviceC := none } v :=
        ⟨h.config, h.opened, fun _ => rfl, nofun, h.measured, h.reported⟩
      refine h'.verify (fun _ => rfl) _ fun hs hv => ?_
      obtain ⟨view, rfl, hlen, rfl⟩ := h.result hs d hd
      exact ⟨view, rfl, hlen, h.config ▸ hv⟩
  · have hk : Keeps s { s with refCReady := false } :=
      ⟨rfl, nofun, .inl rfl, rfl, id, .inr rfl, prefix_rfl, fun _ => .inl⟩
    dsimp only
    split
    · exact h.keeps ((hk.trans Keeps.cancelTimer).trans (Keeps.finish false))
    · exact h.keeps hk

theorem startFlopsProbe (h : FlopsInv cfg C s v) (hs : s.state.terminal = false)
    (hr : (Event.start env).ReferencesAre C) : FlopsInv cfg C (s.startFlopsProbe env) v := by
  have hreset : Keeps (s.enter .flops) (s.enter .flops).resetFlops :=
    ⟨rfl, nofun, .inr rfl, rfl, id, .inr rfl, prefix_rfl, fun _ => .inl⟩
  have h' := h.keeps ((Keeps.enter hs .flops).trans hreset)
  unfold DeviceMeasurementSession.startFlopsProbe
  dsimp only
  split
  · exact h'.keeps (Keeps.transmit env .flops)
  next r hr' =>
    exact (h'.onReference (hr r (Option.mem_toList.mpr hr'))).keeps (Keeps.transmit env .flops)

theorem launch (h : FlopsInv cfg C s v) (hs : s.state.terminal = false) (o : Option Probe)
    (hr : (Event.start env).ReferencesAre C) : FlopsInv cfg C (s.launch env o) v := by
  rcases o with _ | _ | _ | _
  · have hdone : Keeps s { s with state := .done } :=
      Keeps.of_eq rfl rfl rfl rfl rfl (fun _ => rfl) rfl rfl
    exact h.keeps (hdone.trans (Keeps.finish true))
  · exact h.keeps ((Keeps.enter hs .latency).trans (Keeps.transmit env .latency))
  · exact h.keeps ((Keeps.enter hs .bandwidth).trans (Keeps.transmit env .bandwidth))
  · exact h.startFlopsProbe hs hr

/-- The first call of `Start`, on a session that reports to `on_done`. -/
theorem start (h : FlopsInv cfg C { s with onDone := true } v) (hs : s.state = .idle)
    (hr : (Event.start env).ReferencesAre C) : FlopsInv cfg C (s.start env) v := by
  have hlive : { s with onDone := true }.state.terminal = false := by rw [hs]; rfl
  unfold DeviceMeasurementSession.start
  dsimp only
  rw [if_neg (not_not_intro hs)]
  split
  · refine ⟨h.config, .inl rfl, h.reference, nofun, fun _ => rfl, fun r hr => ⟨rfl, fun hv => ?_⟩⟩
    rcases mem_append.mp hr with hr | hr
    · exact (h.reported r hr).2 hv
    · cases mem_singleton.mp hr
      cases hlive.symm.trans (h.measured hv)
  split
  · exact h.launch hlive (some .latency) hr
  split
  · exact h.launch hlive (some .bandwidth) hr
  · exact h.launch hlive (some .flops) hr

section Step
variable (h : FlopsInv cfg C s v)
include h

theorem take (p : Probe) (id : Nat) : FlopsInv cfg C (s.take p id) v :=
  h.keeps (Keeps.cancelTimer.trans (Keeps.log rfl))

theorem echo {e : Event F} {view : Option EchoView} (hp : Echo e p view env)
    (hr : e.ReferencesAre C) : FlopsInv cfg C (s.handle e) v := by
  rcases hp.handle_or s with heq | ⟨view, rfl, hv⟩
  · rwa [heq]
  have hlive : (s.takeEcho env p).state.terminal = false := by
    cases p <;> exact (congrArg terminal hv.1)
  have hk : Keeps (s.take p s.inFlightProbeId) (s.takeEcho env p) := by
    cases p <;> exact Keeps.of_eq rfl rfl rfl rfl rfl id rfl rfl
  rw [hp.handle_eq hv]
  refine ((h.take p s.inFlightProbeId).keeps hk).launch hlive _ ?_
  cases hp <;> exact hr

/-- A session that has not ended takes a new response, for which an earlier one is forgotten. -/
theorem renew (hs : s.state.terminal = false) {d : Option (List F)}
    (hd : ∀ d' ∈ d, view.matrixC.length = cfg.flopsMatrixDim * cfg.flopsMatrixDim * 4 ∧
      deviceC cfg.flopsMatrixDim view.matrixC = d') :
    FlopsInv cfg C { s with pendingDeviceC := d } (some view) where
  config := h.config
  opened := h.opened
  reference := h.reference
  result _ d' hd' := ⟨view, rfl, hd d' hd'⟩
  measured := h.measured
  reported r hr := nomatch hs.symm.trans (h.reported r hr).1

/-- The session fails on a response of the wrong size. -/
theorem reject (hs : s.state.terminal = false) (view : FlopsResponseView) :
    FlopsInv cfg C (s.finish false) (some view) := by
  have hk : Keeps s (s.finish false) := Keeps.finish false
  have hend : (s.finish false).state.terminal = true := finish_terminal false
  refine ⟨hk.cfg.trans h.config, .inl hend, (h.keeps hk).reference, fun ht => ?_, fun _ => hend,
    fun r hr => ⟨hend, fun hv => ?_⟩⟩
  · cases hend.symm.trans ht
  · rcases hk.reported r hr with hr | ⟨-, -, e⟩
    · cases hs.symm.trans (h.reported r hr).1
    · cases hs.symm.trans (h.measured (e ▸ hv))

theorem onProbeFlopsResponse (view : Option FlopsResponseView) :
    FlopsInv cfg C (s.onProbeFlopsResponse env view).2
      ((s.answers (.flopsResponse view env)).or v) := by
  rcases view with _ | view
  · exact h
  by_cases hv : s.state = .flopsPending ∧ view.probeId = s.inFlightProbeId
  · simp only [answers, DeviceMeasurementSession.onProbeFlopsResponse, if_pos hv, Option.some_or]
    generalize ht : (s.take .flops view.probeId).measureFlops env = t
    have h' : FlopsInv cfg C t v := by
      subst ht
      exact (h.take .flops view.probeId).keeps (Keeps.of_eq rfl rfl rfl rfl rfl id rfl rfl)
    have hlive : t.state.terminal = false := by
      subst ht
      exact congrArg terminal hv.1
    obtain rfl := h'.config
    split
    · exact h'.reject hlive view
    next hlen =>
      have hlen := not_not.mp hlen
      split
      · exact h'.renew hlive (by rintro _ ⟨⟩; exact ⟨hlen, rfl⟩)
      next hready =>
        have hC : t.refC = some C := h'.reference (by simpa using hready)
        simp only [hC]
        exact h'.verify (fun hs => by cases hlive.symm.trans hs) _ fun _ hv => ⟨view, rfl, hlen, hv⟩
  · rw [onProbeFlopsResponse_ignored hv]
    simp only [answers, if_neg hv, Option.none_or]
    exact h

/-- A timeout fails the session. -/
theorem onTimeout : FlopsInv cfg C s.onTimeout v :=
  h.keeps ((Keeps.cancelTimer).trans (Keeps.finish false))

theorem handle {e : Event F} (he : s.Enabled e) (hr : e.ReferencesAre C) :
    FlopsInv cfg C (s.handle e) ((s.answers e).or v) := by
  rcases e.cases_echo with ⟨env, rfl⟩ | ⟨p, view, env, hp⟩ | ⟨view, env, rfl⟩ | rfl | ⟨r, rfl⟩
  · have h' : FlopsInv cfg C { s with onDone := true } v :=
      ⟨h.config, .inr rfl, h.reference, h.result, h.measured, h.reported⟩
    exact h'.start he hr
  · have hnone : s.answers e = none := by cases hp <;> rfl
    rw [hnone, Option.none_or]
    exact h.echo hp hr
  · exact h.onProbeFlopsResponse view
  · exact h.onTimeout
  · exact h.onReference (hr r (mem_singleton_self r))

end Step

end FlopsInv

/-! ## Runs -/

/-- One event, with the last response that the session took for its FLOPS probe. -/
def handleAnswer (x : DeviceMeasurementSession F × Option FlopsResponseView) (e : Event F) :
    DeviceMeasurementSession F × Option FlopsResponseView :=
  (x.1.handle e, (x.1.answers e).or x.2)

/-- The last response that a session takes for its FLOPS probe in a run. -/
def lastAnswer (s : DeviceMeasurementSession F) (events : List (Event F)) :
    Option FlopsResponseView :=
  (Run.exec handleAnswer (s, none) events).2

theorem exec_handleAnswer (x : DeviceMeasurementSession F × Option FlopsResponseView)
    (events : List (Event F)) :
    (Run.exec handleAnswer x events).1 = Run.exec handle x.1 events := by
  induction events generalizing x with
  | nil => rfl
  | cons e events ih => exact ih (handleAnswer x e)

theorem along_handleAnswer {P : DeviceMeasurementSession F → Event F → Prop}
    (x : DeviceMeasurementSession F × Option FlopsResponseView) (events : List (Event F)) :
    Run.Along handleAnswer (fun x e => P x.1 e) x events ↔ Run.Along handle P x.1 events := by
  induction events generalizing x with
  | nil => exact Iff.rfl
  | cons e events ih => exact and_congr Iff.rfl (ih (handleAnswer x e))

theorem new_start (h : (Event.start env).ReferencesAre C) :
    FlopsInv cfg C ((new cfg).start env) none := by
  have h' : FlopsInv cfg C { (new cfg : DeviceMeasurementSession F) with onDone := true } none :=
    ⟨rfl, .inr rfl, nofun, nofun, nofun, nofun⟩
  exact h'.start rfl h

theorem flopsInv_exec
    (he : Run.Along handle (fun s e => s.Enabled e ∧ e.ReferencesAre C) (new cfg) events) :
    Run.exec handleAnswer (new cfg, none) events = (new cfg, none) ∨
      FlopsInv cfg C (Run.exec handle (new cfg) events) (lastAnswer (new cfg) events) := by
  have hstep : ∀ (x : DeviceMeasurementSession F × Option FlopsResponseView) (e : Event F),
      (x = (new cfg, none) ∨ FlopsInv cfg C x.1 x.2) → x.1.Enabled e ∧ e.ReferencesAre C →
      handleAnswer x e = (new cfg, none) ∨
        FlopsInv cfg C (handleAnswer x e).1 (handleAnswer x e).2 := by
    rintro x e (rfl | h) ⟨hen, href⟩
    · -- a new session can only be started
      cases e with
      | start env =>
        exact .inr (new_start href)
      | timeout => exact (hen.1 rfl).elim
      | _ => exact (hen rfl).elim
    · exact .inr (h.handle hen href)
  have h := ((along_handleAnswer (new cfg, none) events).mpr he).always
    (I := fun x => x = (new cfg, none) ∨ FlopsInv cfg C x.1 x.2) hstep (.inl rfl)
  rw [← exec_handleAnswer (new cfg, none) events]
  exact h.last

/-! ## An honest answer -/

/-- The session has ended and reported a verified result. -/
def Verified (s : DeviceMeasurementSession F) : Prop :=
  ∃ r, .done r ∈ s.trace ∧ r.ok = true ∧ r.measuredProfile.measuredFlopsVerified = true

/-- The session has ended so. -/
structure EndedVerified (s : DeviceMeasurementSession F) : Prop where
  terminal : s.state.terminal = true
  verified : Verified s

/-- The session has taken an answer that agrees with `C`, and waits for the reference. No timer
runs. -/
structure AwaitsReference (cfg : Config F) (C : List F) (s : DeviceMeasurementSession F) :
    Prop where
  config : s.cfg = cfg
  state : s.state = .flopsPending
  timer : s.timerArmed = false
  onDone : s.onDone = true
  notReady : s.refCReady = false
  result : ∃ d, s.pendingDeviceC = some d ∧ verified cfg C d = true

theorem endedVerified_verify (hs : s.state.terminal = false) (hd : s.onDone = true) (flops : F)
    (hv : verified s.cfg cref cdev = true) : EndedVerified (s.verify flops cref cdev) := by
  refine ⟨finish_terminal _, ?_⟩
  simp only [Verified, verify, hv, finish, log, hs, cancelTimer, hd]
  exact ⟨_, mem_append_right _ (mem_singleton_self _), rfl, rfl⟩

/-- The answer came first, and now the reference. -/
theorem AwaitsReference.onReference (h : AwaitsReference cfg C s) :
    EndedVerified (s.onReference ⟨true, some C⟩) := by
  obtain ⟨d, hd, hv⟩ := h.result
  simp only [DeviceMeasurementSession.onReference, hd]
  refine endedVerified_verify ?_ ?_ _ ?_
  · exact congrArg terminal h.state
  · exact h.onDone
  · rw [← h.config] at hv
    exact hv

variable (env) in
/-- The answer comes: the comparison is made at once, or when the reference comes. -/
theorem onProbeFlopsResponse_agrees (hc : s.cfg = cfg) (hd : s.onDone = true)
    (hC : s.refCReady = true → s.refC = some C) (hs : s.state = .flopsPending)
    (hid : view.probeId = s.inFlightProbeId) (hv : Agrees cfg C view) :
    if s.refCReady then EndedVerified (s.onProbeFlopsResponse env (some view)).2
    else AwaitsReference cfg C (s.onProbeFlopsResponse env (some view)).2 := by
  subst hc
  simp only [onProbeFlopsResponse, if_pos (And.intro hs hid)]
  generalize ht : (s.take .flops view.probeId).measureFlops env = t
  have htc : t.cfg = s.cfg := by subst ht; rfl
  have htd : t.onDone = true := by subst ht; exact hd
  have hts : t.state = .flopsPending := by subst ht; exact hs
  have htr : t.refCReady = s.refCReady := by subst ht; rfl
  have htC : t.refC = s.refC := by subst ht; rfl
  have htm : t.timerArmed = false := by subst ht; rfl
  rw [htc, if_neg (not_not_intro hv.1), htr]
  cases hready : s.refCReady with
  | true =>
    simp only [htC.trans (hC hready)]
    refine endedVerified_verify (by rw [hts]; rfl) htd _ ?_
    rw [htc]
    exact hv.2
  | false => exact ⟨rfl, hts, htm, htd, rfl, _, rfl, hv.2⟩

/-- Between the answer and the reference, nothing but a new answer of the device is taken. -/
theorem AwaitsReference.handle (h : AwaitsReference cfg C s) {e : Event F} (he : s.Enabled e)
    (href : ∀ r ∈ e.references, r = ⟨true, some C⟩) (hv : ∀ view ∈ s.answers e, Agrees cfg C view) :
    AwaitsReference cfg C (s.handle e) ∨ EndedVerified (s.handle e) := by
  rcases e.cases_echo with ⟨env, rfl⟩ | ⟨p, view, env, hp⟩ | ⟨_ | view, env, rfl⟩ | rfl | ⟨r, rfl⟩
  · cases h.state.symm.trans he
  · rcases hp.handle_or s with heq | ⟨view, -, hs, -⟩
    · exact .inl (heq.symm ▸ h)
    · cases hp <;> cases h.state.symm.trans hs
  · exact .inl h
  · by_cases hid : view.probeId = s.inFlightProbeId
    · have hC : s.refCReady = true → s.refC = some C := fun hr => by
        cases h.notReady.symm.trans hr
      have hview := hv view (if_pos ⟨h.state, hid⟩)
      have := onProbeFlopsResponse_agrees env h.config h.onDone hC h.state hid hview
      rw [h.notReady] at this
      exact .inl this
    · rw [DeviceMeasurementSession.handle, onProbeFlopsResponse_ignored fun hv => hid hv.2]
      exact .inl h
  · cases h.timer.symm.trans he.2
  · rw [href r (mem_singleton_self r)]
    exact .inr h.onReference

omit [Double F] in
theorem EndedVerified.keeps (h : EndedVerified s) (hk : Keeps s t) : EndedVerified t := by
  obtain ⟨r, hr, hok⟩ := h.verified
  exact ⟨hk.ended h.terminal, r, hk.trace.subset hr, hok⟩

theorem EndedVerified.verify (h : EndedVerified s) (flops : F) (cref cdev : List F) :
    EndedVerified (s.verify flops cref cdev) := by
  obtain ⟨r, hr, hok⟩ := h.verified
  obtain ⟨-, hs, ht⟩ := verify_of_terminal h.terminal flops cref cdev
  refine ⟨hs ▸ h.terminal, r, ?_, hok⟩
  rw [ht]
  exact mem_append_left _ hr

/-- A session that has ended keeps what it reported. -/
theorem EndedVerified.handle (h : EndedVerified s) {e : Event F} (he : s.Enabled e) :
    EndedVerified (s.handle e) := by
  have hne : ∀ {st : MeasurementState}, st.terminal = false → s.state ≠ st := by
    rintro st hst rfl
    cases hst.symm.trans h.terminal
  rcases e.cases_echo with ⟨env, rfl⟩ | ⟨p, view, env, hp⟩ | ⟨_ | view, env, rfl⟩ | rfl | ⟨r, rfl⟩
  · exact (hne rfl he).elim
  · rcases hp.handle_or s with heq | ⟨view, -, hs, -⟩
    · exact heq.symm ▸ h
    · exact (hne (pending_terminal p) hs).elim
  · exact h
  · rw [DeviceMeasurementSession.handle, onProbeFlopsResponse_ignored fun hv => hne rfl hv.1]
    exact h
  · exact h.keeps (Keeps.cancelTimer.trans (Keeps.finish false))
  · rw [DeviceMeasurementSession.handle, onReference]
    split
    · dsimp only
      split
      · exact ⟨h.terminal, h.verified⟩
      · refine EndedVerified.verify ?_ _ _ _
        exact ⟨h.terminal, h.verified⟩
    · dsimp only
      rw [if_neg (hne rfl)]
      exact ⟨h.terminal, h.verified⟩

theorem EndedVerified.exec (h : EndedVerified s)
    (he : Run.Along DeviceMeasurementSession.handle Enabled s events) :
    EndedVerified (Run.exec DeviceMeasurementSession.handle s events) :=
  (he.always (I := EndedVerified) (fun _ _ h he => h.handle he) h).last

/-- The reference gives `C`, and the device's answers agree with it. -/
def Agreeable (cfg : Config F) (C : List F) (s : DeviceMeasurementSession F) (e : Event F) : Prop :=
  s.Enabled e ∧ (∀ r ∈ e.references, r = ⟨true, some C⟩) ∧ ∀ view ∈ s.answers e, Agrees cfg C view

theorem Agreeable.referencesAre {e : Event F} (h : Agreeable cfg C s e) : e.ReferencesAre C := by
  intro r hr c _ hc
  rw [h.2.1 r hr] at hc
  exact (Option.some_inj.mp hc).symm

/-! ## The reference first -/

omit [Double F] in
@[simp] theorem finish_refCReady (ok : Bool) : (s.finish ok).refCReady = s.refCReady := by
  unfold finish
  split
  · rfl
  · cases s.onDone <;> rfl

/-- The FLOPS probe is in flight, or the session has ended. -/
def InProbe (s : DeviceMeasurementSession F) : Prop :=
  s.state = .flopsPending ∨ s.state.terminal = true

theorem onReference_inProbe (h : s.InProbe) : (s.onReference ⟨true, some C⟩).InProbe ∧
    (s.onReference ⟨true, some C⟩).refCReady = true := by
  unfold onReference
  dsimp only
  split
  · exact ⟨h, rfl⟩
  · exact ⟨.inr (finish_terminal _), finish_refCReady _⟩

variable (env) in
theorem onProbeFlopsResponse_inProbe (h : s.InProbe) (view : Option FlopsResponseView) :
    (s.onProbeFlopsResponse env view).2.InProbe ∧
      (s.onProbeFlopsResponse env view).2.refCReady = s.refCReady := by
  unfold onProbeFlopsResponse
  split
  · exact ⟨h, rfl⟩
  split
  · dsimp only
    split
    · exact ⟨.inr (finish_terminal _), finish_refCReady _⟩
    split
    · exact ⟨h, rfl⟩
    split
    · exact ⟨h, rfl⟩
    · exact ⟨.inr (finish_terminal _), finish_refCReady _⟩
  · exact ⟨h, rfl⟩

/-- From the start of the FLOPS probe on the session keeps the reference. -/
theorem InProbe.handle (h : s.InProbe) {e : Event F} (he : s.Enabled e)
    (href : ∀ r ∈ e.references, r = ⟨true, some C⟩) :
    (s.handle e).InProbe ∧
      ((s.refCReady = true ∨ ∃ r, e = .reference r) → (s.handle e).refCReady = true) := by
  rcases e.cases_echo with ⟨env, rfl⟩ | ⟨p, view, env, hp⟩ | ⟨view, env, rfl⟩ | rfl | ⟨r, rfl⟩
  · rw [InProbe, he] at h
    rcases h with h | h <;> cases h
  · rcases hp.handle_or s with heq | ⟨view, -, hs, -⟩
    · rw [heq]
      exact ⟨h, fun hready => hready.resolve_right (by rintro ⟨r, rfl⟩; cases hp)⟩
    · rw [InProbe, hs, pending_terminal] at h
      cases hp <;> simp [Probe.pending] at h
  · obtain ⟨h', hr⟩ := onProbeFlopsResponse_inProbe env h view
    exact ⟨h', fun hready => hr.trans (hready.resolve_right (by rintro ⟨_, ⟨⟩⟩))⟩
  · exact ⟨.inr (finish_terminal _), fun hready =>
      (finish_refCReady false).trans (hready.resolve_right (by rintro ⟨_, ⟨⟩⟩))⟩
  · rw [href r (mem_singleton_self r)]
    exact ⟨(onReference_inProbe h).1, fun _ => (onReference_inProbe h).2⟩

omit [Double F] in
theorem transmit_state (env : Env F) (p : Probe) :
    (s.transmit env p).state = s.state ∨ (s.transmit env p).state.terminal = true := by
  obtain ⟨t, heq, -, hs, -⟩ := s.transmit_eq env p
  rw [heq]
  split
  · exact .inl hs
  · exact .inr (finish_terminal _)

omit [Double F] in
theorem transmit_refCReady (env : Env F) (p : Probe) :
    (s.transmit env p).refCReady = s.refCReady := by
  have harm : { s with tSend := env.sentAt }.armTimer.refCReady = s.refCReady := by
    unfold armTimer
    dsimp only
    split <;> rfl
  unfold transmit
  dsimp only
  split
  · exact harm
  · exact (finish_refCReady false).trans harm

/-- A session that has just started its FLOPS probe has the reference that came at once. -/
theorem launch_refCReady {o : Option Probe} (hs : (s.launch env o).state = .flopsPending)
    (hr : env.reference = some ⟨true, some C⟩) : (s.launch env o).refCReady = true := by
  have hterm : ∀ {t : DeviceMeasurementSession F}, t.state = .flopsPending →
      t.state.terminal ≠ true := by
    intro t ht h
    rw [ht] at h
    cases h
  rcases o with _ | _ | _ | _
  · exact (hterm hs (finish_terminal true)).elim
  · rcases transmit_state (s := s.enter .latency) env .latency with h | h
    · cases h.symm.trans hs
    · exact (hterm hs h).elim
  · rcases transmit_state (s := s.enter .bandwidth) env .bandwidth with h | h
    · cases h.symm.trans hs
    · exact (hterm hs h).elim
  · simp only [launch, startFlopsProbe, hr]
    exact transmit_refCReady env .flops

/-! ## Runs with an honest device -/

/-- The event brings the reference of the FLOPS probe: with the start of the probe, or later. -/
def Delivers (s : DeviceMeasurementSession F) : Event F → Prop
  | .reference _ => s.state = .flopsPending
  | e => e.references ≠ [] ∧ s.state ≠ .flopsPending ∧ (s.handle e).state = .flopsPending

/-- The session takes the event as the answer to its FLOPS probe. -/
def TakesAnswer (s : DeviceMeasurementSession F) (e : Event F) : Prop := (s.answers e).isSome = true

variable (env) in
theorem start_cases (hs : s.state = .idle) : (s.start env).state = .done ∨
    ∃ p, s.start env = { s with onDone := true }.launch env (some p) := by
  unfold start
  dsimp only
  rw [if_neg (not_not_intro hs)]
  split
  · exact .inl rfl
  split
  · exact .inr ⟨.latency, rfl⟩
  split
  · exact .inr ⟨.bandwidth, rfl⟩
  · exact .inr ⟨.flops, rfl⟩

/-- With the reference of its FLOPS probe, the session is in the probe and has the reference. -/
theorem Delivers.handle {e : Event F} (h : s.Delivers e) (he : s.Enabled e)
    (href : ∀ r ∈ e.references, r = ⟨true, some C⟩) :
    (s.handle e).InProbe ∧ (s.handle e).refCReady = true := by
  have henv : ∀ {env : Env F}, (∀ r ∈ env.reference.toList, r = ⟨true, some C⟩) →
      env.reference.toList ≠ [] → env.reference = some ⟨true, some C⟩ := by
    intro env href hne
    rcases hr : env.reference with _ | r
    · exact (hne (by rw [hr]; rfl)).elim
    · rw [href r (by rw [hr]; exact mem_singleton_self r)]
  rcases e.cases_echo with ⟨env, rfl⟩ | ⟨p, view, env, hp⟩ | ⟨view, env, rfl⟩ | rfl | ⟨r, rfl⟩
  · refine ⟨.inl h.2.2, ?_⟩
    have hs : (s.start env).state = .flopsPending := h.2.2
    rcases start_cases env he with hd | ⟨p, heq⟩
    · cases hd.symm.trans hs
    · rw [DeviceMeasurementSession.handle, heq]
      exact launch_refCReady (heq ▸ hs) (henv href h.1)
  · obtain ⟨hne, hnot, hs⟩ : e.references ≠ [] ∧ s.state ≠ .flopsPending ∧
        (s.handle e).state = .flopsPending := by cases hp <;> exact h
    refine ⟨.inl hs, ?_⟩
    rcases hp.handle_or s with heq | ⟨view, rfl, hv⟩
    · exact (hnot (heq ▸ hs)).elim
    · rw [hp.handle_eq hv] at hs ⊢
      exact launch_refCReady hs (by cases hp <;> exact henv href hne)
  · -- a response to the FLOPS probe starts none
    have hs : (s.onProbeFlopsResponse env view).2.state = .flopsPending := h.2.2
    rcases view with _ | view
    · exact (h.2.1 hs).elim
    · rw [onProbeFlopsResponse_ignored fun hv => h.2.1 hv.1] at hs
      exact (h.2.1 hs).elim
  · exact (h.1 rfl).elim
  · rw [href r (mem_singleton_self r)]
    exact onReference_inProbe (.inl h)

omit [Double F] in
theorem TakesAnswer.exists_view {e : Event F} (h : s.TakesAnswer e) : ∃ view env,
    e = .flopsResponse (some view) env ∧ s.state = .flopsPending ∧
      view.probeId = s.inFlightProbeId ∧ s.answers e = some view := by
  unfold TakesAnswer answers at h
  split at h
  next view env =>
    split at h
    next hv => exact ⟨view, env, rfl, hv.1, hv.2, if_pos hv⟩
    · cases h
  · cases h

/-- With the answer the session ends, or it waits for the reference. -/
theorem FlopsInv.takesAnswer (h : FlopsInv cfg C s v) {e : Event F} (ha : s.TakesAnswer e)
    (he : Agreeable cfg C s e) : s.state = .flopsPending ∧
      if s.refCReady then EndedVerified (s.handle e) else AwaitsReference cfg C (s.handle e) := by
  obtain ⟨view, env, rfl, hs, hid, hv⟩ := ha.exists_view
  have hlive : s.state.terminal = false := by rw [hs]; rfl
  have hd : s.onDone = true := h.opened.resolve_left fun ht => nomatch hlive.symm.trans ht
  exact ⟨hs, onProbeFlopsResponse_agrees env h.config hd h.reference hs hid (he.2.2 view hv)⟩

/-- The answer after the reference. -/
theorem FlopsInv.exec_of_ready (h : FlopsInv cfg C s v) (hp : s.InProbe) (hr : s.refCReady = true)
    (he : Run.Along DeviceMeasurementSession.handle (Agreeable cfg C) s events)
    (ha : Run.Sometime DeviceMeasurementSession.handle TakesAnswer s events) :
    EndedVerified (Run.exec DeviceMeasurementSession.handle s events) := by
  induction events generalizing s v with
  | nil => exact ha.elim
  | cons e events ih =>
    rcases ha with ha | ha
    · have hend := (h.takesAnswer ha he.1).2
      rw [if_pos hr] at hend
      exact hend.exec (he.2.mono fun _ _ h => h.1)
    · obtain ⟨hp', hr'⟩ := hp.handle he.1.1 he.1.2.1
      exact ih (h.handle he.1.1 he.1.referencesAre) hp' (hr' (.inl hr)) he.2 ha

/-- The reference after the answer. -/
theorem AwaitsReference.exec (h : AwaitsReference cfg C s)
    (he : Run.Along DeviceMeasurementSession.handle (Agreeable cfg C) s events)
    (hd : Run.Sometime DeviceMeasurementSession.handle Delivers s events) :
    EndedVerified (Run.exec DeviceMeasurementSession.handle s events) := by
  induction events generalizing s with
  | nil => exact hd.elim
  | cons e events ih =>
    have hrest : EndedVerified (s.handle e) →
        EndedVerified (Run.exec DeviceMeasurementSession.handle (s.handle e) events) :=
      fun h => h.exec (he.2.mono fun _ _ h => h.1)
    rcases hd with hd | hd
    · cases e with
      | reference r =>
        refine hrest ?_
        rw [he.1.2.1 r (mem_singleton_self r)]
        exact h.onReference
      | _ => exact (hd.2.1 h.state).elim
    · rcases h.handle he.1.1 he.1.2.1 he.1.2.2 with h | h
      · exact ih h he.2 hd
      · exact hrest h

theorem FlopsInv.exec_of_agreeable (h : FlopsInv cfg C s v)
    (he : Run.Along DeviceMeasurementSession.handle (Agreeable cfg C) s events)
    (hd : Run.Sometime DeviceMeasurementSession.handle Delivers s events)
    (ha : Run.Sometime DeviceMeasurementSession.handle TakesAnswer s events) :
    EndedVerified (Run.exec DeviceMeasurementSession.handle s events) := by
  induction events generalizing s v with
  | nil => exact ha.elim
  | cons e events ih =>
    have h' := h.handle he.1.1 he.1.referencesAre
    rcases ha with ha | ha
    · obtain ⟨hs, hans⟩ := h.takesAnswer ha he.1
      split at hans
      · exact hans.exec (he.2.mono fun _ _ h => h.1)
      · refine hans.exec he.2 (hd.resolve_left fun hd => ?_)
        obtain ⟨_, _, rfl, -⟩ := ha.exists_view
        exact hd.2.1 hs
    · rcases hd with hd | hd
      · obtain ⟨hp, hr⟩ := hd.handle he.1.1 he.1.2.1
        exact h'.exec_of_ready hp hr he.2 ha
      · exact ih h' he.2 hd ha

/-- Where the reference is `C` and the answers agree with it, a session that gets both ends with a
verified result. -/
theorem endedVerified_exec (he : Run.Along handle (Agreeable cfg C) (new cfg) events)
    (hd : Run.Sometime handle Delivers (new cfg) events)
    (ha : Run.Sometime handle TakesAnswer (new cfg) events) :
    EndedVerified (Run.exec handle (new cfg) events) := by
  rcases events with _ | ⟨e, events⟩
  · exact ha.elim
  cases e with
  | start env =>
    have h : FlopsInv cfg C ((new cfg).handle (.start env)) none := new_start he.1.referencesAre
    rcases hd with hd | hd
    · obtain ⟨hp, hr⟩ := hd.handle he.1.1 he.1.2.1
      exact h.exec_of_ready hp hr he.2 (ha.resolve_left nofun)
    · exact h.exec_of_agreeable he.2 hd (ha.resolve_left nofun)
  | timeout => exact (he.1.1.1 rfl).elim
  | _ => exact (he.1.1 rfl).elim

end Morphling.DeviceMeasurementSession
