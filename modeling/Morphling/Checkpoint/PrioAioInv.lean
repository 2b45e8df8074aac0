import Morphling.Checkpoint.PrioAio

/-!
# The life of a request

* `Life`: where a request is, in the queues and with the scheduler thread, and what its blocks and its
  counter are then. A step is a step in the life of one request; for the others nothing changes.
* `Blocks`: a block of a request is in one place: with its request, in the hands of one of the two
  threads, in the queue between them, or executed. The queue holds blocks of one request only, and
  `pending_callbacks_` counts them.
* `Inv.next`: every step keeps both.
-/

namespace Morphling.PrioAio

open List Function List.Perm

/-- The request has gone through `AcceptRequest`. -/
def AioRequest.Accepted (q : AioRequest) : Prop := q.caller ≠ .absent ∧ q.caller ≠ .accepting

/-- The branch of `Schedule`, while the request is not completed. -/
def Stage.branch : Stage → Option Bool
  | .enqueueAll => some true
  | .enqueueOne _ => some false
  | .wait high | .clear high | .complete high => some high
  | .load | .notify => none

/-- The life of a request `q`: whether it is in the queue of high and of low priority, and how far
`Schedule` is with it. -/
inductive Life (q : AioRequest) : Bool → Bool → Option Stage → Prop where
  | absent (caller : q.caller = .absent) (notified : q.notified = false)
      (blocks : q.call.blocks = []) (callbacks : q.callbacks = []) : Life q false false none
  | prepared (caller : q.caller = .accepting) (notified : q.notified = false)
      (callbacks : q.callbacks = q.call.blocks)
      (pending : q.pendingCallbacks = q.call.blocks.length) : Life q false false none
  | queuedHigh (accepted : q.Accepted) (notified : q.notified = false)
      (prio : q.call.highPrio = true) (pending : q.pendingCallbacks = q.call.blocks.length) :
      Life q true false none
  | takenHigh (accepted : q.Accepted) (notified : q.notified = false)
      (pending : q.pendingCallbacks = q.call.blocks.length) (stage : Stage)
      (branch : stage.branch = some true) (callbacks : stage ≠ .enqueueAll → q.callbacks = []) :
      Life q false false (some stage)
  | queuedLow (accepted : q.Accepted) (notified : q.notified = false)
      (prio : q.call.highPrio = false) (pending : q.pendingCallbacks = q.callbacks.length)
      (callbacks : q.callbacks = [] → q.call.blocks = []) : Life q false true none
  | takenLow (accepted : q.Accepted) (notified : q.notified = false)
      (prio : q.call.highPrio = false) (pending : q.pendingCallbacks = q.callbacks.length + 1)
      (stage : Stage) (branch : stage.branch = some false) :
      Life q false (!q.callbacks.isEmpty) (some stage)
  | loading (accepted : q.Accepted) (notified : q.notified = false)
      (prio : q.call.highPrio = false) (pending : q.pendingCallbacks = q.callbacks.length) :
      Life q false (!q.callbacks.isEmpty) (some .load)
  | notifying (accepted : q.Accepted) (pending : q.pendingCallbacks = 0)
      (callbacks : q.callbacks = []) : Life q false false (some .notify)
  | settled (accepted : q.Accepted) (pending : q.pendingCallbacks = 0)
      (callbacks : q.callbacks = []) : Life q false false none

namespace Life

variable {q : AioRequest} {high low : Bool} {stage : Option Stage} {cb : AioCallback}
  {cbs : List AioCallback} {st : Stage}

theorem new (c : Call) : Life (.new c) false false none := .prepared rfl rfl rfl rfl

/-- Only an accepted request is with the scheduler thread. -/
theorem eq_of_not_accepted (h : Life q high low stage) (hq : ¬ q.Accepted) :
    high = false ∧ low = false ∧ stage = none := by
  cases h <;> first | exact ⟨rfl, rfl, rfl⟩ | contradiction

theorem accept (h : Life q high low stage) (hq : q.caller = .accepting) :
    Life { q with caller := .testing } q.call.highPrio (!q.call.highPrio) none := by
  have hna : ¬ q.Accepted := fun ha => ha.2 hq
  have hacc : AioRequest.Accepted { q with caller := .testing } := ⟨nofun, nofun⟩
  cases h with
  | absent caller => cases caller.symm.trans hq
  | prepared _ notified callbacks pending =>
    cases hp : q.call.highPrio with
    | true => exact .queuedHigh hacc notified hp pending
    | false =>
      refine .queuedLow hacc notified hp (pending.trans ?_) fun hnil => ?_
      · rw [← callbacks]
      · exact callbacks.symm.trans hnil
  | _ => exact (hna ‹_›).elim

/-- An accepted caller goes on. -/
theorem caller (h : Life q high low stage) (hq : q.Accepted) {c : Caller}
    (hc : c ≠ .absent ∧ c ≠ .accepting) : Life { q with caller := c } high low stage := by
  cases h with
  | absent caller => exact (hq.1 caller).elim
  | prepared caller => exact (hq.2 caller).elim
  | queuedHigh _ notified prio pending => exact .queuedHigh hc notified prio pending
  | takenHigh _ notified pending stage branch callbacks =>
    exact .takenHigh (q := { q with caller := c }) hc notified pending stage branch callbacks
  | queuedLow _ notified prio pending callbacks => exact .queuedLow hc notified prio pending callbacks
  | takenLow _ notified prio pending stage branch =>
    exact .takenLow (q := { q with caller := c }) hc notified prio pending stage branch
  | loading _ notified prio pending =>
    exact .loading (q := { q with caller := c }) hc notified prio pending
  | notifying _ pending callbacks => exact .notifying hc pending callbacks
  | settled _ pending callbacks => exact .settled hc pending callbacks

theorem takeHigh (h : Life q true low stage) : Life q false low (some .enqueueAll) := by
  cases h with
  | queuedHigh accepted notified _ pending =>
    exact .takenHigh accepted notified pending _ rfl fun h => (h rfl).elim

theorem enqueueAll (h : Life q high low (some .enqueueAll)) (cbs : List AioCallback) :
    Life { q with callbacks := cbs } high low (some .enqueueAll) := by
  cases h with
  | takenHigh accepted notified pending _ branch _ =>
    exact .takenHigh (q := { q with callbacks := cbs }) accepted notified pending _ branch fun h =>
      (h rfl).elim
  | takenLow _ _ _ _ _ branch => cases branch

theorem waitAll (h : Life q high low (some .enqueueAll)) (hq : q.callbacks = []) :
    Life q high low (some (.wait true)) := by
  cases h with
  | takenHigh accepted notified pending _ _ _ =>
    exact .takenHigh accepted notified pending _ rfl fun _ => hq
  | takenLow _ _ _ _ _ branch => cases branch

/-- The last block of a request of low priority is taken. -/
theorem takeLow (h : Life q high low none) (hlow : low = true) (hq : q.callbacks = cbs ++ [cb]) :
    Life { q with callbacks := cbs } high (!cbs.isEmpty) (some (.enqueueOne cb)) := by
  cases h with
  | absent | prepared | queuedHigh | settled => cases hlow
  | queuedLow accepted notified prio pending =>
    refine .takenLow (q := { q with callbacks := cbs }) accepted notified prio (pending.trans ?_) _ rfl
    rw [hq, length_append]
    rfl

/-- The stages of a branch after the blocks are in the queue. -/
theorem advance {st' : Stage} (h : Life q high low (some st)) (hst : st'.branch = st.branch)
    (hb : st.branch ≠ none) (hne : st ≠ .enqueueAll) : Life q high low (some st') := by
  cases h with
  | takenHigh accepted notified pending _ branch callbacks =>
    exact .takenHigh accepted notified pending _ (hst.trans branch) fun _ => callbacks hne
  | takenLow accepted notified prio pending _ branch =>
    exact .takenLow accepted notified prio pending _ (hst.trans branch)
  | loading | notifying => exact (hb rfl).elim

theorem completeHigh (h : Life q high low (some (.complete true))) :
    Life { q with callbacks := [], pendingCallbacks := 0 } high low (some .notify) := by
  cases h with
  | takenHigh accepted => exact .notifying accepted rfl rfl
  | takenLow _ _ _ _ _ branch => cases branch

theorem completeLow (h : Life q high low (some (.complete false))) :
    Life { q with pendingCallbacks := q.pendingCallbacks - 1 } high low (some .load) := by
  cases h with
  | takenHigh _ _ _ _ branch => cases branch
  | takenLow accepted notified prio pending =>
    refine .loading (q := { q with pendingCallbacks := q.pendingCallbacks - 1 }) accepted notified
      prio ?_
    dsimp only
    omega

/-- The counter is zero: the last block was the first of the request. -/
theorem loadZero (h : Life q high low (some .load)) (hq : q.pendingCallbacks = 0) :
    Life q high low (some .notify) := by
  cases h with
  | takenHigh _ _ _ _ branch => cases branch
  | takenLow _ _ _ _ _ branch => cases branch
  | loading accepted _ _ pending =>
    have hnil : q.callbacks = [] := length_eq_zero_iff.mp (by omega)
    rw [hnil]
    exact .notifying accepted hq hnil

theorem loadMore (h : Life q high low (some .load)) (hq : q.pendingCallbacks ≠ 0) :
    Life q high low none := by
  cases h with
  | takenHigh _ _ _ _ branch => cases branch
  | takenLow _ _ _ _ _ branch => cases branch
  | loading accepted notified prio pending =>
    have hne : q.callbacks ≠ [] := by
      intro hnil
      rw [hnil] at pending
      exact hq pending
    have hlow : (!q.callbacks.isEmpty) = true := by simpa using hne
    rw [hlow]
    exact .queuedLow accepted notified prio pending fun hnil => (hne hnil).elim

theorem notify (h : Life q high low (some .notify)) {c : Caller}
    (hc : c ≠ .absent ∧ c ≠ .accepting) :
    Life { q with notified := true, caller := c } high low none := by
  cases h with
  | takenHigh _ _ _ _ branch => cases branch
  | takenLow _ _ _ _ _ branch => cases branch
  | notifying _ pending callbacks => exact .settled hc pending callbacks

theorem pending_ne_zero (h : Life q high low (some (.complete false))) : q.pendingCallbacks ≠ 0 := by
  cases h with
  | takenHigh _ _ _ _ branch => cases branch
  | takenLow _ _ _ pending => omega

theorem callbacks_complete (h : Life q high low (some (.complete true))) : q.callbacks = [] := by
  cases h with
  | takenHigh _ _ _ _ _ callbacks => exact callbacks nofun
  | takenLow _ _ _ _ _ branch => cases branch

theorem blocks_absent (h : Life q high low stage) (hq : q.caller = .absent) :
    q.call.blocks = [] := by
  have hna : ¬ q.Accepted := fun ha => ha.1 hq
  cases h with
  | absent _ _ blocks => exact blocks
  | prepared caller => cases caller.symm.trans hq
  | _ => exact (hna ‹_›).elim

theorem of_queuedLow (h : Life q high low stage) (hlow : low = true) (hstage : stage = none) :
    q.Accepted ∧ high = false ∧ (q.callbacks = [] → q.call.blocks = []) := by
  cases h with
  | queuedLow accepted _ _ _ callbacks => exact ⟨accepted, rfl, callbacks⟩
  | absent | prepared | queuedHigh | settled => cases hlow
  | takenHigh | takenLow | loading | notifying => cases hstage

theorem accepted_of_stage (h : Life q high low (some st)) : q.Accepted := by
  cases h <;> assumption

end Life

/-! ## Requests -/

/-- How far the scheduler thread is with request `r`. -/
def Sched.stageOf (r : Nat) : Sched → Option Stage
  | .on r' stage => if r' = r then some stage else none
  | _ => none

@[simp] theorem stageOf_on_self (r : Nat) (stage : Stage) :
    (Sched.on r stage).stageOf r = some stage := if_pos rfl

theorem stageOf_on_ne {r r' : Nat} (h : r' ≠ r) (stage : Stage) :
    (Sched.on r stage).stageOf r' = none := if_neg (Ne.symm h)

variable {s s' : PrioAio} {r : Nat} {cb : AioCallback} {stage : Stage} {cbs : List AioCallback}
  {q : AioRequest}

@[simp] theorem modify_requests_self (f : AioRequest → AioRequest) :
    (s.modify r f).requests r = f (s.requests r) := update_self _ _ _

theorem modify_requests_ne {r' : Nat} (h : r' ≠ r) (f : AioRequest → AioRequest) :
    (s.modify r f).requests r' = s.requests r' := update_of_ne h _ _

/-- The request lives, and its caller returned only with a counter of zero. -/
structure Lives (s : PrioAio) (r : Nat) : Prop where
  life : Life (s.requests r) (decide (r ∈ s.ioQueueHigh)) (decide (r ∈ s.ioQueueLow))
    (s.sched.stageOf r)
  returned : (s.requests r).caller = .returned → (s.requests r).pendingCallbacks = 0

structure Requests (s : PrioAio) : Prop where
  nodupHigh : s.ioQueueHigh.Nodup
  nodupLow : s.ioQueueLow.Nodup
  lives : ∀ r, s.Lives r

/-- Nothing changes for request `r`. -/
structure Same (s s' : PrioAio) (r : Nat) : Prop where
  request : s'.requests r = s.requests r
  high : r ∈ s'.ioQueueHigh ↔ r ∈ s.ioQueueHigh
  low : r ∈ s'.ioQueueLow ↔ r ∈ s.ioQueueLow
  stage : s'.sched.stageOf r = s.sched.stageOf r

theorem Lives.same (h : s.Lives r) (hs : Same s s' r) : s'.Lives r := by
  obtain ⟨hlife, hret⟩ := h
  obtain ⟨hq, hhigh, hlow, hstage⟩ := hs
  refine ⟨?_, by rwa [hq]⟩
  rw [hq, hstage, decide_eq_decide.mpr hhigh, decide_eq_decide.mpr hlow]
  exact hlife

namespace Requests

section Step
variable (h : s.Requests)
include h

theorem life_on (hs : s.sched = .on r stage) :
    Life (s.requests r) (decide (r ∈ s.ioQueueHigh)) (decide (r ∈ s.ioQueueLow)) (some stage) := by
  have hlife := (h.lives r).life
  rwa [hs, stageOf_on_self] at hlife

/-- A step in the life of request `r`. -/
theorem step (r : Nat) (hhigh : s'.ioQueueHigh.Nodup) (hlow : s'.ioQueueLow.Nodup) (hr : s'.Lives r)
    (hs : ∀ r', r' ≠ r → Same s s' r') : s'.Requests := by
  refine ⟨hhigh, hlow, fun r' => ?_⟩
  by_cases hr' : r' = r
  · exact hr' ▸ hr
  · exact (h.lives r').same (hs r' hr')

/-- A step of the scheduler thread with request `r`, which stays in its queue. -/
theorem stepOn (hstage : s.sched = .on r stage) (hq : s'.requests = update s.requests r q)
    (hhigh : s'.ioQueueHigh = s.ioQueueHigh) (hlow : s'.ioQueueLow = s.ioQueueLow)
    (hsched : ∀ r', r' ≠ r → s'.sched.stageOf r' = none)
    (hlife : ∀ {high low : Bool}, Life (s.requests r) high low (some stage) →
      Life q high low (s'.sched.stageOf r))
    (hret : q.caller = .returned → (s.requests r).caller = .returned ∧
      ((s.requests r).pendingCallbacks = 0 → q.pendingCallbacks = 0)) : s'.Requests := by
  have hself : s'.requests r = q := by rw [hq, update_self]
  refine h.step r (hhigh ▸ h.nodupHigh) (hlow ▸ h.nodupLow) ⟨?_, ?_⟩ fun r' hr' => ⟨?_, ?_, ?_, ?_⟩
  · rw [hself, hhigh, hlow]
    exact hlife (h.life_on hstage)
  · rw [hself]
    intro hc
    obtain ⟨hc, hp⟩ := hret hc
    exact hp ((h.lives r).returned hc)
  · rw [hq, update_of_ne hr']
  · rw [hhigh]
  · rw [hlow]
  · rw [hsched r' hr', hstage, stageOf_on_ne hr']

/-- It goes on to another stage. -/
theorem advance {stage' : Stage} (hstage : s.sched = .on r stage)
    (hq : s'.requests = update s.requests r q) (hhigh : s'.ioQueueHigh = s.ioQueueHigh)
    (hlow : s'.ioQueueLow = s.ioQueueLow) (hsched : s'.sched = .on r stage')
    (hlife : ∀ {high low : Bool}, Life (s.requests r) high low (some stage) →
      Life q high low (some stage'))
    (hret : q.caller = .returned → (s.requests r).caller = .returned ∧
      ((s.requests r).pendingCallbacks = 0 → q.pendingCallbacks = 0)) : s'.Requests := by
  refine h.stepOn hstage hq hhigh hlow (fun r' hr' => ?_) (fun hl => ?_) hret
  · rw [hsched, stageOf_on_ne hr']
  · rw [hsched, stageOf_on_self]
    exact hlife hl

/-- The scheduler thread is with no request, before and after. -/
theorem pass (hq : s'.requests = s.requests) (hhigh : s'.ioQueueHigh = s.ioQueueHigh)
    (hlow : s'.ioQueueLow = s.ioQueueLow) (hsched : ∀ r, s'.sched.stageOf r = s.sched.stageOf r) :
    s'.Requests :=
  ⟨hhigh ▸ h.nodupHigh, hlow ▸ h.nodupLow, fun r =>
    (h.lives r).same ⟨by rw [hq], by rw [hhigh], by rw [hlow], hsched r⟩⟩

/-- A step of the caller of request `r`. -/
theorem caller (hr : (s.requests r).Accepted) {c : Caller} (hc : c ≠ .absent ∧ c ≠ .accepting)
    (hret : c = .returned → (s.requests r).pendingCallbacks = 0) :
    (s.modify r fun q => { q with caller := c }).Requests := by
  refine h.step r h.nodupHigh h.nodupLow ⟨?_, ?_⟩ fun r' hr' =>
    ⟨modify_requests_ne hr' _, Iff.rfl, Iff.rfl, rfl⟩
  · rw [modify_requests_self]
    exact (h.lives r).life.caller hr hc
  · rw [modify_requests_self]
    exact hret

theorem prepare (hr : (s.requests r).caller = .absent) (c : Call) : (s.prepare r c).Requests := by
  refine h.step r h.nodupHigh h.nodupLow ⟨?_, ?_⟩ fun r' hr' =>
    ⟨modify_requests_ne hr' _, Iff.rfl, Iff.rfl, rfl⟩
  · obtain ⟨hhigh, hlow, hstage⟩ := (h.lives r).life.eq_of_not_accepted fun ha => ha.1 hr
    have hlife : Life (.new c) (decide (r ∈ s.ioQueueHigh)) (decide (r ∈ s.ioQueueLow))
        (s.sched.stageOf r) := by
      rw [hhigh, hlow, hstage]
      exact .new c
    rw [PrioAio.prepare, modify_requests_self]
    exact hlife
  · rw [PrioAio.prepare, modify_requests_self]
    exact nofun

theorem acceptRequest (hr : (s.requests r).caller = .accepting) : (s.acceptRequest r).Requests := by
  obtain ⟨hhigh, hlow, hstage⟩ := (h.lives r).life.eq_of_not_accepted fun ha => ha.2 hr
  have hlife := (h.lives r).life.accept hr
  rw [decide_eq_false_iff_not] at hhigh hlow
  have hself : update s.requests r { s.requests r with caller := .testing } r =
      { s.requests r with caller := .testing } := update_self _ _ _
  have happend : ∀ {l : List Nat}, l.Nodup → r ∉ l → (l ++ [r]).Nodup := fun hl hr =>
    concat_eq_append ▸ hl.concat hr
  unfold PrioAio.acceptRequest
  dsimp only
  split
  next hp =>
    refine h.step r (happend h.nodupHigh hhigh) h.nodupLow ⟨?_, ?_⟩ fun r' hr' =>
      ⟨update_of_ne hr' _ _, by simp [hr'], Iff.rfl, rfl⟩
    · simpa [modify, hself, hstage, hlow, hp] using hlife
    · simp only [modify, hself]
      exact nofun
  next hp =>
    refine h.step r h.nodupHigh (happend h.nodupLow hlow) ⟨?_, ?_⟩ fun r' hr' =>
      ⟨update_of_ne hr' _ _, Iff.rfl, by simp [hr'], rfl⟩
    · simpa [modify, hself, hstage, hhigh, hp] using hlife
    · simp only [modify, hself]
      exact nofun

theorem scheduleOn (hs : s.sched = .on r stage) : (s.scheduleOn r stage).Requests := by
  have hself : s.requests = update s.requests r (s.requests r) :=
    (update_eq_self _ _).symm
  have hlife := h.life_on hs
  cases stage with
  | enqueueAll =>
    simp only [PrioAio.scheduleOn]
    split
    next => exact h.advance hs rfl rfl rfl hs (fun hl => hl.enqueueAll _) fun hc => ⟨hc, id⟩
    next hcb => exact h.advance hs hself rfl rfl rfl (fun hl => hl.waitAll hcb) fun hc => ⟨hc, id⟩
  | enqueueOne | clear =>
    exact h.advance hs hself rfl rfl rfl (fun hl => hl.advance rfl nofun nofun) fun hc => ⟨hc, id⟩
  | wait high =>
    simp only [PrioAio.scheduleOn]
    split
    · exact h.advance hs hself rfl rfl rfl (fun hl => hl.advance rfl nofun nofun) fun hc => ⟨hc, id⟩
    · exact h
  | complete high =>
    cases high with
    | true => exact h.advance hs rfl rfl rfl rfl (·.completeHigh) fun hc => ⟨hc, fun _ => rfl⟩
    | false =>
      -- the counter of a request with a block under way is not zero
      exact h.advance hs rfl rfl rfl rfl (·.completeLow) fun hc =>
        ⟨hc, fun hp => (hlife.pending_ne_zero hp).elim⟩
  | load =>
    simp only [PrioAio.scheduleOn]
    split
    next hp => exact h.advance hs hself rfl rfl rfl (fun hl => hl.loadZero hp) fun hc => ⟨hc, id⟩
    next hp =>
      exact h.stepOn hs hself rfl rfl (fun _ _ => rfl) (fun hl => hl.loadMore hp) fun hc => ⟨hc, id⟩
  | notify =>
    refine h.stepOn hs rfl rfl rfl (fun _ _ => rfl) (fun h => ?_) fun hc => ⟨?_, id⟩
    · refine h.notify ?_
      split
      · exact ⟨nofun, nofun⟩
      · exact hlife.accepted_of_stage
    · dsimp only at hc
      split at hc
      · cases hc
      · exact hc

/-- A request of high priority is taken from its queue. -/
theorem takeHigh (hs : s.sched = .checkHigh) {rest : List Nat} (hq : s.ioQueueHigh = r :: rest) :
    Requests { s with ioQueueHigh := rest, sched := .on r .enqueueAll } := by
  obtain ⟨hr, hrest⟩ := nodup_cons.mp (hq ▸ h.nodupHigh)
  have hlife := (h.lives r).life
  rw [hq, decide_eq_true mem_cons_self] at hlife
  refine h.step r hrest h.nodupLow ⟨?_, (h.lives r).returned⟩ fun r' hr' => ⟨rfl, ?_, Iff.rfl, ?_⟩
  · dsimp only
    rw [decide_eq_false hr, stageOf_on_self]
    exact hlife.takeHigh
  · rw [hq, mem_cons, or_iff_right hr']
  · rw [hs]
    exact stageOf_on_ne hr' _

/-- A block of low priority is taken from its request, the last one with the request. -/
theorem takeLow (hs : s.sched = .checkLow) {rest : List Nat} (hq : s.ioQueueLow = r :: rest)
    (hcb : (s.requests r).callbacks = cbs ++ [cb]) :
    Requests { s.modify r fun q => { q with callbacks := cbs } with
      ioQueueLow := if cbs.isEmpty then rest else r :: rest
      sched := .on r (.enqueueOne cb) } := by
  obtain ⟨hr, hrest⟩ := nodup_cons.mp (hq ▸ h.nodupLow)
  have hlow : decide (r ∈ if cbs.isEmpty then rest else r :: rest) = !cbs.isEmpty := by
    cases cbs.isEmpty <;> simp [hr]
  have hlife := (h.lives r).life
  rw [hs] at hlife
  have hself : update s.requests r { s.requests r with callbacks := cbs } r =
      { s.requests r with callbacks := cbs } := update_self _ _ _
  refine h.step r h.nodupHigh ?_ ⟨?_, ?_⟩ fun r' hr' =>
    ⟨update_of_ne hr' _ _, Iff.rfl, ?_, ?_⟩
  · dsimp only
    split
    · exact hrest
    · exact nodup_cons.mpr ⟨hr, hrest⟩
  · simp only [modify, hself, hlow, stageOf_on_self]
    exact hlife.takeLow (decide_eq_true (hq ▸ mem_cons_self)) hcb
  · simp only [modify, hself]
    exact (h.lives r).returned
  · dsimp only
    rw [hq]
    split <;> simp [hr']
  · rw [hs]
    exact stageOf_on_ne hr' _

theorem schedule : s.schedule.Requests := by
  unfold PrioAio.schedule
  split
  next hs => exact h.pass rfl rfl rfl fun _ => by rw [hs]; rfl
  next hs =>
    split
    next r rest hq => exact h.takeHigh hs hq
    next => exact h.pass rfl rfl rfl fun _ => by rw [hs]; rfl
  next hs =>
    split
    next => exact h.pass rfl rfl rfl fun _ => by rw [hs]; rfl
    next r rest hq =>
      split
      next => exact h.pass rfl rfl rfl fun _ => by rw [hs]; rfl
      next cb hcb =>
        refine h.takeLow hs hq ?_
        exact (dropLast_append_getLast? cb hcb).symm
  next r stage hs => exact h.scheduleOn hs
  next => exact h

theorem run : s.run.Requests := by
  unfold PrioAio.run
  split
  · split
    · exact h
    · exact h.pass rfl rfl rfl fun _ => rfl
  · exact h.pass rfl rfl rfl fun _ => rfl
  · exact h.pass rfl rfl rfl fun _ => rfl

theorem next (e : Event) : (s.next e).Requests := by
  cases e with
  | call r c =>
    simp only [PrioAio.next]
    split
    next hr => exact h.prepare hr c
    next => exact h
  | accept r =>
    simp only [PrioAio.next]
    split
    next hr => exact h.acceptRequest hr
    next => exact h
  | test r =>
    simp only [PrioAio.next]
    split
    next hr =>
      refine h.caller ⟨by rw [hr]; nofun, by rw [hr]; nofun⟩ ?_ fun hc => ?_
      · split <;> exact ⟨nofun, nofun⟩
      · split at hc
        next hp => exact hp
        next => cases hc
    next => exact h
  | block r =>
    simp only [PrioAio.next]
    split
    next hr => exact h.caller ⟨by rw [hr]; nofun, by rw [hr]; nofun⟩ ⟨nofun, nofun⟩ nofun
    next => exact h
  | wake r =>
    simp only [PrioAio.next]
    split
    next hr => exact h.caller ⟨by rw [hr]; nofun, by rw [hr]; nofun⟩ ⟨nofun, nofun⟩ nofun
    next => exact h
  | schedule => exact h.schedule
  | run => exact h.run

end Step

theorem init : Requests {} where
  nodupHigh := nodup_nil
  nodupLow := nodup_nil
  lives _ := ⟨.absent rfl rfl (Call.blocks_eq_nil.mpr rfl) rfl, nofun⟩

end Requests

/-! ## Blocks -/

/-- The block in the hands of the scheduler thread. -/
def Sched.holds : Sched → List (Nat × AioCallback)
  | .on r (.enqueueOne cb) => [(r, cb)]
  | _ => []

/-- The block in the hands of the I/O thread. -/
def Io.holds : Io → List (Nat × AioCallback)
  | .running r cb => [(r, cb)]
  | _ => []

def Action.finished : Action → Option (Nat × AioCallback)
  | .finish r cb => some (r, cb)
  | _ => none

/-- The blocks that were executed. -/
def executed (s : PrioAio) : List (Nat × AioCallback) := s.trace.filterMap Action.finished

/-- The blocks that left their request and were not executed. -/
def underWay (s : PrioAio) : List (Nat × AioCallback) := s.sched.holds ++ s.callbacks ++ s.io.holds

/-- The request whose blocks may be in the queue of the I/O thread. -/
def Sched.filling : Sched → Option Nat
  | .on r .enqueueAll | .on r (.wait _) => some r
  | _ => none

structure Blocks (s : PrioAio) : Prop where
  /-- A block is in one place. -/
  place : ∀ r cb, (s.requests r).call.blocks.count cb =
    (s.requests r).callbacks.count cb + s.underWay.count (r, cb) + s.executed.count (r, cb)
  thread : s.pendingCallbacks = s.callbacks.length + if s.io = .idle then 0 else 1
  queue : ∀ x ∈ s.callbacks ++ s.io.holds, s.sched.filling = some x.1
  io : s.io ≠ .idle → s.sched.filling ≠ none

namespace Blocks

section
variable (h : s.Blocks)
include h

/-- The I/O thread has nothing to do unless the scheduler thread waits for it. -/
theorem quiet (hs : s.sched.filling = none) : s.callbacks = [] ∧ s.io = .idle := by
  refine ⟨eq_nil_iff_forall_not_mem.mpr fun x hx => ?_, not_not.mp fun hio => h.io hio hs⟩
  cases hs.symm.trans (h.queue x (mem_append_left _ hx))

/-- A counter of zero says so as well. -/
theorem quiet_of_pending (hs : s.pendingCallbacks = 0) : s.callbacks = [] ∧ s.io = .idle := by
  have := h.thread
  split at this
  next hio => exact ⟨length_eq_zero_iff.mp (by omega), hio⟩
  next => omega

/-- A step that moves no block. -/
theorem keep (hcall : ∀ r, (s'.requests r).call = (s.requests r).call)
    (hcbs : ∀ r, (s'.requests r).callbacks = (s.requests r).callbacks)
    (hholds : s'.sched.holds = s.sched.holds) (hqueue : s'.callbacks = s.callbacks)
    (hpending : s'.pendingCallbacks = s.pendingCallbacks) (hio : s'.io = s.io)
    (htrace : s'.trace = s.trace)
    (hfill : ∀ r, s.sched.filling = some r → s'.sched.filling = some r) : s'.Blocks where
  place r cb := by
    rw [hcall, hcbs, underWay, executed, hholds, hqueue, hio, htrace]
    exact h.place r cb
  thread := by
    rw [hpending, hqueue, hio]
    exact h.thread
  queue x hx := by
    rw [hqueue, hio] at hx
    exact hfill _ (h.queue x hx)
  io hne := by
    obtain ⟨r, hr⟩ := Option.ne_none_iff_exists'.mp (h.io (hio ▸ hne))
    rw [hfill r hr]
    nofun

/-- The scheduler thread goes on. -/
theorem goTo {sched : Sched} {began : Bool} {high low : List Nat}
    (hholds : sched.holds = s.sched.holds)
    (hfill : ∀ r, s.sched.filling = some r → sched.filling = some r) :
    Blocks { s with ioQueueHigh := high, ioQueueLow := low, sched := sched, began := began } :=
  h.keep (fun _ => rfl) (fun _ => rfl) hholds rfl rfl rfl rfl hfill

/-- A step of the caller of request `r`, or of the scheduler thread with its counter. -/
theorem modify {f : AioRequest → AioRequest} (hcall : (f (s.requests r)).call = (s.requests r).call)
    (hcbs : (f (s.requests r)).callbacks = (s.requests r).callbacks) : (s.modify r f).Blocks := by
  refine h.keep (fun r' => ?_) (fun r' => ?_) rfl rfl rfl rfl rfl fun _ => id
  all_goals
    by_cases hr : r' = r
    · subst hr
      rw [modify_requests_self]
      assumption
    · rw [modify_requests_ne hr]

theorem prepare (hr : (s.requests r).call.blocks = []) (c : Call) : (s.prepare r c).Blocks := by
  refine ⟨fun r' cb => ?_, h.thread, h.queue, h.io⟩
  by_cases hr' : r' = r
  · subst hr'
    have := h.place r' cb
    rw [hr, count_nil] at this
    rw [PrioAio.prepare, modify_requests_self]
    show c.blocks.count cb = c.blocks.count cb + s.underWay.count (r', cb) + s.executed.count (r', cb)
    omega
  · rw [PrioAio.prepare, modify_requests_ne hr']
    exact h.place r' cb

/-- The scheduler thread takes block `cb` from request `r`, and keeps it or puts it into the queue. -/
theorem take (cb : AioCallback) (hcb : (s.requests r).callbacks.Perm (cb :: cbs))
    (hq : s'.requests = update s.requests r { s.requests r with callbacks := cbs })
    (hway : s'.underWay.Perm ((r, cb) :: s.underWay)) (htrace : s'.executed = s.executed) :
    ∀ r' cb', (s'.requests r').call.blocks.count cb' = (s'.requests r').callbacks.count cb' +
      s'.underWay.count (r', cb') + s'.executed.count (r', cb') := by
  intro r' cb'
  have hplace := h.place r' cb'
  rw [hway.count_eq, htrace]
  by_cases hr : r' = r
  · subst hr
    rw [hq, update_self]
    rw [hcb.count_eq] at hplace
    simp only [count_cons, Prod.mk.injEq, true_and, beq_iff_eq] at hplace ⊢
    omega
  · rw [hq, update_of_ne hr, count_cons_of_ne]
    · exact hplace
    · intro he
      exact hr (Prod.mk.inj he).1.symm

/-- A block goes from hand to hand, into the queue or out of it, or is executed. -/
theorem move (hq : s'.requests = s.requests)
    (hperm : (s'.underWay ++ s'.executed).Perm (s.underWay ++ s.executed)) :
    ∀ r cb, (s'.requests r).call.blocks.count cb = (s'.requests r).callbacks.count cb +
      s'.underWay.count (r, cb) + s'.executed.count (r, cb) := by
  intro r cb
  have hplace := h.place r cb
  have hcount := hperm.count_eq (r, cb)
  rw [count_append, count_append] at hcount
  rw [hq]
  omega

end

theorem executed_append (a : Action) :
    executed { s with trace := s.trace ++ [a] } = s.executed ++ a.finished.toList := by
  rw [executed, filterMap_append]
  cases a <;> rfl

theorem executed_enqueue (cb : AioCallback) (high : Bool) :
    (s.enqueue r cb high).executed = s.executed :=
  (executed_append (.enqueue r cb high s.began)).trans (append_nil _)

section Step
variable (h : s.Blocks)
include h

theorem thread_enqueue (cb : AioCallback) :
    s.pendingCallbacks + 1 = (s.callbacks ++ [(r, cb)]).length + if s.io = .idle then 0 else 1 := by
  rw [h.thread, length_append]
  split <;> simp

theorem enqueueAll (hs : s.sched = .on r .enqueueAll) (hcb : (s.requests r).callbacks = cb :: cbs) :
    ((s.modify r fun q => { q with callbacks := cbs }).enqueue r cb true).Blocks := by
  have hfill : s.sched.filling = some r := by rw [hs]; rfl
  refine ⟨h.take cb (by rw [hcb]) rfl ?_ (executed_enqueue cb true), h.thread_enqueue cb,
    fun x hx => ?_, fun _ => ?_⟩
  · show (s.sched.holds ++ (s.callbacks ++ [(r, cb)]) ++ s.io.holds).Perm _
    rw [← append_assoc, append_assoc]
    exact perm_middle
  · rcases mem_append.mp hx with hx | hx
    · rcases mem_append.mp hx with hx | hx
      · exact h.queue x (mem_append_left _ hx)
      · rw [mem_singleton.mp hx]
        exact hfill
    · exact h.queue x (mem_append_right _ hx)
  · show s.sched.filling ≠ none
    rw [hfill]
    nofun

theorem enqueueOne (hs : s.sched = .on r (.enqueueOne cb)) :
    Blocks { s.enqueue r cb false with sched := .on r (.wait false) } := by
  obtain ⟨hnil, hidle⟩ := h.quiet (by rw [hs]; rfl)
  refine ⟨h.move rfl ?_, h.thread_enqueue cb, fun x hx => ?_, fun _ => nofun⟩
  · have hex := executed_enqueue (s := s) (r := r) cb false
    refine append (of_eq ?_) (of_eq hex)
    show [] ++ (s.callbacks ++ [(r, cb)]) ++ s.io.holds = s.sched.holds ++ s.callbacks ++ s.io.holds
    rw [hnil, hs]
    rfl
  · have hx : x ∈ s.callbacks ++ [(r, cb)] ++ s.io.holds := hx
    rw [hnil, hidle] at hx
    rw [mem_singleton.mp hx]
    rfl

theorem scheduleOn (hreq : s.Requests) (hs : s.sched = .on r stage) :
    (s.scheduleOn r stage).Blocks := by
  have hlife := hreq.life_on hs
  cases stage with
  | enqueueAll =>
    simp only [PrioAio.scheduleOn]
    split
    next cb cbs hcb => exact h.enqueueAll hs hcb
    next => exact h.goTo (by rw [hs]; rfl) (by rw [hs]; exact fun _ => id)
  | enqueueOne cb => exact h.enqueueOne hs
  | wait high =>
    simp only [PrioAio.scheduleOn]
    split
    next hp =>
      obtain ⟨hnil, hidle⟩ := h.quiet_of_pending hp
      refine ⟨h.move rfl (of_eq ?_), h.thread, fun x hx => ?_, fun hne => (hne hidle).elim⟩
      · simp only [underWay, hs]
        rfl
      · simp only [hnil, hidle] at hx
        cases hx
    next => exact h
  | clear high =>
    obtain ⟨hnil, hidle⟩ := h.quiet (by rw [hs]; rfl)
    exact h.keep (fun _ => rfl) (fun _ => rfl) (by rw [hs]; rfl) hnil.symm rfl rfl rfl
      (by rw [hs]; nofun)
  | complete high =>
    cases high with
    | true =>
      exact (h.modify rfl hlife.callbacks_complete.symm).goTo (congrArg Sched.holds hs).symm
        (by rw [PrioAio.modify, hs]; nofun)
    | false =>
      exact (h.modify rfl rfl).goTo (congrArg Sched.holds hs).symm
        (by rw [PrioAio.modify, hs]; nofun)
  | load =>
    simp only [PrioAio.scheduleOn]
    split <;> exact h.goTo (by rw [hs]; rfl) (by rw [hs]; nofun)
  | notify =>
    exact (h.modify rfl rfl).goTo (congrArg Sched.holds hs).symm (by rw [PrioAio.modify, hs]; nofun)

theorem takeLow (hs : s.sched = .checkLow) {low : List Nat}
    (hcb : (s.requests r).callbacks = cbs ++ [cb]) :
    Blocks { s.modify r fun q => { q with callbacks := cbs } with
      ioQueueLow := low
      sched := .on r (.enqueueOne cb) } := by
  obtain ⟨hnil, hidle⟩ := h.quiet (by rw [hs]; rfl)
  refine ⟨h.take cb ?_ rfl (of_eq ?_) rfl, h.thread, fun x hx => ?_,
    fun hne => (hne hidle).elim⟩
  · rw [hcb]
    exact perm_append_singleton cb cbs
  · have hway : s.underWay = s.callbacks ++ s.io.holds := by
      rw [underWay, hs]
      rfl
    rw [hway]
    rfl
  · have hx : x ∈ s.callbacks ++ s.io.holds := hx
    rw [hnil, hidle] at hx
    cases hx

theorem schedule (hreq : s.Requests) : s.schedule.Blocks := by
  unfold PrioAio.schedule
  split
  next hs => exact h.goTo (by rw [hs]; rfl) (by rw [hs]; nofun)
  next hs => split <;> exact h.goTo (by rw [hs]; rfl) (by rw [hs]; nofun)
  next hs =>
    split
    · exact h.goTo (by rw [hs]; rfl) (by rw [hs]; nofun)
    split
    · exact h.goTo (by rw [hs]; rfl) (by rw [hs]; nofun)
    next cb hcb => exact h.takeLow hs (dropLast_append_getLast? cb hcb).symm
  next r stage hs => exact h.scheduleOn hreq hs
  next => exact h

/-- The I/O thread takes the first block of its queue. -/
theorem start (hio : s.io = .idle) {rest : List (Nat × AioCallback)}
    (hq : s.callbacks = (r, cb) :: rest) :
    Blocks { s with callbacks := rest, io := .running r cb, trace := s.trace ++ [.start r cb] } := by
  have hr : s.sched.filling = some r := h.queue (r, cb) (by rw [hq]; exact mem_cons_self)
  refine ⟨h.move rfl (append ?_ (of_eq ?_)), ?_, fun x hx => ?_, fun _ => ?_⟩
  · have hway : s.underWay = s.sched.holds ++ (r, cb) :: rest := by
      rw [underWay, hq, hio]
      exact append_nil _
    rw [hway]
    exact (perm_append_singleton _ _).trans perm_middle.symm
  · exact (executed_append (.start r cb)).trans (append_nil _)
  · have := h.thread
    rw [if_pos hio, hq, length_cons] at this
    dsimp only
    rw [if_neg nofun]
    omega
  · refine h.queue x ?_
    rw [hq, hio]
    rcases mem_append.mp hx with hx | hx
    · exact mem_append_left _ (mem_cons_of_mem _ hx)
    · rw [mem_singleton.mp hx]
      exact mem_cons_self
  · show s.sched.filling ≠ none
    rw [hr]
    nofun

/-- The block is executed. -/
theorem finish (hio : s.io = .running r cb) :
    Blocks { s with io := .finished, trace := s.trace ++ [.finish r cb] } := by
  refine ⟨h.move rfl ?_, ?_, fun x hx => ?_, fun _ => h.io (by rw [hio]; nofun)⟩
  · have hway : s.underWay = s.sched.holds ++ s.callbacks ++ [(r, cb)] := by rw [underWay, hio]; rfl
    have hex : executed { s with trace := s.trace ++ [.finish r cb] } = s.executed ++ [(r, cb)] :=
      executed_append (.finish r cb)
    rw [hway, append_assoc _ [(r, cb)]]
    refine append (of_eq (append_nil _)) ?_
    exact (of_eq hex).trans (perm_append_singleton _ _)
  · have := h.thread
    rw [if_neg (by rw [hio]; nofun)] at this
    dsimp only
    rw [if_neg nofun]
    exact this
  · refine h.queue x (mem_append_left _ ?_)
    exact (append_nil s.callbacks) ▸ hx

theorem run : s.run.Blocks := by
  unfold PrioAio.run
  split
  next hio =>
    split
    next => exact h
    next r cb rest hq => exact h.start hio hq
  next r cb hio => exact h.finish hio
  next hio =>
    refine ⟨h.move rfl (of_eq ?_), ?_, fun x hx => ?_, fun hne => (hne rfl).elim⟩
    · simp only [underWay, hio]
      rfl
    · have := h.thread
      rw [if_neg (by rw [hio]; nofun)] at this
      dsimp only
      rw [if_pos rfl]
      omega
    · refine h.queue x (mem_append_left _ ?_)
      exact (append_nil s.callbacks) ▸ hx

theorem next (hreq : s.Requests) (e : Event) : (s.next e).Blocks := by
  cases e with
  | call r c =>
    simp only [PrioAio.next]
    split
    next hr => exact h.prepare ((hreq.lives r).life.blocks_absent hr) c
    next => exact h
  | accept r =>
    simp only [PrioAio.next, acceptRequest]
    split
    · split <;> exact (h.modify rfl rfl).goTo rfl fun _ => id
    · exact h
  | test r | block r | wake r =>
    simp only [PrioAio.next]
    split
    · exact h.modify rfl rfl
    · exact h
  | schedule => exact h.schedule hreq
  | run => exact h.run

end Step

theorem init : Blocks {} where
  place _ _ := by rw [Call.blocks_eq_nil.mpr rfl]; rfl
  thread := rfl
  queue := nofun
  io := fun h => (h rfl).elim

end Blocks

/-! ## A step and one request -/

/-- What a step does to request `r`. -/
inductive Step (r : Nat) (e : Event) (q : AioRequest) : AioRequest → Prop where
  | same : Step r e q q
  | call (c : Call) (caller : q.caller = .absent) (event : e = .call r c) : Step r e q (.new c)
  | accept (caller : q.caller = .accepting) : Step r e q { q with caller := .testing }
  | test (caller : q.caller = .testing) : Step r e q
      { q with caller := if q.pendingCallbacks = 0 then .returned else .blocking }
  | block (caller : q.caller = .blocking) (event : e = .block r) :
      Step r e q { q with caller := .blocked }
  | wake (caller : q.caller = .blocked) : Step r e q { q with caller := .testing }
  | work (cbs : List AioCallback) (pending : Int) :
      Step r e q { q with callbacks := cbs, pendingCallbacks := pending }
  | notify : Step r e q
      { q with notified := true, caller := if q.caller = .blocked then .testing else q.caller }

theorem Step.update {e : Event} {r' : Nat} (h : Step r' e (s.requests r') q)
    (hreq : s'.requests = update s.requests r' q) (r : Nat) :
    Step r e (s.requests r) (s'.requests r) := by
  rw [hreq, update_apply]
  split
  next hr => exact hr ▸ h
  next => exact .same

theorem step_scheduleOn (e : Event) (r' : Nat) (stage : Stage) (r : Nat) :
    Step r e (s.requests r) ((s.scheduleOn r' stage).requests r) := by
  cases stage with
  | enqueueAll =>
    simp only [scheduleOn]
    split
    · exact Step.update (.work _ _) rfl r
    · exact .same
  | enqueueOne | clear => exact .same
  | wait =>
    simp only [scheduleOn]
    split <;> exact .same
  | complete high => cases high <;> exact Step.update (.work _ _) rfl r
  | load => exact .same
  | notify => exact Step.update .notify rfl r

theorem step_schedule (e : Event) (r : Nat) :
    Step r e (s.requests r) (s.schedule.requests r) := by
  unfold schedule
  split
  · exact .same
  · split <;> exact .same
  · split
    · exact .same
    split
    · exact .same
    · exact Step.update (.work _ _) rfl r
  · exact step_scheduleOn e _ _ r
  · exact .same

theorem step_next (s : PrioAio) (e : Event) (r : Nat) :
    Step r e (s.requests r) ((s.next e).requests r) := by
  cases e with
  | call r' c =>
    simp only [next]
    split
    next hc => exact Step.update (.call c hc rfl) rfl r
    next => exact .same
  | accept r' =>
    simp only [next, acceptRequest]
    split
    next hc => split <;> exact Step.update (.accept hc) rfl r
    next => exact .same
  | test r' =>
    simp only [next]
    split
    next hc => exact Step.update (.test hc) rfl r
    next => exact .same
  | block r' =>
    simp only [next]
    split
    next hc => exact Step.update (.block hc rfl) rfl r
    next => exact .same
  | wake r' =>
    simp only [next]
    split
    next hc => exact Step.update (.wake hc) rfl r
    next => exact .same
  | schedule => exact step_schedule .schedule r
  | run =>
    simp only [next, run]
    split
    · split <;> exact .same
    · exact .same
    · exact .same

/-! ## Runs -/

structure Inv (s : PrioAio) : Prop where
  requests : s.Requests
  blocks : s.Blocks

theorem Inv.next (h : s.Inv) (e : Event) : (s.next e).Inv :=
  ⟨h.requests.next e, h.blocks.next h.requests e⟩

/-! ## Undefined steps -/

/-- A request of low priority in its queue, while the scheduler thread looks there. -/
theorem Requests.of_checkLow (h : s.Requests) (hs : s.sched = .checkLow) (hr : r ∈ s.ioQueueLow) :
    (s.requests r).Accepted ∧ r ∉ s.ioQueueHigh ∧
      ((s.requests r).callbacks = [] → (s.requests r).call.blocks = []) := by
  have hlife := (h.lives r).life
  rw [hs] at hlife
  obtain ⟨ha, hhigh, hblocks⟩ := hlife.of_queuedLow (decide_eq_true hr) rfl
  exact ⟨ha, decide_eq_false_iff_not.mp hhigh, hblocks⟩

/-- A request without blocks has an empty list. -/
theorem Inv.callbacks_eq_nil (h : s.Inv) (hr : (s.requests r).call.numBytes = 0) :
    (s.requests r).callbacks = [] := by
  refine eq_nil_iff_forall_not_mem.mpr fun cb hcb => ?_
  have hplace := h.blocks.place r cb
  have hpos := count_pos_iff.mpr hcb
  rw [Call.blocks_eq_nil.mpr hr, count_nil] at hplace
  omega

/-- The scheduler thread takes a block from a request of low priority. -/
theorem Inv.takeLow_defined_iff (h : s.Inv) (hs : s.sched = .checkLow) :
    s.schedule.sched ≠ .undefined ↔
      ∀ r ∈ s.ioQueueLow.head?, (s.requests r).call.numBytes ≠ 0 := by
  simp only [schedule, hs]
  split
  next hq =>
    rw [hq]
    exact iff_of_true (by rintro ⟨⟩) (by simp)
  next r rest hq =>
    obtain ⟨-, -, hblocks⟩ := h.requests.of_checkLow hs (hq ▸ mem_cons_self)
    split
    next hnil =>
      refine iff_of_false (fun hne => hne rfl) fun hsize => hsize r (by rw [hq]; rfl) ?_
      exact Call.blocks_eq_nil.mp (hblocks (getLast?_eq_none_iff.mp hnil))
    next cb hcb =>
      refine iff_of_true (by rintro ⟨⟩) fun r' hr' hzero => ?_
      rw [hq] at hr'
      obtain rfl := Option.some_inj.mp hr'
      rw [h.callbacks_eq_nil hzero] at hcb
      cases hcb

theorem schedule_defined (hs : s.sched ≠ .undefined) (hne : s.sched ≠ .checkLow) :
    s.schedule.sched ≠ .undefined := by
  unfold schedule
  split
  next => rintro ⟨⟩
  next => split <;> rintro ⟨⟩
  next hc => exact (hne hc).elim
  next r stage hon =>
    cases stage with
    | enqueueAll =>
      simp only [scheduleOn]
      split
      · exact hs
      · rintro ⟨⟩
    | wait high =>
      simp only [scheduleOn]
      split
      · rintro ⟨⟩
      · exact hs
    | load =>
      simp only [scheduleOn]
      split <;> rintro ⟨⟩
    | complete high => cases high <;> rintro ⟨⟩
    | enqueueOne | clear | notify => rintro ⟨⟩
  next hc => exact (hs hc).elim

/-- Only a step of the scheduler thread can make it undefined. -/
theorem Inv.next_defined_iff (h : s.Inv) (hs : s.sched ≠ .undefined) (e : Event) :
    (s.next e).sched ≠ .undefined ↔ (e = .schedule → s.sched = .checkLow →
      ∀ r ∈ s.ioQueueLow.head?, (s.requests r).call.numBytes ≠ 0) := by
  cases e with
  | schedule =>
    by_cases hc : s.sched = .checkLow
    · exact (h.takeLow_defined_iff hc).trans ⟨fun hok _ _ => hok, fun hok => hok rfl hc⟩
    · exact iff_of_true (schedule_defined hs hc) fun _ hc' => (hc hc').elim
  | run =>
    refine iff_of_true ?_ (by rintro ⟨⟩)
    simp only [PrioAio.next, PrioAio.run]
    split
    · split <;> exact hs
    · exact hs
    · exact hs
  | accept r =>
    refine iff_of_true ?_ (by rintro ⟨⟩)
    simp only [PrioAio.next, acceptRequest]
    split
    · split <;> exact hs
    · exact hs
  | call | test | block | wake =>
    refine iff_of_true ?_ (by rintro ⟨⟩)
    simp only [PrioAio.next]
    split <;> exact hs

end Morphling.PrioAio
