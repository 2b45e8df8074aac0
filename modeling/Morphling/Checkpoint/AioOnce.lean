import Morphling.Checkpoint.PrioAioInv
import Morphling.Lib.Pool

/-!
# Every block is executed once

What the threads do to the blocks of requests that are not empty, in every run.

* `Order`: the blocks are executed one after the other, and a block of low priority is put into the
  queue only by a pass that began with no request of high priority queued.
* `Inv.executed_of_pending`: when the counter of a request is zero, its blocks were executed.
* `progress`: in every run in which the two threads take steps, and no request is accepted any more,
  the accepted requests are worked off. The rank counts the steps that are left.
-/

namespace Morphling.PrioAio

open List

variable {s s' : PrioAio} {r : Nat} {e : Event} {cb : AioCallback} {high low : Bool}
  {q : AioRequest} {stage : Stage} {cbs : List AioCallback} {rest : List Nat}

/-! ## Order -/

/-- The block that runs after an action, if the trace up to there is one block after the other. -/
def Action.track : Option (Option (Nat × AioCallback)) → Action → Option (Option (Nat × AioCallback))
  | c, .enqueue .. => c
  | some none, .start r cb => some (some (r, cb))
  | some (some x), .finish r cb => if x = (r, cb) then some none else none
  | _, _ => none

/-- No block starts before the one before it has finished. -/
def Serial (trace : List Action) : Prop := (trace.foldl Action.track (some none)).isSome = true

/-- The pass has found no request of high priority, and has not put a block into the queue. -/
def Sched.lowPass : Sched → Bool
  | .checkLow | .on _ (.enqueueOne _) => true
  | _ => false

structure Order (s : PrioAio) : Prop where
  serial : s.trace.foldl Action.track (some none) = some s.io.holds.head?
  high : s.sched = .checkHigh → s.began = true → s.ioQueueHigh ≠ []
  low : s.sched.lowPass = true → s.began = false
  enqueued : ∀ r cb began, .enqueue r cb false began ∈ s.trace → began = false

namespace Order

/-- A step of a caller. -/
theorem keep (h : s.Order) (htrace : s'.trace = s.trace) (hio : s'.io = s.io)
    (hsched : s'.sched = s.sched) (hbegan : s'.began = s.began)
    (hhigh : s.ioQueueHigh <+: s'.ioQueueHigh) : s'.Order where
  serial := by rw [htrace, hio]; exact h.serial
  high hs hb hnil := h.high (hsched ▸ hs) (hbegan ▸ hb) (prefix_nil.mp (hnil ▸ hhigh))
  low hs := hbegan ▸ h.low (hsched ▸ hs)
  enqueued := by rw [htrace]; exact h.enqueued

/-- The scheduler thread goes on, without an action. -/
theorem goTo (h : s.Order) (htrace : s'.trace = s.trace) (hio : s'.io = s.io)
    (hhigh : s'.sched = .checkHigh → s'.began = true → s'.ioQueueHigh ≠ [])
    (hlow : s'.sched.lowPass = true → s'.began = false) : s'.Order where
  serial := by rw [htrace, hio]; exact h.serial
  high := hhigh
  low := hlow
  enqueued := by rw [htrace]; exact h.enqueued

/-- A block is put into the queue. -/
theorem enqueue (h : s.Order) (hb : high = false → s.began = false)
    (htrace : s'.trace = s.trace ++ [.enqueue r cb high s.began]) (hio : s'.io = s.io)
    (hhigh : s'.sched ≠ .checkHigh) (hlow : s'.sched.lowPass = false) : s'.Order where
  serial := by
    rw [htrace, hio, foldl_append, h.serial]
    rfl
  high hs := (hhigh hs).elim
  low hs := by cases hlow.symm.trans hs
  enqueued r' cb' began hmem := by
    rw [htrace] at hmem
    rcases mem_append.mp hmem with hmem | hmem
    · exact h.enqueued r' cb' began hmem
    · cases mem_singleton.mp hmem
      exact hb rfl

theorem scheduleOn (h : s.Order) (hs : s.sched = .on r stage) : (s.scheduleOn r stage).Order := by
  cases stage with
  | enqueueAll =>
    simp only [PrioAio.scheduleOn]
    split
    next cb cbs _ =>
      have hall : s.sched ≠ .checkHigh ∧ s.sched.lowPass = false := by
        rw [hs]
        exact ⟨by rintro ⟨⟩, rfl⟩
      exact h.enqueue (by rintro ⟨⟩) rfl rfl hall.1 hall.2
    next => exact h.goTo rfl rfl (by rintro ⟨⟩) (by rintro ⟨⟩)
  | enqueueOne cb =>
    have hb : s.began = false := h.low (by rw [hs]; rfl)
    exact h.enqueue (fun _ => hb) rfl rfl (by rintro ⟨⟩) rfl
  | wait high =>
    simp only [PrioAio.scheduleOn]
    split
    · exact h.goTo rfl rfl (by rintro ⟨⟩) (by rintro ⟨⟩)
    · exact h
  | clear high => exact h.goTo rfl rfl (by rintro ⟨⟩) (by rintro ⟨⟩)
  | complete high => cases high <;> exact h.goTo rfl rfl (by rintro ⟨⟩) (by rintro ⟨⟩)
  | load =>
    simp only [PrioAio.scheduleOn]
    split <;> exact h.goTo rfl rfl (by rintro ⟨⟩) (by rintro ⟨⟩)
  | notify => exact h.goTo rfl rfl (by rintro ⟨⟩) (by rintro ⟨⟩)

theorem schedule (h : s.Order) : s.schedule.Order := by
  unfold PrioAio.schedule
  split
  next =>
    refine h.goTo rfl rfl (fun _ hb hnil => ?_) (by rintro ⟨⟩)
    have hnil : s.ioQueueHigh = [] := hnil
    rw [hnil] at hb
    cases hb
  next hs =>
    split
    · exact h.goTo rfl rfl (by rintro ⟨⟩) (by rintro ⟨⟩)
    next hnil =>
      refine h.goTo rfl rfl (by rintro ⟨⟩) fun _ => Bool.eq_false_iff.mpr fun hb => ?_
      exact h.high hs hb hnil
  next hs =>
    split
    · exact h.goTo rfl rfl (by rintro ⟨⟩) (by rintro ⟨⟩)
    split
    · exact h.goTo rfl rfl (by rintro ⟨⟩) (by rintro ⟨⟩)
    · exact h.goTo rfl rfl (by rintro ⟨⟩) fun _ => h.low (by rw [hs]; rfl)
  next r stage hs => exact h.scheduleOn hs
  next => exact h

theorem run (h : s.Order) : s.run.Order := by
  have happend : ∀ {t : PrioAio} {a : Action}, t.trace = s.trace ++ [a] →
      (∀ r cb began, a ≠ .enqueue r cb false began) → t.sched = s.sched → t.began = s.began →
      t.ioQueueHigh = s.ioQueueHigh →
      Action.track (some s.io.holds.head?) a = some t.io.holds.head? → t.Order := by
    intro t a htrace ha hsched hbegan hhigh htrack
    refine ⟨?_, ?_, ?_, fun r cb began hmem => ?_⟩
    · rw [htrace, foldl_append, h.serial]
      exact htrack
    · rw [hsched, hbegan, hhigh]
      exact h.high
    · rw [hsched, hbegan]
      exact h.low
    · rw [htrace] at hmem
      rcases mem_append.mp hmem with hmem | hmem
      · exact h.enqueued r cb began hmem
      · exact (ha r cb began (mem_singleton.mp hmem).symm).elim
  unfold PrioAio.run
  split
  next hio =>
    split
    · exact h
    · exact happend rfl (by simp) rfl rfl rfl (by rw [hio]; rfl)
  next hio => exact happend rfl (by simp) rfl rfl rfl (by rw [hio]; exact if_pos rfl)
  next hio => exact ⟨by rw [h.serial, hio]; rfl, h.high, h.low, h.enqueued⟩

theorem next (h : s.Order) (e : Event) : (s.next e).Order := by
  cases e with
  | accept r =>
    simp only [PrioAio.next, acceptRequest]
    split
    · split
      · exact h.keep rfl rfl rfl rfl (prefix_append _ _)
      · exact h.keep rfl rfl rfl rfl prefix_rfl
    · exact h
  | call | test | block | wake =>
    simp only [PrioAio.next]
    split
    · exact h.keep rfl rfl rfl rfl prefix_rfl
    · exact h
  | schedule => exact h.schedule
  | run => exact h.run

theorem init : Order {} := ⟨rfl, by simp, by simp, by simp⟩

end Order

/-! ## Execution -/

/-- A block that is under way is one of the request that the scheduler thread handles. -/
theorem Blocks.stage_of_underWay (h : s.Blocks) {x : Nat × AioCallback} (hx : x ∈ s.underWay) :
    ∃ stage, s.sched = .on x.1 stage ∧ stage.branch ≠ none := by
  rw [underWay, append_assoc, mem_append] at hx
  rcases hx with hx | hx
  · unfold Sched.holds at hx
    split at hx
    next r cb hs =>
      rw [mem_singleton.mp hx]
      exact ⟨_, hs, by rintro ⟨⟩⟩
    · cases hx
  · have hfill := h.queue x hx
    unfold Sched.filling at hfill
    split at hfill
    next r hs =>
      obtain rfl := Option.some_inj.mp hfill
      exact ⟨_, hs, by rintro ⟨⟩⟩
    next r high hs =>
      obtain rfl := Option.some_inj.mp hfill
      exact ⟨_, hs, by rintro ⟨⟩⟩
    · cases hfill

/-- The scheduler thread has no block of the request left. -/
structure WorkedOff (s : PrioAio) (r : Nat) : Prop where
  callbacks : (s.requests r).callbacks = []
  stage : ∀ stage ∈ s.sched.stageOf r, stage.branch = none

theorem Blocks.executed_of_workedOff (h : s.Blocks) (hr : s.WorkedOff r) (cb : AioCallback) :
    s.executed.count (r, cb) = (s.requests r).call.blocks.count cb := by
  have hway : (r, cb) ∉ s.underWay := by
    intro hmem
    obtain ⟨stage, hs, hb⟩ := h.stage_of_underWay hmem
    refine hb (hr.stage stage ?_)
    rw [hs]
    exact stageOf_on_self r stage
  have := h.place r cb
  rw [hr.callbacks, count_nil, count_eq_zero_of_not_mem hway] at this
  omega

theorem Life.of_pending {stage : Option Stage} (h : Life q high low stage) (ha : q.Accepted)
    (hb : q.call.blocks ≠ []) (hp : q.pendingCallbacks = 0) :
    q.callbacks = [] ∧ ∀ st ∈ stage, st.branch = none := by
  have hlen : q.call.blocks.length ≠ 0 := fun h => hb (length_eq_zero_iff.mp h)
  cases h with
  | absent caller => exact (ha.1 caller).elim
  | prepared caller => exact (ha.2 caller).elim
  | queuedHigh _ _ _ pending => omega
  | takenHigh _ _ pending => omega
  | queuedLow _ _ _ pending callbacks =>
    exact (hb (callbacks (length_eq_zero_iff.mp (by omega)))).elim
  | takenLow _ _ _ pending => omega
  | loading _ _ _ pending =>
    refine ⟨length_eq_zero_iff.mp (by omega), ?_⟩
    rintro _ ⟨⟩
    rfl
  | notifying _ _ callbacks =>
    refine ⟨callbacks, ?_⟩
    rintro _ ⟨⟩
    rfl
  | settled _ _ callbacks => exact ⟨callbacks, by simp⟩

/-- A request that is nowhere has no blocks left. -/
theorem Life.of_settled {stage : Option Stage} (h : Life q high low stage) (ha : q.Accepted)
    (hhigh : high = false) (hlow : low = false) (hstage : stage = none) : q.callbacks = [] := by
  cases h with
  | absent caller => exact (ha.1 caller).elim
  | prepared caller => exact (ha.2 caller).elim
  | queuedHigh => cases hhigh
  | queuedLow => cases hlow
  | settled _ _ callbacks => exact callbacks
  | takenHigh | takenLow | loading | notifying => cases hstage

theorem Life.notMem_of_enqueueAll (h : Life q high low (some .enqueueAll)) :
    high = false ∧ low = false := by
  cases h with
  | takenHigh => exact ⟨rfl, rfl⟩
  | takenLow _ _ _ _ _ branch => cases branch

/-- When the counter of an accepted request is zero, its blocks were executed. -/
theorem Inv.executed_of_pending (h : s.Inv) (ha : (s.requests r).Accepted)
    (hb : (s.requests r).call.blocks ≠ []) (hp : (s.requests r).pendingCallbacks = 0)
    (cb : AioCallback) : s.executed.count (r, cb) = (s.requests r).call.blocks.count cb := by
  obtain ⟨hcbs, hstage⟩ := (h.requests.lives r).life.of_pending ha hb hp
  exact h.blocks.executed_of_workedOff ⟨hcbs, hstage⟩ cb

/-! ## Progress -/

/-- The calls were not for zero bytes, and nothing undefined happened. -/
structure Sized (s : PrioAio) : Prop where
  size : ∀ r, (s.requests r).caller ≠ .absent → 1 ≤ (s.requests r).call.numBytes
  defined : s.sched ≠ .undefined

theorem Sized.blocks (h : s.Sized) (ha : (s.requests r).Accepted) :
    (s.requests r).call.blocks ≠ [] := fun hnil => by
  have := h.size r ha.1
  have := Call.blocks_eq_nil.mp hnil
  omega

/-- The scheduler thread finds a block in a request of low priority. -/
theorem Requests.callbacks_ne_nil (h : s.Requests) (hsized : s.Sized) (hs : s.sched = .checkLow)
    (hr : r ∈ s.ioQueueLow) : (s.requests r).callbacks ≠ [] := by
  obtain ⟨ha, -, hcbs⟩ := h.of_checkLow hs hr
  exact fun hnil => hsized.blocks ha (hcbs hnil)

/-- Nothing is left to do for the two threads. -/
structure Done (s : PrioAio) : Prop where
  high : s.ioQueueHigh = []
  low : s.ioQueueLow = []
  sched : ∀ r stage, s.sched ≠ .on r stage

theorem Inv.executed_of_done (h : s.Inv) (hd : s.Done) (ha : (s.requests r).Accepted)
    (cb : AioCallback) : s.executed.count (r, cb) = (s.requests r).call.blocks.count cb := by
  have hstage : s.sched.stageOf r = none := by
    unfold Sched.stageOf
    split
    next hs => exact (hd.sched _ _ hs).elim
    next => rfl
  have hcbs := (h.requests.lives r).life.of_settled ha (by rw [hd.high]; rfl) (by rw [hd.low]; rfl)
    hstage
  exact h.blocks.executed_of_workedOff ⟨hcbs, by simp [hstage]⟩ cb

/-- How many steps of the scheduler thread are left before it looks for a request again, and more
for each block that it still has to enqueue. -/
def Stage.rank (len : Nat) : Stage → Nat
  | .enqueueAll => 20 * len + 10
  | .enqueueOne _ => 15
  | .wait _ => 9
  | .clear _ => 8
  | .complete _ => 7
  | .load => 6
  | .notify => 5

def Io.rank : Io → Nat
  | .idle => 0
  | .running .. => 2
  | .finished => 1

/-- The number of blocks in a request. -/
def blocksLeft (s : PrioAio) (r : Nat) : Nat := (s.requests r).callbacks.length

def schedRank (s : PrioAio) : Nat :=
  match s.sched with
  | .idle => 2
  | .checkHigh => 1
  | .checkLow => if s.ioQueueLow = [] then 3 else 0
  | .on r stage => stage.rank (s.blocksLeft r)
  | .undefined => 0

/-- The requests in the queues, with their blocks. -/
def queuedRank (s : PrioAio) : Nat :=
  Pool.load (fun r => 20 * s.blocksLeft r + 20) s.ioQueueHigh +
    Pool.load (fun r => 20 * s.blocksLeft r) s.ioQueueLow

def ioRank (s : PrioAio) : Nat := 3 * s.callbacks.length + s.io.rank

/-- What is left to do for the two threads. -/
def rank (s : PrioAio) : Nat := s.queuedRank + s.schedRank + s.ioRank

/-- The thread can do something. -/
def Helps (s : PrioAio) : Event → Prop
  | .schedule => ∀ r high, s.sched = .on r (.wait high) → s.pendingCallbacks = 0
  | .run => s.callbacks ≠ [] ∨ s.io ≠ .idle
  | _ => False

theorem Blocks.exists_helps (h : s.Blocks) : s.Helps .schedule ∨ s.Helps .run := by
  by_cases hp : s.pendingCallbacks = 0
  · exact .inl fun _ _ _ => hp
  · right
    have := h.thread
    by_cases hio : s.io = .idle
    · refine .inl fun hnil => hp ?_
      rw [this, hnil, hio]
      rfl
    · exact .inr hio

theorem blocksLeft_modify (r' : Nat) (f : AioRequest → AioRequest) :
    (s.modify r f).blocksLeft r' =
      if r' = r then (f (s.requests r)).callbacks.length else s.blocksLeft r' := by
  unfold blocksLeft
  split
  next hr =>
    subst hr
    rw [modify_requests_self]
  next hr => rw [modify_requests_ne hr]

/-- The queues are as they were, and so are the requests in them. -/
theorem queuedRank_congr (hhigh : s'.ioQueueHigh = s.ioQueueHigh)
    (hlow : s'.ioQueueLow = s.ioQueueLow)
    (hleft : ∀ r, r ∈ s.ioQueueHigh ∨ r ∈ s.ioQueueLow → s'.blocksLeft r = s.blocksLeft r) :
    s'.queuedRank = s.queuedRank := by
  rw [queuedRank, queuedRank, hhigh, hlow]
  congr 1
  · exact Pool.load_congr fun r hr => by rw [hleft r (.inl hr)]
  · exact Pool.load_congr fun r hr => by rw [hleft r (.inr hr)]

/-- The scheduler thread goes on, and blocks stay where they are. -/
theorem rank_goTo (hhigh : s'.ioQueueHigh = s.ioQueueHigh) (hlow : s'.ioQueueLow = s.ioQueueLow)
    (hleft : ∀ r, s'.blocksLeft r = s.blocksLeft r) (hio : s'.ioRank = s.ioRank)
    (hsched : s'.schedRank < s.schedRank) : s'.rank < s.rank := by
  have := queuedRank_congr hhigh hlow fun r _ => hleft r
  rw [rank, rank]
  omega

theorem ioRank_enqueue (cb : AioCallback) (high : Bool) :
    (s.enqueue r cb high).ioRank = s.ioRank + 3 := by
  simp only [ioRank, enqueue, length_append, length_singleton]
  omega

theorem rank_enqueueAll (h : s.Inv) (hs : s.sched = .on r .enqueueAll)
    (hcb : (s.requests r).callbacks = cb :: cbs) :
    ((s.modify r fun q => { q with callbacks := cbs }).enqueue r cb true).rank < s.rank := by
  obtain ⟨hhigh, hlow⟩ := (h.requests.life_on hs).notMem_of_enqueueAll
  rw [decide_eq_false_iff_not] at hhigh hlow
  generalize ht : (s.modify r fun q => { q with callbacks := cbs }) = t
  have hts : t.sched = .on r .enqueueAll := by rw [← ht]; exact hs
  have hleft : ∀ r', t.blocksLeft r' = if r' = r then cbs.length else s.blocksLeft r' := by
    intro r'
    rw [← ht, blocksLeft_modify]
  have hqueued : (t.enqueue r cb true).queuedRank = s.queuedRank := by
    refine queuedRank_congr (by rw [← ht]; rfl) (by rw [← ht]; rfl) fun r' hr' => ?_
    refine (hleft r').trans (if_neg ?_)
    rintro rfl
    exact hr'.elim hhigh hlow
  have hio : t.ioRank = s.ioRank := by rw [← ht]; rfl
  have hsched : s.schedRank = 20 * (cbs.length + 1) + 10 := by
    rw [schedRank, hs]
    simp only [blocksLeft, hcb]
    rfl
  have hsched' : (t.enqueue r cb true).schedRank = 20 * cbs.length + 10 := by
    have h0 : (t.enqueue r cb true).schedRank = t.schedRank := rfl
    rw [h0, schedRank, hts]
    simp only [hleft, if_true]
    rfl
  rw [rank, rank, ioRank_enqueue, hqueued, hsched, hsched', hio]
  omega

theorem rank_enqueueOne (hs : s.sched = .on r (.enqueueOne cb)) :
    rank { s.enqueue r cb false with sched := .on r (.wait false) } < s.rank := by
  have hsched : s.schedRank = 15 := by rw [schedRank, hs]; rfl
  have hio : ioRank { s.enqueue r cb false with sched := .on r (.wait false) } = s.ioRank + 3 :=
    ioRank_enqueue (r := r) cb false
  have hqueued : queuedRank { s.enqueue r cb false with sched := .on r (.wait false) } =
      s.queuedRank := rfl
  rw [rank, rank, hio, hqueued, hsched]
  show _ + 9 + _ < _
  omega

theorem rank_scheduleOn (h : s.Inv) (hs : s.sched = .on r stage) (hhelps : s.Helps .schedule) :
    (s.scheduleOn r stage).rank < s.rank := by
  have hlife := h.requests.life_on hs
  have hrank : s.schedRank = stage.rank (s.blocksLeft r) := by
    rw [schedRank, hs]
  -- a change to the request that leaves its blocks
  have hleft : ∀ {t : PrioAio} {q : AioRequest}, t.requests = Function.update s.requests r q →
      q.callbacks = (s.requests r).callbacks → ∀ r', t.blocksLeft r' = s.blocksLeft r' := by
    intro t q ht hq r'
    rw [blocksLeft, ht, Function.update_apply]
    split
    next hr => rw [hr, hq]; rfl
    next => rfl
  cases stage with
  | enqueueAll =>
    simp only [scheduleOn]
    split
    next cb cbs hcb => exact rank_enqueueAll h hs hcb
    next =>
      refine rank_goTo rfl rfl (fun _ => rfl) rfl ?_
      rw [hrank]
      exact Nat.lt_of_lt_of_le (by decide : 9 < 10) (Nat.le_add_left _ _)
  | enqueueOne cb => exact rank_enqueueOne hs
  | wait high =>
    simp only [scheduleOn]
    rw [if_pos (hhelps r high hs)]
    exact rank_goTo rfl rfl (fun _ => rfl) rfl (hrank ▸ (by decide : 8 < 9))
  | clear high =>
    obtain ⟨hnil, -⟩ := h.blocks.quiet (by rw [hs]; rfl)
    refine rank_goTo rfl rfl (fun _ => rfl) ?_ (hrank ▸ (by decide : 7 < 8))
    rw [ioRank, ioRank, hnil]
    rfl
  | complete high =>
    cases high with
    | true =>
      exact rank_goTo rfl rfl (hleft rfl hlife.callbacks_complete.symm) rfl (hrank ▸ (by decide : 5 < 7))
    | false => exact rank_goTo rfl rfl (hleft rfl rfl) rfl (hrank ▸ (by decide : 6 < 7))
  | load =>
    simp only [scheduleOn]
    split
    · exact rank_goTo rfl rfl (fun _ => rfl) rfl (hrank ▸ (by decide : 5 < 6))
    · exact rank_goTo rfl rfl (fun _ => rfl) rfl (hrank ▸ (by decide : 2 < 6))
  | notify => exact rank_goTo rfl rfl (hleft rfl rfl) rfl (hrank ▸ (by decide : 2 < 5))

theorem rank_takeHigh (hs : s.sched = .checkHigh) (hq : s.ioQueueHigh = r :: rest) :
    rank { s with ioQueueHigh := rest, sched := .on r .enqueueAll } < s.rank := by
  have hsched : s.schedRank = 1 := by rw [schedRank, hs]
  have hqueued : s.queuedRank = 20 * s.blocksLeft r + 20 +
      queuedRank { s with ioQueueHigh := rest, sched := .on r .enqueueAll } := by
    simp only [queuedRank, hq, Pool.load_cons, Nat.add_assoc]
    rfl
  rw [rank, rank, hsched, hqueued]
  show _ + (20 * s.blocksLeft r + 10) + s.ioRank < _
  omega

theorem rank_takeLow (h : s.Requests) (hs : s.sched = .checkLow) (hq : s.ioQueueLow = r :: rest)
    (hcb : (s.requests r).callbacks = cbs ++ [cb])
    (hreq : s'.requests = Function.update s.requests r { s.requests r with callbacks := cbs })
    (hhigh' : s'.ioQueueHigh = s.ioQueueHigh)
    (hlow' : s'.ioQueueLow = if cbs.isEmpty then rest else r :: rest) (hsched' : s'.schedRank = 15)
    (hio' : s'.ioRank = s.ioRank) : s'.rank < s.rank := by
  obtain ⟨hr, -⟩ := nodup_cons.mp (hq ▸ h.nodupLow)
  have hhigh : r ∉ s.ioQueueHigh := (h.of_checkLow hs (hq ▸ mem_cons_self)).2.1
  have hsched : s.schedRank = 0 := by
    rw [schedRank, hs]
    exact if_neg (by rw [hq]; rintro ⟨⟩)
  have hleft : ∀ r', s'.blocksLeft r' = if r' = r then cbs.length else s.blocksLeft r' := by
    intro r'
    rw [blocksLeft, hreq, Function.update_apply]
    split <;> rfl
  have hne : ∀ {l : List Nat} (g : Nat → Nat), r ∉ l →
      Pool.load (fun r' => g (s'.blocksLeft r')) l = Pool.load (fun r' => g (s.blocksLeft r')) l := by
    intro l g hl
    refine Pool.load_congr fun r' hr' => ?_
    have hrr : r' ≠ r := fun he => hl (he ▸ hr')
    rw [hleft, if_neg hrr]
  have hloadLow : Pool.load (fun r' => 20 * s'.blocksLeft r') s'.ioQueueLow + 20 =
      Pool.load (fun r' => 20 * s.blocksLeft r') s.ioQueueLow := by
    have hblocks : s.blocksLeft r = cbs.length + 1 := by
      rw [blocksLeft, hcb, length_append]
      rfl
    rw [hlow', hq, Pool.load_cons, hblocks]
    cases cbs with
    | nil =>
      have hrest := hne (20 * ·) hr
      simp only [isEmpty_nil, if_true, hrest, length_nil]
      omega
    | cons c cbs =>
      have hrest := hne (20 * ·) hr
      have hself := (hleft r).trans (if_pos rfl)
      simp only [isEmpty_cons, Bool.false_eq_true, if_false, Pool.load_cons, hrest, hself]
      omega
  have hloadHigh := hne (20 * · + 20) hhigh
  simp only [rank, queuedRank, hsched, hsched', hio', ← hloadLow, hhigh', hloadHigh]
  omega

theorem rank_schedule (h : s.Inv) (hsized : s.Sized) (hd : ¬ s.Done) (hhelps : s.Helps .schedule) :
    s.schedule.rank < s.rank := by
  unfold schedule
  split
  next hs =>
    have hrank : s.schedRank = 2 := by rw [schedRank, hs]
    exact rank_goTo rfl rfl (fun _ => rfl) rfl (hrank ▸ (by decide : 1 < 2))
  next hs =>
    split
    next r rest hq => exact rank_takeHigh hs hq
    next hhigh =>
      refine rank_goTo rfl rfl (fun _ => rfl) rfl ?_
      have hlow : s.ioQueueLow ≠ [] := fun hlow => hd ⟨hhigh, hlow, by simp [hs]⟩
      have hrank : s.schedRank = 1 := by rw [schedRank, hs]
      rw [hrank]
      exact Nat.lt_of_le_of_lt (Nat.le_of_eq (if_neg hlow)) Nat.zero_lt_one
  next hs =>
    split
    next hlow =>
      have hrank : s.schedRank = 3 := by
        rw [schedRank, hs]
        exact if_pos hlow
      exact rank_goTo rfl rfl (fun _ => rfl) rfl (hrank ▸ (by decide : 2 < 3))
    next r rest hq =>
      split
      next hnil =>
        -- a request in the queue has blocks
        have hmem : r ∈ s.ioQueueLow := hq ▸ mem_cons_self
        exact (h.requests.callbacks_ne_nil hsized hs hmem (getLast?_eq_none_iff.mp hnil)).elim
      next cb hcb =>
        exact rank_takeLow h.requests hs hq (dropLast_append_getLast? cb hcb).symm rfl rfl rfl rfl
          rfl
  next r stage hs => exact rank_scheduleOn h hs hhelps
  next hs => exact (hsized.defined hs).elim

theorem rank_run (h : s.Helps .run) : s.run.rank < s.rank := by
  have hsame : s.run.schedRank = s.schedRank ∧ s.run.queuedRank = s.queuedRank := by
    unfold run
    split
    · split <;> exact ⟨rfl, rfl⟩
    · exact ⟨rfl, rfl⟩
    · exact ⟨rfl, rfl⟩
  rw [rank, rank, hsame.1, hsame.2]
  refine Nat.add_lt_add_left ?_ _
  unfold run
  split
  next hio =>
    split
    next hq => exact (h.elim (· hq) (· hio)).elim
    next r cb rest hq =>
      simp only [ioRank, hq, hio, length_cons, Io.rank]
      omega
  next hio =>
    simp only [ioRank, hio, Io.rank]
    omega
  next hio =>
    simp only [ioRank, hio, Io.rank]
    omega

/-- A step that the source can take: a call is not for zero bytes. -/
def Event.Sized : Event → Prop
  | .call _ c => 1 ≤ c.numBytes
  | _ => True

instance : DecidablePred Event.Sized
  | .call _ c => inferInstanceAs (Decidable (1 ≤ c.numBytes))
  | .accept _ | .test _ | .block _ | .wake _ | .schedule | .run => isTrue trivial

/-- The callers go on, but no request is accepted any more. -/
def Event.Worked : Event → Prop
  | .accept _ => False
  | e => e.Sized

theorem Event.Worked.sized (h : e.Worked) : e.Sized := by
  cases e <;> first | exact h | trivial

theorem Sized.next (h : s.Sized) (hinv : s.Inv) (he : e.Sized) : (s.next e).Sized := by
  refine ⟨fun r => ?_, (hinv.next_defined_iff h.defined e).mpr fun _ hs r hr => ?_⟩
  · have hsize := h.size r
    have hstep := s.step_next e r
    generalize (s.next e).requests r = q at hstep ⊢
    cases hstep with
    | same | work => exact hsize
    | call c _ hevent =>
      subst hevent
      exact fun _ => he
    | accept hc | test hc | block hc | wake hc => exact fun _ => hsize (by rw [hc]; rintro ⟨⟩)
    | notify =>
      refine fun hne => hsize fun hc => hne ?_
      simp [hc]
  · obtain ⟨ha, -⟩ := hinv.requests.of_checkLow hs (mem_of_mem_head? hr)
    exact Nat.ne_of_gt (h.size r ha.1)

/-! ## Fair runs -/

/-- The invariant of runs without empty calls. -/
structure SizedInv (s : PrioAio) : Prop extends Inv s where
  sized : s.Sized
  order : s.Order

theorem SizedInv.next (h : s.SizedInv) (he : e.Sized) : (s.next e).SizedInv :=
  ⟨h.toInv.next e, h.sized.next h.toInv he, h.order.next e⟩

/-- A step of a caller does not concern the two threads. -/
theorem next_caller (he : e.Worked) (hs : e ≠ .schedule) (hr : e ≠ .run) :
    (s.next e).ioQueueHigh = s.ioQueueHigh ∧ (s.next e).ioQueueLow = s.ioQueueLow ∧
      (s.next e).sched = s.sched ∧ (s.next e).callbacks = s.callbacks ∧
      (s.next e).pendingCallbacks = s.pendingCallbacks ∧ (s.next e).io = s.io := by
  cases e with
  | accept r => exact he.elim
  | schedule => exact (hs rfl).elim
  | run => exact (hr rfl).elim
  | call | test | block | wake =>
    simp only [next]
    split <;> exact ⟨rfl, rfl, rfl, rfl, rfl, rfl⟩

theorem Done.next (h : s.Done) (he : e.Worked) : (s.next e).Done := by
  by_cases hs : e = .schedule
  · subst hs
    simp only [PrioAio.next, PrioAio.schedule]
    split
    next => exact ⟨h.high, h.low, by simp⟩
    next =>
      split
      next hq => cases h.high.symm.trans hq
      next => exact ⟨h.high, h.low, by simp⟩
    next =>
      split
      next => exact ⟨h.high, h.low, by simp⟩
      next hq => cases h.low.symm.trans hq
    next hs => exact (h.sched _ _ hs).elim
    next => exact h
  by_cases hr : e = .run
  · subst hr
    simp only [PrioAio.next, PrioAio.run]
    split
    · split
      · exact h
      · exact ⟨h.high, h.low, h.sched⟩
    · exact ⟨h.high, h.low, h.sched⟩
    · exact ⟨h.high, h.low, h.sched⟩
  · obtain ⟨hhigh, hlow, hsched, -⟩ := next_caller (s := s) he hs hr
    exact ⟨hhigh.trans h.high, hlow.trans h.low, hsched ▸ h.sched⟩

theorem blocksLeft_next_caller (he : e.Worked) (hs : e ≠ .schedule) (hr : e ≠ .run)
    (ha : (s.requests r).Accepted) : (s.next e).blocksLeft r = s.blocksLeft r := by
  cases e with
  | accept r => exact he.elim
  | schedule => exact (hs rfl).elim
  | run => exact (hr rfl).elim
  | call r' c =>
    simp only [next]
    split
    next hc =>
      have hne : r ≠ r' := fun heq => ha.1 (heq ▸ hc)
      exact (blocksLeft_modify r _).trans (if_neg hne)
    next => rfl
  | test r' | block r' | wake r' =>
    simp only [next]
    split
    · rw [blocksLeft_modify]
      split
      next heq => rw [heq]; rfl
      next => rfl
    · rfl

theorem rank_next_caller (h : s.Requests) (he : e.Worked) (hs : e ≠ .schedule) (hr : e ≠ .run) :
    (s.next e).rank = s.rank := by
  obtain ⟨hhigh, hlow, hsched, hq, -, hio⟩ := next_caller (s := s) he hs hr
  -- what is queued or under way is accepted
  have hleft : ∀ r, r ∈ s.ioQueueHigh ∨ r ∈ s.ioQueueLow ∨ s.sched.stageOf r ≠ none →
      (s.next e).blocksLeft r = s.blocksLeft r := by
    intro r hr'
    refine blocksLeft_next_caller he hs hr (by_contra fun ha => ?_)
    obtain ⟨h₁, h₂, h₃⟩ := (h.lives r).life.eq_of_not_accepted ha
    rw [decide_eq_false_iff_not] at h₁ h₂
    exact hr'.elim h₁ fun hr' => hr'.elim h₂ fun hr' => hr' h₃
  have hqueued : (s.next e).queuedRank = s.queuedRank :=
    queuedRank_congr hhigh hlow fun r hr' => hleft r (hr'.elim .inl fun h => .inr (.inl h))
  have hrank : (s.next e).schedRank = s.schedRank := by
    rw [schedRank, schedRank, hsched, hlow]
    cases hcase : s.sched with
    | on r stage =>
      have hstage : s.sched.stageOf r ≠ none := by
        rw [hcase, stageOf_on_self]
        rintro ⟨⟩
      simp only [hleft r (.inr (.inr hstage))]
    | _ => rfl
  rw [rank, rank, hqueued, hrank, ioRank, ioRank, hq, hio]

theorem helps_next_caller {t : Event} (he : e.Worked) (hs : e ≠ .schedule) (hr : e ≠ .run)
    (h : s.Helps t) : (s.next e).Helps t := by
  obtain ⟨-, -, hsched, hq, hp, hio⟩ := next_caller (s := s) he hs hr
  cases t with
  | schedule =>
    intro r high hw
    rw [hp]
    exact h r high (hsched ▸ hw)
  | run =>
    unfold Helps
    rw [hq, hio]
    exact h
  | _ => exact h.elim

/-- A thread that cannot do anything changes nothing. -/
theorem schedule_eq_self (h : ¬ s.Helps .schedule) : s.schedule = s := by
  have hw : ∃ r high, s.sched = .on r (.wait high) ∧ s.pendingCallbacks ≠ 0 := by
    by_contra hw
    exact h fun r high hs => by_contra fun hp => hw ⟨r, high, hs, hp⟩
  obtain ⟨r, high, hs, hp⟩ := hw
  unfold schedule
  simp only [hs, scheduleOn]
  exact if_neg hp

theorem run_eq_self (h : ¬ s.Helps .run) : s.run = s := by
  have hq : s.callbacks = [] := by_contra fun hq => h (.inl hq)
  have hio : s.io = .idle := by_contra fun hio => h (.inr hio)
  unfold run
  rw [hio, hq]

/-- The two threads work off what was accepted. -/
theorem progress : Run.Progress next SizedInv Event.Worked Done rank [.schedule, .run] Helps where
  inv _ _ h he := h.next he.sized
  stays _ _ _ he hd := hd.next he
  step s e h he hd := by
    by_cases hs : e = .schedule
    · subst hs
      by_cases hh : s.Helps .schedule
      · exact .inl (rank_schedule h.toInv h.sized hd hh)
      · rw [next, schedule_eq_self hh]
        exact .inr ⟨rfl, fun _ _ => id⟩
    by_cases hr : e = .run
    · subst hr
      by_cases hh : s.Helps .run
      · exact .inl (rank_run hh)
      · rw [next, run_eq_self hh]
        exact .inr ⟨rfl, fun _ _ => id⟩
    · exact .inr ⟨rank_next_caller h.requests he hs hr, fun _ _ => helps_next_caller he hs hr⟩
  exists_helps s h _ := by
    rcases h.blocks.exists_helps with hh | hh
    · exact ⟨.schedule, by simp, hh⟩
    · exact ⟨.run, by simp, hh⟩
  down s t ht h hd hh := by
    rcases mem_pair.mp ht with rfl | rfl
    · exact rank_schedule h.toInv h.sized hd hh
    · exact rank_run hh

/-- Request `r` is one of call `c`, and accepted. -/
def AcceptedAs (r : Nat) (c : Call) (s : PrioAio) : Prop :=
  (s.requests r).Accepted ∧ (s.requests r).call = c

theorem AcceptedAs.next {c : Call} (h : s.AcceptedAs r c) (e : Event) :
    (s.next e).AcceptedAs r c := by
  obtain ⟨ha, hc⟩ := h
  have hstep := s.step_next e r
  rw [AcceptedAs]
  generalize (s.next e).requests r = q at hstep ⊢
  cases hstep with
  | same | work => exact ⟨ha, hc⟩
  | call _ hq => exact (ha.1 hq).elim
  | accept hq => exact (ha.2 hq).elim
  | test =>
    refine ⟨?_, hc⟩
    dsimp only [AioRequest.Accepted]
    split <;> exact ⟨by rintro ⟨⟩, by rintro ⟨⟩⟩
  | block | wake => exact ⟨⟨by rintro ⟨⟩, by rintro ⟨⟩⟩, hc⟩
  | notify =>
    refine ⟨?_, hc⟩
    dsimp only [AioRequest.Accepted]
    split
    · exact ⟨by rintro ⟨⟩, by rintro ⟨⟩⟩
    · exact ha

theorem sizedInv_exec {events : List Event} (he : ∀ e ∈ events, e.Sized) :
    (Run.exec next {} events).SizedInv :=
  Run.inv_exec (fun _ _ h he => h.next he) he
    ⟨⟨.init, .init⟩, ⟨fun _ h => (h rfl).elim, by rintro ⟨⟩⟩, .init⟩

/-- A read of low priority that waits for a read of high priority, of two blocks. -/
def lowAndHigh : List Event :=
  [.call 0 ⟨true, 3, 0, false, 100, 0⟩, .accept 0,
    .call 1 ⟨true, 3, 4096, true, 1500000, 8192⟩, .accept 1, .test 0, .block 0] ++
  List.replicate 5 .schedule ++ List.replicate 6 .run ++ List.replicate 8 .schedule ++
  List.replicate 3 .run ++ List.replicate 5 .schedule ++ [.test 0, .test 1]

end Morphling.PrioAio
