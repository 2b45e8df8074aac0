import Mathlib.Tactic.IntervalCases
import Morphling.Gpu.Chunked
import Morphling.Lib.Run

/-!
# The SM budget

A worker must not use more SMs than the last target that it read grants, but for the smallest slot,
and a reading of `kNoChange` must leave its context as it is. Both fail: `SnapDown` answers the full
partition to every target that is not positive, so a reading of `kNoChange` or of 0 takes the worker
to its full partition.

* `Action.Obeys`: what an action has to meet, after the last target `last`.
* `Action.Granted`: the condition. `kNoChange` is read only on the full partition, 0 only where the
  partition is one step, and a call that reads nothing is made only when the last target grants the
  partition.
* `runCalls_obeys_iff`: the sequences of calls that obey are those whose actions are granted.
-/

namespace Morphling

open Run List ChunkLoop

/-! ## Slots -/

namespace XtGemmWorker

/-- The slots are the multiples of `sm_step` up to the partition: what `InitAllContexts` makes. -/
structure Partitioned (w : XtGemmWorker) : Prop where
  step_pos : 0 < w.smStep
  groups : ∃ g : Nat, 1 ≤ g ∧ w.partitionSmCount = g * w.smStep ∧
    ∀ sms, sms ∈ w.contextSlots ↔ ∃ i : Nat, 1 ≤ i ∧ i ≤ g ∧ sms = i * w.smStep

variable {w : XtGemmWorker} {target : Int}

theorem Partitioned.partition_mem (h : w.Partitioned) : w.partitionSmCount ∈ w.contextSlots := by
  obtain ⟨g, hg, hpart, hmem⟩ := h.groups
  exact (hmem _).mpr ⟨g, hg, Nat.le_refl g, hpart⟩

theorem Partitioned.step_mem (h : w.Partitioned) : w.smStep ∈ w.contextSlots := by
  obtain ⟨g, hg, -, hmem⟩ := h.groups
  exact (hmem _).mpr ⟨1, Nat.le_refl 1, hg, by simp⟩

theorem snapDown_of_nonpos (h : target ≤ 0) : w.snapDown target = w.partitionSmCount := if_pos (.inl h)

/-- The loop of `SnapDown` keeps what its first value and all admissible slots have. -/
theorem foldl_snap {Q : Int → Prop} {best : Int} {slots : List Int} (hbest : Q best)
    (hslots : ∀ sms ∈ slots, sms ≤ target → Q sms) :
    Q (slots.foldl (fun best sms => if sms ≤ target ∧ sms > best then sms else best) best) := by
  induction slots generalizing best with
  | nil => exact hbest
  | cons sms slots ih =>
    refine ih ?_ fun sms' hmem => hslots sms' (mem_cons_of_mem _ hmem)
    dsimp only
    split
    next hle => exact hslots sms mem_cons_self hle.1
    next => exact hbest

/-- `SnapDown` answers a slot. -/
theorem Partitioned.snapDown_mem (h : w.Partitioned) (target : Int) :
    w.snapDown target ∈ w.contextSlots := by
  unfold snapDown
  split
  · exact h.partition_mem
  · exact foldl_snap (Q := (· ∈ w.contextSlots)) h.step_mem fun sms hmem _ => hmem

/-- A positive target is obeyed. -/
theorem snapDown_le (hpos : 0 < target) : w.snapDown target ≤ max target w.smStep := by
  unfold snapDown
  split
  next h => omega
  next => exact foldl_snap (Q := (· ≤ max target w.smStep)) (by omega) fun sms _ hle => by omega

/-- The worker on another slot. -/
def on (w : XtGemmWorker) (slot : Int) : XtGemmWorker := { w with active := slot }

theorem Partitioned.on (h : w.Partitioned) (slot : Int) : (w.on slot).Partitioned :=
  ⟨h.step_pos, h.groups⟩

theorem Partitioned.switchContext_snapDown (h : w.Partitioned) (target : Int) :
    w.switchContext (w.snapDown target) = w.on (w.snapDown target) :=
  if_pos (h.snapDown_mem target)

end XtGemmWorker

/-! ## What a call does with its readings -/

/-- What `Read()` may return. -/
def IsReading (r : Int) : Prop := r = kNoChange ∨ 0 ≤ r

/-- Without a minimal dwell, each reading of the worker takes it to the slot for that reading. -/
def XtGemmWorker.Snaps (w : XtGemmWorker) (r _before after : Int) : Prop :=
  IsReading r ∧ after = w.snapDown r

section Loop
variable {env : FloatEnv} {cfg : DynConfig} {w : XtGemmWorker} {n : Nat} {l : ChunkLoop}

/-- The loop's invariant: a chunk is a column, so `dwell` does not overflow. -/
def ChunkLoop.Dwells (w : XtGemmWorker) (l : ChunkLoop) : Prop :=
  (∃ slot, l.worker = w.on slot) ∧ 0 ≤ l.dwell ∧ l.dwell ≤ l.j

theorem ChunkLoop.retarget_worker (hw : w.Partitioned) (hdwell : cfg.minDwellChunks = 0)
    (hl : l.Dwells w) (r : Int) :
    (l.retarget cfg r).2.worker = w.on (w.snapDown r) ∧
      0 ≤ (l.retarget cfg r).2.dwell ∧ (l.retarget cfg r).2.dwell ≤ l.dwell := by
  obtain ⟨⟨slot, hslot⟩, hpos, -⟩ := hl
  have hsnap : l.worker.snapDown r = w.snapDown r := by rw [hslot]; rfl
  unfold retarget
  dsimp only
  split
  · refine ⟨?_, Int.le_refl 0, hpos⟩
    dsimp only
    rw [hslot, (hw.on slot).switchContext_snapDown]
    rfl
  next hsame =>
    refine ⟨?_, hpos, Int.le_refl _⟩
    have heq : l.worker.snapDown r = l.worker.active := by
      by_contra hne
      exact hsame ⟨hne, by omega⟩
    rw [← hsnap, heq, hslot]
    rfl

theorem ChunkLoop.body_dwells (hw : w.Partitioned) (hdwell : cfg.minDwellChunks = 0)
    (hl : l.Dwells w) (hj : l.j < n) (hn : n < 2 ^ 31) (r : Int) (ms : Rat) :
    (l.body env cfg n r ms).2.Dwells w := by
  obtain ⟨hworker, hpos, hle⟩ := retarget_worker hw hdwell hl r
  have hcw := thisCw_bounds (n := n) (l := (l.retarget cfg r).2) (by rw [retarget_j]; omega)
  rw [retarget_j] at hcw
  have hold := hl.2.2
  have hnext : toInt32 ((l.retarget cfg r).2.dwell + 1) = (l.retarget cfg r).2.dwell + 1 :=
    Int.bmod_eq_of_le (by omega) (by omega)
  refine ⟨⟨_, (body_worker r ms).trans hworker⟩, ?_, ?_⟩
  · rw [body_dwell, hnext]
    omega
  · rw [body_dwell, hnext, body_j, retarget_j]
    omega

end Loop

/-! ## Obeying -/

/-- The last target after an action. -/
def lastTarget (last : Option Int) : Action → Option Int
  | .retarget r _ _ => if r = kNoChange then last else some r
  | _ => last

section Budget
variable (w : XtGemmWorker)

/-- `slot` has at most the SMs that the last target grants, or is the smallest. -/
def Within (last : Option Int) (slot : Int) : Prop := ∀ t ∈ last, slot ≤ max t w.smStep

/-- What is asked of an action after the last target `last`. -/
def Action.Obeys (last : Option Int) : Action → Prop
  | .retarget r before after => if r = kNoChange then after = before else after ≤ max r w.smStep
  | .runChunk slot _ _ => Within w last slot
  | _ => True

/-- The condition under which it is met; of an action it uses the reading and the slot before. -/
def Action.Granted (last : Option Int) : Action → Prop
  | .retarget r before _ =>
    (r = kNoChange → before = w.partitionSmCount) ∧ (r = 0 → w.partitionSmCount ≤ w.smStep)
  | .useAll _ _ => Within w last w.partitionSmCount
  | _ => True

instance (last : Option Int) (slot : Int) : Decidable (Within w last slot) :=
  inferInstanceAs (Decidable (∀ t ∈ last, slot ≤ max t w.smStep))

instance (last : Option Int) (act : Action) : Decidable (act.Obeys w last) := by
  cases act <;> unfold Action.Obeys <;> infer_instance

instance (last : Option Int) (act : Action) : Decidable (act.Granted w last) := by
  cases act <;> unfold Action.Granted <;> infer_instance

variable {w} {last : Option Int} {r s t : Int}

/-- A reading is obeyed exactly when it is granted. -/
theorem obeys_retarget_iff (hw : w.Partitioned) (h : w.Snaps r s t) :
    Action.Obeys w last (.retarget r s t) ↔ Action.Granted w last (.retarget r s t) := by
  obtain ⟨hr, rfl⟩ := h
  have hpos := hw.step_pos
  have hfull : ∀ r ≤ 0, w.snapDown r = w.partitionSmCount := fun _ =>
    XtGemmWorker.snapDown_of_nonpos
  rcases hr with rfl | hr
  · have hne : kNoChange ≠ 0 := by decide
    simp only [Action.Obeys, Action.Granted, hfull kNoChange (by decide), hne, if_true,
      true_imp_iff, false_imp_iff, and_true]
    exact eq_comm
  · have hne : r ≠ kNoChange := by unfold kNoChange; omega
    simp only [Action.Obeys, Action.Granted, hne, if_false, false_imp_iff, true_and]
    constructor
    · rintro hle rfl
      rw [hfull 0 (Int.le_refl 0)] at hle
      omega
    · intro hzero
      rcases Int.lt_or_eq_of_le hr with hlt | rfl
      · exact XtGemmWorker.snapDown_le hlt
      · have := hzero rfl
        rw [hfull 0 (Int.le_refl 0)]
        omega

/-- After a granted reading the slot is within the last target. -/
theorem within_retarget (hw : w.Partitioned) (h : w.Snaps r s t) (hs : Within w last s)
    (hgrant : Action.Granted w last (.retarget r s t)) :
    Within w (lastTarget last (.retarget r s t)) t := by
  have hobeys := (obeys_retarget_iff hw h).mpr hgrant
  by_cases hno : r = kNoChange
  · simp only [Action.Obeys, lastTarget, hno, if_true] at hobeys ⊢
    exact hobeys ▸ hs
  · simp only [Action.Obeys, lastTarget, hno, if_false] at hobeys ⊢
    rintro t' ⟨⟩
    exact hobeys

/-- The actions are obeyed exactly when they are granted, and then the slot `e` at their end is
within the last target. -/
structure Exact (w : XtGemmWorker) (last : Option Int) (acts : List Action) (e : Int) : Prop where
  obeys_iff : Along lastTarget (Action.Obeys w) last acts ↔
    Along lastTarget (Action.Granted w) last acts
  within : Along lastTarget (Action.Granted w) last acts → Within w (exec lastTarget last acts) e

variable {acts acts' : List Action} {e : Int}

theorem Exact.append (h : Exact w last acts s)
    (h' : Within w (exec lastTarget last acts) s → Exact w (exec lastTarget last acts) acts' e) :
    Exact w last (acts ++ acts') e := by
  constructor
  · rw [along_append, along_append, h.obeys_iff]
    exact and_congr_right fun hgrant => (h' (h.within hgrant)).obeys_iff
  · rw [along_append, exec_append]
    exact fun hgrant => (h' (h.within hgrant.1)).within hgrant.2

theorem exact_retarget (hw : w.Partitioned) (h : w.Snaps r s t) (hs : Within w last s) :
    Exact w last [.retarget r s t] t where
  obeys_iff := by simp only [Along, and_true, obeys_retarget_iff hw h]
  within hgrant := within_retarget hw h hs hgrant.1

/-- Copies and waits. -/
theorem exact_stage {R : Type*} [Zero R] [DecidableEq R] (args : GemmArgs R) (s' : Int)
    (hs : Within w last s) : Exact w last (stageActions args s') s := by
  by_cases hbeta : args.beta = 0 <;>
    exact ⟨by simp [stageActions, hbeta, Along, Action.Obeys, Action.Granted],
      by simpa [stageActions, hbeta, lastTarget] using fun _ => hs⟩

theorem exact_synchronize (s' : Int) (hs : Within w last s) :
    Exact w last [.synchronize s'] s := ⟨by simp [Along, Action.Obeys, Action.Granted], fun _ => hs⟩

theorem exact_timedChunk (j cw : Nat) (hs : Within w last s) :
    Exact w last (timedChunk s j cw) s :=
  ⟨by simp [timedChunk, Along, Action.Obeys, Action.Granted, lastTarget, hs], fun _ => hs⟩

/-- A chain of chunks, one after the other. -/
theorem ChunkActs.exact {n j : Nat} (hw : w.Partitioned) (h : ChunkActs w.Snaps n j s acts e)
    (hs : Within w last s) : Exact w last acts e := by
  induction h generalizing last with
  | done => exact ⟨Iff.rfl, fun _ => hs⟩
  | @chunk j s t e cw pre acts r hcw hj hpre hsnap _ ih =>
    have hpre : Exact w last pre t := by
      rcases hpre with ⟨rfl, rfl⟩ | rfl
      · exact exact_retarget hw hsnap hs
      · exact (exact_synchronize s hs).append (exact_retarget hw hsnap)
    exact (hpre.append (exact_timedChunk j cw)).append ih

end Budget

/-! ## Calls -/

/-- A call, with what its source returns and what its chunks take. -/
structure GemmCall (R : Type*) where
  readings : Nat → Int
  times : Nat → Rat
  args : GemmArgs R

/-- The readings and the width are what the source's types allow. -/
structure GemmCall.Valid {R : Type*} (call : GemmCall R) : Prop where
  isReading : ∀ i, IsReading (call.readings i)
  n_lt : call.args.n < 2 ^ 31

section Calls
variable {R : Type*} [Zero R] [DecidableEq R] (env : FloatEnv) (cfg : DynConfig)

/-- Calls of one worker, one after the other. -/
def runCalls : XtGemmWorker → List (GemmCall R) → Option (List Action × XtGemmWorker)
  | w, [] => some ([], w)
  | w, call :: calls => do
    let (acts, w) ← runChunkedGemm env cfg w (some call.readings) call.times call.args
    let (rest, w) ← runCalls w calls
    return (acts ++ rest, w)

variable {cfg} {w : XtGemmWorker} (slot : Int) {call : GemmCall R}

theorem runChunks_exact (hw : w.Partitioned) (hdwell : cfg.minDwellChunks = 0)
    (hcall : call.Valid) :
    ∃ acts e, runChunks env cfg (w.on slot) call.readings call.times call.args =
      some (acts, w.on e) ∧ ∀ last, Within w last slot → Exact w last acts e := by
  have hstart : (start cfg (w.on slot) (call.readings 0)).worker =
      w.on (w.snapDown (call.readings 0)) := (hw.on slot).switchContext_snapDown _
  have hdwells : (start cfg (w.on slot) (call.readings 0)).Dwells w := by
    refine ⟨⟨_, hstart⟩, ?_, ?_⟩ <;> simp [start, hdwell]
  obtain ⟨s, chunks, l, rfl, hrun, hchunks, ⟨e, he⟩, -⟩ := runChunks_eq_some env cfg (w.on slot)
    call.readings call.times call.args (P := w.Snaps) (I := Dwells w) (fun l i hl hj =>
      ⟨⟨hcall.isReading _, congrArg XtGemmWorker.active (l.retarget_worker hw hdwell hl _).1⟩,
        l.body_dwells hw hdwell hl hj hcall.n_lt _ _⟩) hdwells
  rw [hstart] at hrun hchunks
  rw [he] at hrun hchunks
  refine ⟨_, e, hrun, fun last hs => ?_⟩
  have hfirst := exact_retarget hw ⟨hcall.isReading 0, rfl⟩ hs
  exact ((hfirst.append (exact_stage _ _)).append (hchunks.exact hw)).append (exact_synchronize _)

/-- A call that reads nothing runs on the full partition. -/
theorem runWhole_exact (hw : w.Partitioned) (args : GemmArgs R) (last : Option Int) :
    (runWhole (w.on slot) args).2 = w.on w.partitionSmCount ∧
      Exact w last (runWhole (w.on slot) args).1 w.partitionSmCount := by
  have hswitch : (w.on slot).switchContext w.partitionSmCount = w.on w.partitionSmCount :=
    if_pos hw.partition_mem
  have hpart : (w.on slot).partitionSmCount = w.partitionSmCount := rfl
  have hactive : (w.on w.partitionSmCount).active = w.partitionSmCount := rfl
  refine ⟨hswitch, ?_⟩
  by_cases hbeta : args.beta = 0
  · constructor <;> simp [runWhole, hpart, hswitch, hactive, stageActions, hbeta, Along,
      Action.Obeys, Action.Granted, lastTarget]
  · constructor <;> simp [runWhole, hpart, hswitch, hactive, stageActions, hbeta, Along,
      Action.Obeys, Action.Granted, lastTarget]

/-- A call of the worker on `slot`. -/
theorem runChunkedGemm_exact (hw : w.Partitioned) (hdwell : cfg.minDwellChunks = 0)
    (hcall : call.Valid) :
    ∃ acts e, runChunkedGemm env cfg (w.on slot) (some call.readings) call.times call.args =
      some (acts, w.on e) ∧ ∀ last, Within w last slot → Exact w last acts e := by
  rw [runChunkedGemm]
  split
  · exact runChunks_exact env slot hw hdwell hcall
  · refine ⟨_, w.partitionSmCount, ?_, fun last _ => (runWhole_exact slot hw call.args last).2⟩
    rw [← (runWhole_exact slot hw call.args none).1]

/-- The calls return, whether they obey or not. -/
theorem runCalls_exact (hw : w.Partitioned) (hdwell : cfg.minDwellChunks = 0)
    {calls : List (GemmCall R)} (hcalls : ∀ call ∈ calls, call.Valid) :
    ∃ acts e, runCalls env cfg (w.on slot) calls = some (acts, w.on e) ∧
      ∀ last, Within w last slot → Exact w last acts e := by
  induction calls generalizing slot with
  | nil => exact ⟨[], slot, rfl, fun last hs => ⟨Iff.rfl, fun _ => hs⟩⟩
  | cons call calls ih =>
    obtain ⟨acts, s, hrun, hexact⟩ := runChunkedGemm_exact env slot hw hdwell
      (hcalls call mem_cons_self)
    obtain ⟨rest, e, hrest, hexact'⟩ := ih s fun call hmem =>
      hcalls call (mem_cons_of_mem _ hmem)
    refine ⟨acts ++ rest, e, ?_, fun last hs => (hexact last hs).append (hexact' _)⟩
    simp [runCalls, hrun, hrest]

/-- The sequences of calls that keep to the budget are exactly those where each `kNoChange` is read
on the full partition, 0 is read only where the partition is one step, and a call that reads nothing
is made only when the last target grants the partition. -/
theorem runCalls_obeys_iff (env : FloatEnv) (cfg : DynConfig) (w : XtGemmWorker)
    (calls : List (GemmCall R)) (hw : w.Partitioned) (hdwell : cfg.minDwellChunks = 0)
    (hcalls : ∀ call ∈ calls, call.Valid) :
    ∃ acts w', runCalls env cfg w calls = some (acts, w') ∧
      (Along lastTarget (Action.Obeys w) none acts ↔
        Along lastTarget (Action.Granted w) none acts) := by
  obtain ⟨acts, e, hrun, hexact⟩ := runCalls_exact env w.active hw hdwell hcalls
  exact ⟨acts, w.on e, hrun, (hexact none nofun).obeys_iff⟩

/-- Two slots, and a call of one column. -/
def twoSlots : XtGemmWorker :=
  { smStep := 2, partitionSmCount := 4, contextSlots := [2, 4], active := 4 }

def oneColumn : GemmArgs Int :=
  { transa := 'N', transb := 'N', m := 1, n := 1, k := 1, alpha := 1, a := [1], lda := 1, b := [1]
    ldb := 1, beta := 0, c := [0], ldc := 1 }

theorem twoSlots_partitioned : twoSlots.Partitioned := by
  refine ⟨by decide, 2, by decide, rfl, fun sms => ?_⟩
  constructor
  · intro hmem
    rcases mem_pair.mp hmem with rfl | rfl
    · exact ⟨1, by decide, by decide, rfl⟩
    · exact ⟨2, by decide, by decide, rfl⟩
  · rintro ⟨i, h1, h2, rfl⟩
    interval_cases i <;> decide

/-- The target is 2, and then no stable reading is obtained: the chunk runs on 4 SMs. -/
theorem runCalls_noChange_grows : twoSlots.Partitioned ∧
    (⟨fun i => if i = 0 then 2 else kNoChange, fun _ => 1, oneColumn⟩ : GemmCall Int).Valid ∧
    ∃ acts w', runCalls ⟨id⟩ { enabled := true } twoSlots
        [⟨fun i => if i = 0 then 2 else kNoChange, fun _ => 1, oneColumn⟩] = some (acts, w') ∧
      .runChunk 4 0 1 ∈ acts ∧ ¬ Along lastTarget (Action.Obeys twoSlots) none acts := by
  refine ⟨twoSlots_partitioned, ⟨fun i => ?_, by decide⟩, ?_⟩
  · unfold IsReading
    dsimp only
    split
    · exact .inr (by decide)
    · exact .inl rfl
  · have hrun : runCalls ⟨id⟩ { enabled := true } twoSlots
        [⟨fun i => if i = 0 then 2 else kNoChange, fun _ => 1, oneColumn⟩] =
          some ([.retarget 2 4 2, .stageA 2, .stageB 2, .synchronize 2, .retarget kNoChange 2 4,
            .eventRecord 4 false, .runChunk 4 0 1, .eventRecord 4 true, .eventSynchronize true,
            .synchronize 4], twoSlots) := by decide +kernel
    exact ⟨_, _, hrun, by decide, by decide⟩

/-- A target of half the partition: the worker leaves the slot of 4 SMs. -/
theorem runCalls_obeys_half : ∃ acts w', runCalls ⟨id⟩ { enabled := true } twoSlots
      [⟨fun _ => 2, fun _ => 1, oneColumn⟩] = some (acts, w') ∧
    .runChunk 2 0 1 ∈ acts ∧ Along lastTarget (Action.Obeys twoSlots) none acts := by
  have hvalid : ∀ call ∈ [(⟨fun _ => 2, fun _ => 1, oneColumn⟩ : GemmCall Int)], call.Valid := by
    intro call hmem
    obtain rfl := mem_singleton.mp hmem
    exact ⟨fun _ => .inr (show (0 : Int) ≤ 2 by decide), by decide⟩
  obtain ⟨acts, w', hcalls, hiff⟩ :=
    runCalls_obeys_iff ⟨id⟩ { enabled := true } twoSlots _ twoSlots_partitioned rfl hvalid
  have hrun : runCalls ⟨id⟩ { enabled := true } twoSlots [⟨fun _ => 2, fun _ => 1, oneColumn⟩] =
      some ([.retarget 2 4 2, .stageA 2, .stageB 2, .retarget 2 2 2, .eventRecord 2 false,
        .runChunk 2 0 1, .eventRecord 2 true, .eventSynchronize true, .synchronize 2],
        { twoSlots with active := 2 }) := by decide +kernel
  rw [hcalls] at hrun
  cases hrun
  exact ⟨_, _, hcalls, by decide, hiff.mpr (by decide)⟩

end Calls

end Morphling
