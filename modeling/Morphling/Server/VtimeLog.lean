import Morphling.Analysis.BatchBound
import Morphling.Server.Response

/-!
# The phases in the VTIME log (`proxy_svr.cpp`)

Two handlers write the VTIME records of a partition: `SendInLoop` those of SEND, `HandleMatMul` those
of RECEIVE and, from what `send_meta_` kept about the send and from the profile of the device, those
of DOWNLOAD, COMPUTE and UPLOAD. `compute_batch_runtime` adds up the END records of a GEMM.

* `World`: the handler together with the partitions that wait for an answer and the exchanges that are
  over. The log is a permutation of the records of both (`Inv.log`), however they are interleaved.
* `filter_records`: how often a phase of one exchange is marked.
* `paired_iff`: SEND is paired in every run; DOWNLOAD, COMPUTE and UPLOAD are exactly where the device
  of each answer is known; RECEIVE is only where there was no answer, since its END is written twice.

The clock, the sizes on the wire and the state of the devices are inputs of a step. The text of a
record is not modelled, nor is the part of the handlers that writes no record.
-/

namespace Morphling.VtimeLog

open List
open BatchRuntime (Phase VTimeEvent vtimePhases)

/-! ## The log -/

/-- `event` -/
inductive Mark where
  | start
  | end_
  deriving DecidableEq

/-- What a record says about a partition, and which one it is. -/
structure Ident where
  key : AnswerKey
  devId : Int
  gemmId : Int
  deriving DecidableEq

/-- A VTIME line. The log itself has no key. -/
structure Record where
  partition : Ident
  phase : Phase
  event : Mark
  vtStartUs : UInt64
  vtEndUs : UInt64
  vtDurationUs : UInt64
  deriving DecidableEq

/-- The record that `LogVirtualTimeEvent` formats. -/
def vtimeRecord (partition : Ident) (phase : Phase) (event : Mark) (vtStartUs vtEndUs : UInt64) :
    Record where
  partition
  phase
  event
  vtStartUs
  vtEndUs
  vtDurationUs := if vtEndUs > vtStartUs then vtEndUs - vtStartUs else 0

/-- `parse_vtime_log` -/
def parseVtimeLog (log : List Record) : List VTimeEvent :=
  (log.filter (·.event = .end_)).map fun r => ⟨r.partition.gemmId, r.phase, r.vtDurationUs.toNat⟩

/-! ## The handlers -/

/-- What the handlers read of a partition; `mat` has the sizes of its matrices, in bytes. -/
structure Partition extends Ident where
  hDim : Nat
  mat : List Nat

structure SendMeta where
  vtSendEndUs : UInt64
  sendBytes : Nat
  m : Nat
  n : Nat
  hDim : Nat

/-- A send, with the times that it reads and the size that it has on the wire. -/
structure Send where
  partition : Partition
  vtSendStart : UInt64
  vtSendEnd : UInt64
  size : Nat

/-- What `GetDeviceLiveness` returns; the id is -1 where the device is not known. -/
structure Liveness where
  deviceId : Int
  profile : Wire.DeviceProfileData

/-- An answer, with the times that it reads and the size that it has on the wire. -/
structure Answer extends Ident where
  size : Nat
  vtReceiveStart : UInt64
  vtReceiveEnd : UInt64
  liveness : Liveness

/-- The fields that the records depend on; `perf_log_file_` is the tracker's. -/
structure ProxySvrHandle where
  perfLogFile : Option (List Record)
  sendMeta : List (AnswerKey × SendMeta)

namespace ProxySvrHandle

/-- `LogVirtualTimeEvent` -/
def logVirtualTimeEvent (h : ProxySvrHandle) (partition : Ident) (phase : Phase) (event : Mark)
    (vtStartUs vtEndUs : UInt64) : ProxySvrHandle :=
  match h.perfLogFile with
  | none => h
  | some log =>
    { h with perfLogFile := some (log ++ [vtimeRecord partition phase event vtStartUs vtEndUs]) }

/-- The loop over the matrices of a partition: `sm.m` and `sm.n`. -/
def dims (p : Partition) : Nat × Nat :=
  p.mat.foldl (fun (m, n) matBytes =>
    let dim := matBytes / p.hDim / 4
    if m = 0 then (dim, n) else (m, dim)) (0, 0)

def sendMetaOf (s : Send) : SendMeta where
  vtSendEndUs := s.vtSendEnd
  sendBytes := s.size
  m := (dims s.partition).1
  n := (dims s.partition).2
  hDim := s.partition.hDim

/-- The task that `SendInLoop` queues and runs. -/
def sendInLoop (h : ProxySvrHandle) (s : Send) : ProxySvrHandle :=
  let id := s.partition.toIdent
  let h := h.logVirtualTimeEvent id .send .start s.vtSendStart s.vtSendStart
  let h := h.logVirtualTimeEvent id .send .end_ s.vtSendStart s.vtSendEnd
  { h with sendMeta := Dict.set id.key (sendMetaOf s) h.sendMeta }

/-- `x > 0 ? x : 1.0` -/
def orOne (x : Nat) : ℚ := if x > 0 then x else 1

/-- `static_cast<uint64_t>` -/
def castUs (q : ℚ) : UInt64 := UInt64.ofNat q.floor.toNat

def dlDurUs (sm : SendMeta) (prof : Wire.DeviceProfileData) : UInt64 :=
  castUs (sm.sendBytes / orOne prof.dlBw * 1000000 + prof.dlLat)

def compDurUs (sm : SendMeta) (prof : Wire.DeviceProfileData) : UInt64 :=
  castUs (2 * sm.m * sm.n * sm.hDim / orOne prof.flops * 1000000)

def ulDurUs (size : Nat) (prof : Wire.DeviceProfileData) : UInt64 :=
  castUs (size / orOne prof.ulBw * 1000000 + prof.ulLat)

/-- The records of `HandleMatMul`. -/
def handleMatMul (h : ProxySvrHandle) (a : Answer) : ProxySvrHandle :=
  let id := a.toIdent
  let h := h.logVirtualTimeEvent id .receive .start a.vtReceiveStart a.vtReceiveStart
  let h := h.logVirtualTimeEvent id .receive .end_ a.vtReceiveStart a.vtReceiveEnd
  -- Written once more after `WriteResultBlock`.
  let h := h.logVirtualTimeEvent id .receive .end_ a.vtReceiveStart a.vtReceiveEnd
  match h.sendMeta.lookup id.key with
  | none => h
  | some sm =>
    if a.liveness.deviceId ≥ 0 then
      let prof := a.liveness.profile
      let vtDlStart := sm.vtSendEndUs
      let vtDlEnd := vtDlStart + dlDurUs sm prof
      let vtCompStart := vtDlEnd
      let vtCompEnd := vtCompStart + compDurUs sm prof
      let vtUlStart := vtCompEnd
      let vtUlEnd := vtUlStart + ulDurUs a.size prof
      let h := h.logVirtualTimeEvent id .download .start vtDlStart vtDlStart
      let h := h.logVirtualTimeEvent id .download .end_ vtDlStart vtDlEnd
      let h := h.logVirtualTimeEvent id .compute .start vtCompStart vtCompStart
      let h := h.logVirtualTimeEvent id .compute .end_ vtCompStart vtCompEnd
      let h := h.logVirtualTimeEvent id .upload .start vtUlStart vtUlStart
      let h := h.logVirtualTimeEvent id .upload .end_ vtUlStart vtUlEnd
      { h with sendMeta := Dict.erase id.key h.sendMeta }
    else h

end ProxySvrHandle

/-! ## Exchanges -/

/-- A partition that was sent and answered. -/
structure Exchange where
  sent : Send
  answer : Answer
  same : answer.toIdent = sent.partition.toIdent

namespace Exchange

open ProxySvrHandle

variable (x : Exchange)

/-- The server knows the device of the answer. -/
def Known : Prop := x.answer.liveness.deviceId ≥ 0

instance : Decidable x.Known := inferInstanceAs (Decidable (_ ≤ _))

/-- Where a phase starts and ends. -/
def span : Phase → UInt64 × UInt64 :=
  let sm := sendMetaOf x.sent
  let prof := x.answer.liveness.profile
  let dlEnd := x.sent.vtSendEnd + dlDurUs sm prof
  let compEnd := dlEnd + compDurUs sm prof
  fun
  | .send => (x.sent.vtSendStart, x.sent.vtSendEnd)
  | .download => (x.sent.vtSendEnd, dlEnd)
  | .compute => (dlEnd, compEnd)
  | .upload => (compEnd, compEnd + ulDurUs x.answer.size prof)
  | .receive => (x.answer.vtReceiveStart, x.answer.vtReceiveEnd)

/-- The record of a mark of a phase. -/
def record (phase : Phase) (event : Mark) : Record :=
  match event with
  | .start => vtimeRecord x.answer.toIdent phase .start (x.span phase).1 (x.span phase).1
  | .end_ => vtimeRecord x.answer.toIdent phase .end_ (x.span phase).1 (x.span phase).2

/-- The duration of a phase. -/
def durationUs (phase : Phase) : UInt64 := (x.record phase .end_).vtDurationUs

end Exchange

/-- The records of a send. -/
def sendRecords (s : Send) : List Record :=
  [vtimeRecord s.partition.toIdent .send .start s.vtSendStart s.vtSendStart,
    vtimeRecord s.partition.toIdent .send .end_ s.vtSendStart s.vtSendEnd]

namespace Exchange

variable (x : Exchange)

/-- The records that need the profile of the device. -/
def profileRecords : List Record :=
  [Phase.download, .compute, .upload].flatMap fun phase => [x.record phase .start, x.record phase .end_]

/-- The records of an answer. -/
def answerRecords : List Record :=
  [x.record .receive .start, x.record .receive .end_, x.record .receive .end_] ++
    if x.Known then x.profileRecords else []

def records : List Record := sendRecords x.sent ++ x.answerRecords

/-- How often a mark of a phase is written. -/
def times (phase : Phase) (event : Mark) : Nat :=
  match phase, event with
  | .send, _ => 1
  | .receive, .start => 1
  | .receive, .end_ => 2
  | .download, _ | .compute, _ | .upload, _ => if x.Known then 1 else 0

theorem sendRecords_eq : sendRecords x.sent = [x.record .send .start, x.record .send .end_] := by
  simp only [sendRecords, record, span, x.same]

@[simp] theorem record_partition (phase : Phase) (event : Mark) :
    (x.record phase event).partition = x.answer.toIdent := by
  cases event <;> rfl

@[simp] theorem record_phase (phase : Phase) (event : Mark) :
    (x.record phase event).phase = phase := by
  cases event <;> rfl

@[simp] theorem record_event (phase : Phase) (event : Mark) :
    (x.record phase event).event = event := by
  cases event <;> rfl

/-- The records of one mark of a phase. -/
theorem filter_records (phase : Phase) (event : Mark) :
    x.records.filter (fun r => r.phase = phase ∧ r.event = event) =
      List.replicate (x.times phase event) (x.record phase event) := by
  rw [records, answerRecords, sendRecords_eq]
  by_cases hknown : x.Known <;> cases phase <;> cases event <;>
    simp [times, profileRecords, hknown]

theorem partition_of_mem_records {r : Record} (hr : r ∈ x.records) :
    r.partition = x.answer.toIdent := by
  rw [records, answerRecords, sendRecords_eq] at hr
  have hsplit : r ∈ [x.record .send .start, x.record .send .end_] ∨
      r ∈ [x.record .receive .start, x.record .receive .end_, x.record .receive .end_] ∨
      r ∈ x.profileRecords := by
    rcases mem_append.mp hr with h | h
    · exact .inl h
    · rcases mem_append.mp h with h | h
      · exact .inr (.inl h)
      · split at h
        · exact .inr (.inr h)
        · cases h
  simp only [profileRecords, mem_flatMap, mem_cons, not_mem_nil, or_false] at hsplit
  obtain (rfl | rfl) | (rfl | rfl | rfl) | ⟨phase, -, rfl | rfl⟩ := hsplit <;>
    exact x.record_partition _ _

end Exchange

/-! ## Runs -/

/-- A step of the loop. -/
inductive Op where
  | send (s : Send)
  | answer (a : Answer)

/-- The handler, the partitions that wait for an answer, and the exchanges that are over. -/
structure World where
  handle : ProxySvrHandle
  pending : List (AnswerKey × Send)
  answered : List Exchange

namespace World

/-- The log is open and empty. -/
def init : World where
  handle := ⟨some [], []⟩
  pending := []
  answered := []

def next (w : World) : Op → World
  | .send s =>
    { w with
      handle := w.handle.sendInLoop s
      pending := (s.partition.key, s) :: w.pending }
  | .answer a =>
    let handle := w.handle.handleMatMul a
    match w.pending.lookup a.key with
    | none => { w with handle }
    | some s =>
      if same : a.toIdent = s.partition.toIdent then
        { handle
          pending := Dict.erase a.key w.pending
          answered := ⟨s, a, same⟩ :: w.answered }
      else { w with handle }

/-- Each partition is sent once, and answered once after that. -/
def Enabled (w : World) : Op → Prop
  | .send s =>
    s.partition.key ∉ Dict.keys w.pending ∧ s.partition.key ∉ w.answered.map (·.answer.key)
  | .answer a => (w.pending.lookup a.key).map (·.partition.toIdent) = some a.toIdent

instance (w : World) : ∀ op, Decidable (w.Enabled op)
  | .send _ => inferInstanceAs (Decidable (_ ∧ _))
  | .answer _ => inferInstanceAs (Decidable (_ = _))

/-- The lines of the log. -/
def log (w : World) : List Record := w.handle.perfLogFile.getD []

/-- The records that the log has of a partition, for a mark of a phase. -/
def marks (w : World) (key : AnswerKey) (phase : Phase) (event : Mark) : List Record :=
  w.log.filter fun r => r.partition.key = key ∧ r.phase = phase ∧ r.event = event

/-- What `compute_batch_runtime` adds up for a phase of a GEMM. -/
def summedUs (w : World) (gemmId : Int) (phase : Phase) : Int :=
  ((((vtimePhases (parseVtimeLog w.log)).lookup gemmId).getD []).lookup phase).getD 0

/-- Each answered partition has one START and one END of the phase, and the sum for a GEMM is that of
one duration for each of its partitions. -/
structure Paired (w : World) (phase : Phase) : Prop where
  once : ∀ x ∈ w.answered, ∀ event, (w.marks x.answer.key phase event).length = 1
  summed : ∀ gemmId, w.summedUs gemmId phase =
    ((w.answered.filter (·.answer.gemmId = gemmId)).map fun x => ((x.durationUs phase).toNat : Int)).sum

/-- What the log and `send_meta_` have. -/
structure Inv (w : World) : Prop where
  isOpen : w.handle.perfLogFile = some w.log
  log : w.log.Perm (w.pending.flatMap (sendRecords ·.2) ++ w.answered.flatMap Exchange.records)
  sendMeta : ∀ k s, w.pending.lookup k = some s →
    w.handle.sendMeta.lookup k = some (ProxySvrHandle.sendMetaOf s)
  nodup : (Dict.keys w.pending ++ w.answered.map (·.answer.key)).Nodup

end World

/-! ## What a step writes -/

namespace ProxySvrHandle

variable {h : ProxySvrHandle} {log : List Record}

theorem log_sendInLoop (hlog : h.perfLogFile = some log) (s : Send) :
    (h.sendInLoop s).perfLogFile = some (log ++ sendRecords s) := by
  simp [sendInLoop, logVirtualTimeEvent, hlog, sendRecords]

theorem sendMeta_sendInLoop (hlog : h.perfLogFile = some log) (s : Send) :
    (h.sendInLoop s).sendMeta = Dict.set s.partition.key (sendMetaOf s) h.sendMeta := by
  simp [sendInLoop, logVirtualTimeEvent, hlog]

theorem log_handleMatMul (hlog : h.perfLogFile = some log) (x : Exchange)
    (hmeta : h.sendMeta.lookup x.answer.key = some (sendMetaOf x.sent)) :
    (h.handleMatMul x.answer).perfLogFile = some (log ++ x.answerRecords) := by
  by_cases hknown : x.answer.liveness.deviceId ≥ 0 <;>
    simp [handleMatMul, logVirtualTimeEvent, hlog, hmeta, hknown, Exchange.answerRecords,
      Exchange.Known, Exchange.profileRecords, Exchange.record, Exchange.span, sendMetaOf]

/-- An answer forgets no other send. -/
theorem sendMeta_handleMatMul (hlog : h.perfLogFile = some log) (a : Answer) {k : AnswerKey}
    (hk : k ≠ a.key) : (h.handleMatMul a).sendMeta.lookup k = h.sendMeta.lookup k := by
  simp only [handleMatMul, logVirtualTimeEvent, hlog]
  split
  · rfl
  · split
    · rw [Dict.lookup_erase, if_neg hk]
    · rfl

end ProxySvrHandle

namespace World

open ProxySvrHandle

variable {w : World} {a : Answer}

theorem Inv.init : World.init.Inv where
  isOpen := rfl
  log := .nil
  sendMeta _ _ h := by cases h
  nodup := .nil

theorem Inv.send (hw : w.Inv) {s : Send} (h : w.Enabled (.send s)) : (w.next (.send s)).Inv := by
  have hlog := log_sendInLoop hw.isOpen s
  have heq : (w.next (.send s)).log = w.log ++ sendRecords s := by
    simp only [World.log, next, hlog, Option.getD_some]
  refine ⟨by rw [heq]; exact hlog, ?_, fun k s' hs' => ?_, ?_⟩
  · rw [heq]
    exact (perm_append_comm.trans (hw.log.append_left _)).trans (by simp [next])
  · simp only [next, Dict.lookup_cons] at hs'
    simp only [next, sendMeta_sendInLoop hw.isOpen, Dict.set, Dict.lookup_modify]
    split at hs'
    · rw [if_pos ‹_›, Option.some.inj hs']
    · rw [if_neg ‹_›]
      exact hw.sendMeta k s' hs'
  · refine nodup_cons.mpr ⟨fun hmem => ?_, hw.nodup⟩
    exact (mem_append.mp hmem).elim h.1 h.2

/-- An answer that is enabled ends the exchange of its partition. -/
theorem next_answer (h : w.Enabled (.answer a)) :
    ∃ x : Exchange, x.answer = a ∧ w.pending.lookup a.key = some x.sent ∧
      w.next (.answer a) =
        ⟨w.handle.handleMatMul a, Dict.erase a.key w.pending, x :: w.answered⟩ := by
  obtain ⟨s, hs, hsame⟩ := Option.map_eq_some_iff.mp h
  refine ⟨⟨s, a, hsame.symm⟩, rfl, hs, ?_⟩
  simp only [next, hs, dif_pos hsame.symm]

theorem Inv.answer (hw : w.Inv) (h : w.Enabled (.answer a)) : (w.next (.answer a)).Inv := by
  obtain ⟨x, rfl, hs, hnext⟩ := next_answer h
  have hlog := log_handleMatMul hw.isOpen x (hw.sendMeta _ _ hs)
  have hperm := Dict.perm_cons_erase (List.nodup_append.mp hw.nodup).1 hs
  have heq : (w.next (.answer x.answer)).log = w.log ++ x.answerRecords := by
    simp only [World.log, hnext, hlog, Option.getD_some]
  refine ⟨by rw [heq, hnext]; exact hlog, ?_, fun k s hks => ?_, ?_⟩
  · -- The records of the answer join those of the send.
    rw [heq, hnext]
    have hsends : w.log.Perm ((sendRecords x.sent ++
        (Dict.erase x.answer.key w.pending).flatMap (sendRecords ·.2)) ++
        w.answered.flatMap Exchange.records) :=
      hw.log.trans ((hperm.flatMap_right _).append_right _)
    refine (hsends.append_right _).trans ?_
    simp only [flatMap_cons, Exchange.records]
    grind
  · rw [hnext] at hks ⊢
    rw [Dict.lookup_erase] at hks
    split at hks
    · cases hks
    · rw [sendMeta_handleMatMul hw.isOpen _ ‹_›]
      exact hw.sendMeta k s hks
  · rw [hnext]
    have hkeys := (hperm.map Prod.fst).append_right (w.answered.map (·.answer.key))
    exact (perm_middle.symm.nodup_iff).mp (hkeys.nodup_iff.mp hw.nodup)

theorem Inv.next (hw : w.Inv) {op : Op} (h : w.Enabled op) : (w.next op).Inv := by
  cases op with
  | send s => exact hw.send h
  | answer a => exact hw.answer h

/-- The log of every run. -/
theorem Inv.run {ops : List Op} (hops : Run.Along World.next Enabled World.init ops) :
    (Run.exec World.next World.init ops).Inv :=
  (hops.always (fun _ _ hw h => hw.next h) Inv.init).last

/-! ## The phases of the exchanges -/

/-- The log of a run in which every partition was answered. -/
theorem Inv.log_of_answered (hw : w.Inv) (hdone : w.pending = []) :
    w.log.Perm (w.answered.flatMap Exchange.records) := by
  have hlog := hw.log
  rwa [hdone] at hlog

/-- The marks of a partition are those of its exchange. -/
theorem length_marks (hw : w.Inv) (hdone : w.pending = []) {x : Exchange} (hx : x ∈ w.answered)
    (phase : Phase) (event : Mark) :
    (w.marks x.answer.key phase event).length = x.times phase event := by
  obtain ⟨xs, ys, hsplit⟩ := append_of_mem hx
  have hnodup := (List.nodup_append.mp hw.nodup).2.1
  rw [hsplit, map_append, map_cons, nodup_middle, nodup_cons,
    ← map_append] at hnodup
  have hothers : ∀ zs, zs ⊆ xs ++ ys → (zs.flatMap Exchange.records).filter (fun r =>
      r.partition.key = x.answer.key ∧ r.phase = phase ∧ r.event = event) = [] := by
    intro zs hzs
    refine filter_eq_nil_iff.mpr fun r hr hkey => ?_
    obtain ⟨y, hy, hr⟩ := mem_flatMap.mp hr
    rw [decide_eq_true_iff, y.partition_of_mem_records hr] at hkey
    exact hnodup.1 (mem_map.mpr ⟨y, hzs hy, hkey.1⟩)
  have hown : x.records.filter (fun r =>
      r.partition.key = x.answer.key ∧ r.phase = phase ∧ r.event = event) =
      x.records.filter fun r => r.phase = phase ∧ r.event = event :=
    filter_congr fun r hr => by rw [x.partition_of_mem_records hr]; simp
  rw [marks, ((hw.log_of_answered hdone).filter _).length_eq, hsplit, flatMap_append,
    flatMap_cons, filter_append, filter_append,
    hothers xs (subset_append_left _ _), hothers ys (subset_append_right _ _), hown,
    x.filter_records]
  simp

/-- The END records of a phase of a GEMM. -/
def ends (gemmId : Int) (phase : Phase) (log : List Record) : List Record :=
  (log.filter fun r => r.phase = phase ∧ r.event = .end_).filter (·.partition.gemmId = gemmId)

theorem ends_records (gemmId : Int) (phase : Phase) (x : Exchange) :
    ends gemmId phase x.records =
      if x.answer.gemmId = gemmId then
        List.replicate (x.times phase .end_) (x.record phase .end_)
      else [] := by
  rw [ends, x.filter_records, filter_replicate, x.record_partition]
  simp

theorem summedUs_eq (gemmId : Int) (phase : Phase) :
    w.summedUs gemmId phase =
      ((ends gemmId phase w.log).map fun r => (r.vtDurationUs.toNat : Int)).sum := by
  have hmax : ∀ n : Nat, max (n : Int) 0 = n := fun n => max_eq_left (Int.natCast_nonneg n)
  rw [summedUs, BatchRuntime.getD_lookup_vtimePhases, Dict.getD_lookup_tally]
  simp only [parseVtimeLog, ends, filter_map, map_map, filter_filter,
    Function.comp_def, lookup_nil, Option.getD_none, zero_add, hmax]
  congr 2
  refine filter_congr fun r _ => ?_
  simp only [Bool.and_left_comm, Bool.decide_and]

/-- The sum of a GEMM counts a duration as often as its END is written. -/
theorem summedUs_of_answered (hw : w.Inv) (hdone : w.pending = []) (gemmId : Int) (phase : Phase) :
    w.summedUs gemmId phase = ((w.answered.filter (·.answer.gemmId = gemmId)).map fun x =>
      (x.times phase .end_ * (x.durationUs phase).toNat : Int)).sum := by
  have hperm : (ends gemmId phase w.log).Perm
      (ends gemmId phase (w.answered.flatMap Exchange.records)) :=
    ((hw.log_of_answered hdone).filter _).filter _
  rw [summedUs_eq, (hperm.map _).sum_eq]
  induction w.answered with
  | nil => rfl
  | cons x xs ih =>
    have happend : ends gemmId phase ((x :: xs).flatMap Exchange.records) =
        ends gemmId phase x.records ++ ends gemmId phase (xs.flatMap Exchange.records) := by
      simp only [ends, flatMap_cons, filter_append]
    rw [happend, map_append, sum_append, ih, ends_records]
    by_cases hgemm : x.answer.gemmId = gemmId
    · simp [hgemm, Exchange.durationUs]
    · simp [hgemm]

/-- Where a phase is paired. -/
def PairedWhen (w : World) : Phase → Prop
  | .send => True
  | .receive => w.answered = []
  | .download | .compute | .upload => ∀ x ∈ w.answered, x.Known

/-- Every mark of the phase is written once. -/
theorem pairedWhen_iff (phase : Phase) :
    w.PairedWhen phase ↔ ∀ x ∈ w.answered, ∀ event, x.times phase event = 1 := by
  cases phase with
  | send => exact iff_of_true trivial fun x _ event => rfl
  | receive =>
    refine ⟨fun hnil x hx => ?_, fun honce => eq_nil_iff_forall_not_mem.mpr fun x hx => ?_⟩
    · rw [hnil] at hx
      cases hx
    · cases honce x hx .end_
  | download | compute | upload =>
    refine forall₂_congr fun x _ => ?_
    by_cases hknown : x.Known
    · exact iff_of_true hknown fun event => if_pos hknown
    · exact iff_of_false hknown fun honce => by simpa [Exchange.times, hknown] using honce .start

/-- In a run in which each partition is sent once and answered once, SEND is paired, DOWNLOAD, COMPUTE
and UPLOAD are paired exactly where the device of every answer is known, and RECEIVE is paired only
where there is no answer. -/
theorem paired_iff (ops : List Op) (hops : Run.Along World.next Enabled World.init ops)
    (hdone : (Run.exec World.next World.init ops).pending = []) (phase : Phase) :
    (Run.exec World.next World.init ops).Paired phase ↔
      (Run.exec World.next World.init ops).PairedWhen phase := by
  have hw := Inv.run hops
  rw [pairedWhen_iff]
  constructor
  · intro hpaired x hx event
    rw [← length_marks hw hdone hx]
    exact hpaired.once x hx event
  · intro honce
    refine ⟨fun x hx event => (length_marks hw hdone hx phase event).trans (honce x hx event), ?_⟩
    intro gemmId
    rw [summedUs_of_answered hw hdone]
    refine congrArg List.sum (map_congr_left fun x hx => ?_)
    rw [honce x (mem_filter.mp hx).1 .end_, Nat.cast_one, one_mul]

section Example

def block (row : Int) : Partition := ⟨⟨⟨7, 0, row, 0⟩, 3, 5⟩, 2, [16, 24]⟩

def sendAt (row : Int) (t : UInt64) : Op := .send ⟨block row, t, t + 4, 40⟩

def answerAt (row : Int) (t : UInt64) : Op :=
  .answer ⟨(block row).toIdent, 24, t, t + 3, ⟨3, { dlBw := 10, ulBw := 8, flops := 100 }⟩⟩

/-- Two blocks of one product, the second one sent before the first one is answered. -/
def twoBlocks : List Op := [sendAt 0 100, sendAt 1 110, answerAt 1 200, answerAt 0 210]

theorem twoBlocks_paired : (Run.exec World.next World.init twoBlocks).Paired .compute := by
  have hknown : ∀ x ∈ (Run.exec World.next World.init twoBlocks).answered, x.Known := by
    decide +kernel
  exact (paired_iff twoBlocks (by decide +kernel) (by decide +kernel) .compute).mpr hknown

/-- One block is sent and answered; its three microseconds of RECEIVE are counted twice. -/
theorem oneBlock_counted_twice :
    Run.Along World.next Enabled World.init [sendAt 0 100, answerAt 0 200] ∧
      (Run.exec World.next World.init [sendAt 0 100, answerAt 0 200]).pending = [] ∧
      (Run.exec World.next World.init [sendAt 0 100, answerAt 0 200]).summedUs 5 .receive = 6 ∧
      ¬ (Run.exec World.next World.init [sendAt 0 100, answerAt 0 200]).Paired .receive := by
  refine ⟨by decide +kernel, by decide +kernel, by decide +kernel, fun hpaired => ?_⟩
  have hsum := hpaired.summed 5
  revert hsum
  decide +kernel

end Example

end World
end Morphling.VtimeLog
