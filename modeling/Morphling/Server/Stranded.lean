import Morphling.Server.Places

/-!
# No partition is lost

A partition that runs and has no call that is busy with it waits for an answer. It has to be on the
current connection of its owner, or nobody will send it again: `SendIdlePartitions` takes idle
partitions only, and `MarkDevicePartitionsFailed` is the only step that makes a running partition
idle.

* `none_lost`: in every run whose steps meet `Tends`, whenever no thread is in `SendIdlePartitions`
  or has a `SendInLoop` in its queue, every partition in the tracker is idle, or runs and was sent
  on the current connection of its owner, or its answer is being handled.
* `closedBetween_lost`: a connection closes between `RedistributePartitions` and `SendInLoop`. The
  callback finds nothing to reset, and the partition runs for ever.

The steps that `Tends` restricts are those that take something away: a connection, an answer, a
queued partition.
-/

namespace Morphling

open List Function Pool DevicePartitionTracker

namespace Call

/-- A thread in `SendIdlePartitions`, or a `SendInLoop` in a queue. -/
def sending : Call → Bool
  | .redistribute _ | .release _ | .assign .. | .unassigned .. | .send _ | .unsent ..
  | .sendInLoop _ => true
  | _ => false

/-- An answer whose partition is not removed yet. -/
def answers : Call → List Message
  | .decode msg | .checkConnected msg _ | .handleMatMul msg .write | .handleMatMul msg .finish
  | .handleMatMul msg .remove => [msg]
  | _ => []

/-- The callback of a connection, before it has reset the partitions. -/
def closes (conn : Nat) : Call → Bool
  | .connectionClosed c | .markFailed c _ => c = conn
  | _ => false

end Call

namespace Server

open PartitionTracker

/-! ## The property -/

/-- A message for `k` on a connection, or its answer, has not been read. The connection is open, or
its callback is still to come. -/
def OnConnection (s : Server) (k : PartitionKey) (conn : Nat) : Prop :=
  (∃ msg ∈ s.toDevice ++ s.toServer, msg.conn = conn ∧ msg.key = k) ∧
    (s.isClosed conn = false ∨ ∃ call ∈ s.calls, call.closes conn = true)

/-- The device is connected, and `k` was sent on its current connection and not answered. -/
def Sent (s : Server) (k : PartitionKey) (deviceId : Int) : Prop :=
  s.devices.isDeviceConnected deviceId = true ∧
    ∃ conn ∈ s.devices.getDeviceConnection deviceId, s.OnConnection k conn

/-- An answer for `k` was read and is being handled. -/
def Answered (s : Server) (k : PartitionKey) : Prop :=
  ∃ call ∈ s.calls, ∃ msg ∈ call.answers, msg.key = k

/-- Between two rounds of sending, every partition in the tracker is idle, or sent to its owner, or
about to be removed. -/
def NoneLost (s : Server) : Prop :=
  (∀ call ∈ s.calls, call.sending = false) → ∀ k info, s.partitions.find k = some info →
    info.state = .idle ∨ (info.state = .running ∧ s.Sent k info.ownerDeviceId) ∨ s.Answered k

/-! ## The condition -/

/-- A call is busy with the partition `k`: it holds it, will send it, or handles its answer. -/
def Has (s : Server) (k : PartitionKey) (call : Call) : Prop :=
  (∃ p ∈ call.holds, s.partitions.keyOf p = some k) ∨
    ∃ msg ∈ call.queued ++ call.answers, msg.key = k

def Busy (s : Server) (k : PartitionKey) : Prop := ∃ call ∈ s.calls, s.Has k call

/-- If `k` runs, it does without call `i`: another call is busy with it, or it is sent. -/
def SpareOk (s : Server) (i : Nat) (k : PartitionKey) : Prop :=
  ∀ info ∈ s.partitions.find k, info.state = .running →
    (∃ call ∈ replace s.calls i [], s.Has k call) ∨ s.Sent k info.ownerDeviceId

/-- Every running partition with property `P` has a call that is busy with it. -/
def AllBusy (s : Server) (P : PartitionInfo PartitionKey → Prop) : Prop :=
  ∀ p ∈ s.partitions.partitionsSet, ∀ info ∈ s.partitions.heap[p]?, info.state = .running →
    P info → s.Busy info.key

/-- The step of call `i` loses no partition. -/
def CallTends (s : Server) (i : Nat) : Call → Prop
  | .sendInLoop msg =>
    -- The connection is open, and still the one of the owner.
    (s.isOpen msg.conn = true ∧ ∀ info ∈ s.partitions.find msg.key, info.state = .running →
      s.devices.isDeviceConnected info.ownerDeviceId = true ∧
        s.devices.getDeviceConnection info.ownerDeviceId = some msg.conn) ∨ s.SpareOk i msg.key
  | .decode msg => s.devices.getDeviceIdByAddr (s.addrOf msg.conn) = -1 → s.SpareOk i msg.key
  | .checkConnected msg deviceId =>
    s.devices.isDeviceConnected deviceId = false → s.SpareOk i msg.key
  | .markFailed conn deviceId =>
    -- What runs on the closed connection is in the list of the device.
    s.AllBusy fun info => s.devices.getDeviceConnection info.ownerDeviceId = some conn ∧
      s.partitions.partitionToDevice info.key ≠ some deviceId
  | .removeConnection _ deviceId | .unregister _ deviceId | .unregisterAgain deviceId =>
    s.AllBusy (·.ownerDeviceId = deviceId)
  | .setConnection conn deviceId =>
    s.devices.getDeviceConnection deviceId = some conn ∨ s.AllBusy (·.ownerDeviceId = deviceId)
  | _ => True

/-- The event loses no partition. -/
def Tends (s : Server) : Event → Prop
  | .step i _ => ∀ call ∈ s.calls[i]?, s.CallTends i call
  | _ => True

section Decidable
variable (s : Server)

instance (k : PartitionKey) (conn : Nat) : Decidable (s.OnConnection k conn) :=
  inferInstanceAs (Decidable (_ ∧ _))

instance (k : PartitionKey) (deviceId : Int) : Decidable (s.Sent k deviceId) :=
  inferInstanceAs (Decidable (_ ∧ _))

instance (k : PartitionKey) (call : Call) : Decidable (s.Has k call) :=
  inferInstanceAs (Decidable (_ ∨ _))

instance (k : PartitionKey) : Decidable (s.Busy k) :=
  inferInstanceAs (Decidable (∃ call ∈ s.calls, s.Has k call))

instance (i : Nat) (k : PartitionKey) : Decidable (s.SpareOk i k) :=
  inferInstanceAs (Decidable (∀ info ∈ s.partitions.find k, _ → _))

instance (P : PartitionInfo PartitionKey → Prop) [DecidablePred P] : Decidable (s.AllBusy P) :=
  inferInstanceAs (Decidable (∀ p ∈ s.partitions.partitionsSet,
    ∀ info ∈ s.partitions.heap[p]?, _ → _ → _))

instance (i : Nat) : ∀ call, Decidable (s.CallTends i call)
  | .sendInLoop _ => inferInstanceAs (Decidable (_ ∧ _ ∨ _))
  | .decode _ | .checkConnected .. => inferInstanceAs (Decidable (_ → _))
  | .markFailed .. | .removeConnection .. | .unregister .. | .unregisterAgain _ =>
    inferInstanceAs (Decidable (s.AllBusy _))
  | .setConnection .. => inferInstanceAs (Decidable (_ ∨ _))
  | .redistribute _ | .dispatch .. | .release _ | .assign .. | .unassigned .. | .send _ | .unsent ..
  | .handleMatMul .. | .connectionClosed _ | .closedAgain _ => inferInstanceAs (Decidable True)

instance : ∀ e, Decidable (s.Tends e)
  | .step i _ => inferInstanceAs (Decidable (∀ call ∈ s.calls[i]?, s.CallTends i call))
  | .dispatch .. | .connect _ | .register .. | .close _ | .sendIdle | .answer _ | .receive _ =>
    inferInstanceAs (Decidable True)

end Decidable

/-! ## The invariant -/

/-- How often `k` is pending in a dispatch or in the tracker. -/
def occurs (s : Server) (k : PartitionKey) : Nat :=
  load (·.pending.count k) s.calls + if s.partitions.partitionMap k = none then 0 else 1

/-- The tracker has the partitions that were dispatched, each once. -/
structure Keys (s : Server) : Prop where
  consistent : s.partitions.Consistent
  once : ∀ k, s.occurs k ≤ 1
  versions : ∀ k, 0 < s.occurs k → k.version ∈ s.versions

/-- The call that will remove `k` is there. -/
def Removing (s : Server) (k : PartitionKey) : Prop :=
  ∃ msg, Call.handleMatMul msg .remove ∈ s.calls ∧ msg.key = k

/-- Something will happen to a partition that is not idle. -/
structure Tended (s : Server) (k : PartitionKey) (info : PartitionInfo PartitionKey) : Prop where
  finished : info.state = .finished → s.Removing k
  running : info.state = .running → s.Busy k ∨ s.Sent k info.ownerDeviceId

structure Safe (s : Server) : Prop where
  keys : s.Keys
  tended : ∀ k info, s.partitions.find k = some info → s.Tended k info

variable {s s' : Server} {k : PartitionKey} {i conn : Nat} {call c : Call} {new : List Call}
  {info : PartitionInfo PartitionKey} {d : Int} {t : PartitionTracker PartitionKey}

/-- Only a thread that sends holds partitions or has one queued. -/
theorem nil_of_not_sending (h : call.sending = false) : call.holds = [] ∧ call.queued = [] := by
  cases call <;> first | exact ⟨rfl, rfl⟩ | cases h

theorem Safe.noneLost (h : Safe s) : s.NoneLost := by
  intro hquiet k info hfind
  have ht := h.tended k info hfind
  cases hstate : info.state with
  | idle => exact .inl rfl
  | running =>
    rcases ht.running hstate with ⟨call, hc, hhas⟩ | hsent
    · -- The only calls left that are busy with `k` handle its answer.
      refine .inr (.inr ⟨call, hc, ?_⟩)
      obtain ⟨hholds, hqueued⟩ := nil_of_not_sending (hquiet call hc)
      rw [Has, hholds, hqueued] at hhas
      rcases hhas with ⟨p, hp, -⟩ | hanswer
      · cases hp
      · exact hanswer
    · exact .inr (.inl ⟨rfl, hsent⟩)
  | finished =>
    obtain ⟨msg, hmem, hk⟩ := ht.finished hstate
    exact .inr (.inr ⟨_, hmem, msg, mem_singleton_self msg, hk⟩)

theorem tended_of_idle (h : info.state = .idle) : s.Tended k info :=
  ⟨fun hf => (nomatch h.symm.trans hf), fun hr => (nomatch h.symm.trans hr)⟩

/-! ## What is passed on -/

/-- The connection is open, or its callback is still to come. -/
def Live (s : Server) (conn : Nat) : Prop :=
  s.isClosed conn = false ∨ ∃ call ∈ s.calls, call.closes conn = true

/-- The device stays connected, on the same connection. -/
def Keeps (t t' : DevicePartitionTracker) (d : Int) : Prop :=
  (t.isDeviceConnected d = true → t'.isDeviceConnected d = true) ∧
    t'.getDeviceConnection d = t.getDeviceConnection d

/-- What the call `c` does for `k` is done by a call of `s'`. -/
structure Passes (s s' : Server) (k : PartitionKey) (c : Call) : Prop where
  busy : s.Has k c → s'.Busy k
  removing : ∀ msg, c = .handleMatMul msg .remove → msg.key = k → s'.Removing k

theorem passes_of_mem (hkey : ∀ p k, s.partitions.keyOf p = some k → s'.partitions.keyOf p = some k)
    (hc : call ∈ s'.calls) : Passes s s' k call where
  busy h := ⟨call, hc, h.imp_left fun ⟨p, hp, hk⟩ => ⟨p, hp, hkey p k hk⟩⟩
  removing msg he hk := ⟨msg, he ▸ hc, hk⟩

theorem Tended.pass (h : s.Tended k info) (hpass : ∀ c ∈ s.calls, Passes s s' k c)
    (hsent : info.state = .running → s.Sent k info.ownerDeviceId →
      s'.Busy k ∨ s'.Sent k info.ownerDeviceId) : s'.Tended k info where
  finished hf := by
    obtain ⟨msg, hm, hk⟩ := h.finished hf
    exact (hpass _ hm).removing msg rfl hk
  running hr := by
    rcases h.running hr with ⟨c, hc, hhas⟩ | hs
    · exact .inl ((hpass c hc).busy hhas)
    · exact hsent hr hs

theorem Sent.pass (h : s.Sent k d) (hdevice : Keeps s.devices s'.devices d)
    (hwire : ∀ m ∈ s.toDevice ++ s.toServer, m.key = k → m ∈ s'.toDevice ++ s'.toServer)
    (hlive : ∀ conn ∈ s.devices.getDeviceConnection d, s.Live conn → s'.Live conn) :
    s'.Sent k d := by
  obtain ⟨hd, conn, hc, ⟨m, hm, hmc, hk⟩, hl⟩ := h
  exact ⟨hdevice.1 hd, conn, hdevice.2.trans hc, ⟨m, hwire m hm hk, hmc, hk⟩, hlive conn hc hl⟩

/-! ## Steps of a call -/

theorem Keys.of_le (h : Keys s) (hcons : s'.partitions.Consistent)
    (hle : ∀ k, s'.occurs k ≤ s.occurs k) (hver : s'.versions = s.versions) : Keys s' where
  consistent := hcons
  once k := (hle k).trans (h.once k)
  versions k hk := hver ▸ h.versions k (Nat.lt_of_lt_of_le hk (hle k))

theorem load_pending_eq_zero (hnew : ∀ c ∈ new, c.pending = []) (k : PartitionKey) :
    load (·.pending.count k) new = 0 := by
  rw [load_congr (g := fun _ => 0) fun c hc => by rw [hnew c hc, count_nil]]
  simp [load]

theorem Keys.stepped (h : Keys s) (hi : s.calls[i]? = some call)
    (d : DevicePartitionTracker) (hkept : Kept s.partitions t) (hpending : call.pending = [])
    (hnew : ∀ c ∈ new, c.pending = []) : Keys (s.stepped t d i new) := by
  refine h.of_le hkept.consistent (fun k => ?_) rfl
  have hload : load (·.pending.count k) (replace s.calls i new) + _ = _ :=
    load_replace _ hi
  rw [hpending, count_nil, load_pending_eq_zero hnew] at hload
  have := hkept.untracked k
  unfold occurs
  split <;> split <;> simp_all

theorem keyOf_stepped (hkept : Kept s.partitions t) (p : Nat) (k : PartitionKey)
    (h : s.partitions.keyOf p = some k) : t.keyOf p = some k :=
  (congrFun (keyOf_congr hkept.labelOf_eq) p).trans h

section Step
variable (hi : s.calls[i]? = some call) (hcalls : s'.calls = replace s.calls i new)
include hi hcalls

theorem mem_step (hc : c ∈ s.calls) : c = call ∨ c ∈ s'.calls :=
  hcalls ▸ mem_replace_of_mem hi hc

theorem passes_step (hkey : ∀ p k, s.partitions.keyOf p = some k → s'.partitions.keyOf p = some k)
    (hcall : Passes s s' k call) : ∀ c ∈ s.calls, Passes s s' k c := by
  intro c hc
  rcases mem_step hi hcalls hc with rfl | hc
  · exact hcall
  · exact passes_of_mem hkey hc

theorem Live.step (h : s.Live conn) (hconns : s'.conns = s.conns)
    (hcloses : call.closes conn = true → ∃ c ∈ new, c.closes conn = true) : s'.Live conn := by
  refine h.imp (fun hopen => by rwa [isClosed, hconns]) ?_
  rintro ⟨c, hc, hcl⟩
  rcases mem_step hi hcalls hc with rfl | hc
  · obtain ⟨c', hc', hcl'⟩ := hcloses hcl
    exact ⟨c', hcalls ▸ mem_replace_of_new hc', hcl'⟩
  · exact ⟨c, hc, hcl⟩

theorem Removing.step (h : s.Removing k) (hne : ∀ msg, call ≠ .handleMatMul msg .remove) :
    s'.Removing k := by
  obtain ⟨msg, hmem, hk⟩ := h
  exact ⟨msg, (mem_step hi hcalls hmem).resolve_left (hne msg).symm, hk⟩

end Step

/-- The step of a call that leaves `new` dispatches nothing, and does not end the callback of a
connection. -/
def Quiet (call : Call) (new : List Call) : Prop :=
  call.pending = [] ∧ (∀ c ∈ new, c.pending = []) ∧
    (∀ conn, call.closes conn = true → ∃ c ∈ new, c.closes conn = true) ∧
    ∀ msg, call = .handleMatMul msg .remove → new = [.handleMatMul msg .count]

attribute [local simp] run Quiet Call.pending Call.holds Call.queued Call.answers Call.closes

/-- A step of a call on the trackers. Each partition is tended after it; or it is as it was, what is
left of the call is busy with it if the call was, and its device keeps its connection. -/
theorem Safe.stepped (h : Safe s) (hi : s.calls[i]? = some call) {d : DevicePartitionTracker}
    (hkept : Kept s.partitions t) (hquiet : Quiet call new)
    (hcases : ∀ k info, t.find k = some info → (s.stepped t d i new).Tended k info ∨
      s.partitions.find k = some info ∧ (s.Has k call → ∃ c ∈ new, s.Has k c) ∧
        (info.state = .running → s.Busy k ∨ Keeps s.devices d info.ownerDeviceId)) :
    Safe (s.stepped t d i new) := by
  obtain ⟨hpending, hnew, hcloses, hremove⟩ := hquiet
  refine ⟨h.keys.stepped hi d hkept hpending hnew, fun k info hfind => ?_⟩
  rcases hcases k info hfind with ht | ⟨hold, hhas, hdevice⟩
  · exact ht
  have hpass : ∀ c ∈ s.calls, Passes s (s.stepped t d i new) k c := by
    refine passes_step hi rfl (keyOf_stepped hkept) ⟨fun hk => ?_, ?_⟩
    · obtain ⟨c, hc, hck⟩ := hhas hk
      exact (passes_of_mem (keyOf_stepped hkept) (mem_replace_of_new hc)).busy hck
    · -- The partition that is removed has nothing left.
      rintro msg rfl rfl
      simp [Has, hremove msg rfl] at hhas
  refine (h.tended k info hold).pass hpass fun hr hsent => ?_
  rcases hdevice hr with ⟨c, hc, hck⟩ | hkeeps
  · exact .inl ((hpass c hc).busy hck)
  · exact .inr (hsent.pass hkeeps (fun _ hm _ => hm) fun conn _ hl =>
      hl.step hi rfl rfl (hcloses conn))

/-- One that leaves the trackers as they are. -/
theorem Safe.step_same (h : Safe s) (hi : s.calls[i]? = some call) (hquiet : Quiet call new)
    (hhas : ∀ k, s.Has k call → ∃ c ∈ new, s.Has k c) :
    Safe (s.stepped s.partitions s.devices i new) :=
  h.stepped hi h.keys.consistent.kept hquiet fun k _ hfind => .inr ⟨hfind, hhas k, fun _ => .inr ⟨id, rfl⟩⟩

theorem find_markIdle (h : t.Consistent) (p : Nat) :
    (markIdle t p).find k = if t.keyOf p = some k then
      (t.find k).map fun info => { info with state := .idle } else t.find k := by
  unfold markIdle
  cases hp : t.keyOf p with
  | none => simp
  | some key =>
    simp only [markPartitionIdle, find_markPartition h, Option.some.injEq]
    by_cases hk : k = key
    · simp [hk]
    · simp [hk, Ne.symm hk]

/-- A call that gives one of its partitions back to be idle. -/
theorem Safe.step_markIdle (h : Safe s) (hi : s.calls[i]? = some call) (p : Nat)
    (hquiet : Quiet call [c])
    (hhas : ∀ k, s.Has k call → s.partitions.keyOf p = some k ∨ s.Has k c) :
    Safe (s.stepped (markIdle s.partitions p) s.devices i [c]) := by
  refine h.stepped hi (kept_markIdle h.keys.consistent p) hquiet fun k info hfind => ?_
  rw [find_markIdle h.keys.consistent] at hfind
  split at hfind
  next =>
    obtain ⟨old, -, rfl⟩ := Option.map_eq_some_iff.mp hfind
    exact .inl (tended_of_idle rfl)
  next hp =>
    refine .inr ⟨hfind, fun hk => ⟨c, mem_singleton_self c, ?_⟩, fun _ => .inr ⟨id, rfl⟩⟩
    exact (hhas k hk).resolve_left hp

variable {ps ready : List Nat} {redistributed : List (PartitionKey × Int)} {input : Input}
  {msg : Message} {d' oid : Int}

section Run
variable (h : Safe s)
include h

/-- A partition that keeps its state, and that what is left of the call holds. -/
theorem Safe.tended_of_holds (hi : s.calls[i]? = some call) {d : DevicePartitionTracker} {p : Nat}
    (hkept : Kept s.partitions t) (hne : ∀ msg, call ≠ .handleMatMul msg .remove)
    (hstate : t.stateAt k = s.partitions.stateAt k) (hp : p ∈ c.holds)
    (hk : s.partitions.keyOf p = some k) (hfind : t.find k = some info) :
    (s.stepped t d i [c]).Tended k info where
  finished hf := by
    rw [stateAt, hfind, stateAt, Option.map_some, eq_comm, Option.map_eq_some_iff] at hstate
    obtain ⟨old, hold, hst⟩ := hstate
    exact ((h.tended k old hold).finished (hst.trans hf)).step hi rfl hne
  running _ := .inl ⟨c, mem_replace_of_new (mem_singleton_self c),
    .inl ⟨p, hp, keyOf_stepped hkept p k hk⟩⟩

/-- `RedistributePartitions` changes owners, of partitions that the thread holds. -/
theorem Safe.run_redistribute (hi : s.calls[i]? = some (.redistribute ps)) :
    Safe (s.done i (s.run input (.redistribute ps))) := by
  simp only [run]
  split
  · exact h.step_same hi (by simp) (by simp [Has])
  · obtain ⟨hkept, hstate, hsame⟩ := foldl_assignOwner h.keys.consistent input.redistributed ps
    refine h.stepped hi hkept (by simp) fun k info hfind => ?_
    by_cases hheld : ∃ p ∈ ps, s.partitions.keyOf p = some k
    · obtain ⟨p, hp, hk⟩ := hheld
      exact .inl (h.tended_of_holds hi hkept (by simp) (hstate k) (mem_append_left _ hp) hk hfind)
    · have hnot : ∀ p ∈ ps, s.partitions.keyOf p ≠ some k := fun p hp hk => hheld ⟨p, hp, hk⟩
      exact .inr ⟨hsame k hnot ▸ hfind, by simp [Has], fun _ => .inr ⟨id, rfl⟩⟩

theorem Safe.run_release (hi : s.calls[i]? = some (.release ps)) :
    Safe (s.done i (s.run input (.release ps))) := by
  cases ps with
  | nil => exact h.step_same hi (by simp) (by simp [Has])
  | cons p ps => exact h.step_markIdle hi p (by simp) (by simp [Has])

theorem Safe.run_assign (hi : s.calls[i]? = some (.assign redistributed ps ready)) :
    Safe (s.done i (s.run input (.assign redistributed ps ready))) := by
  cases ps with
  | nil => exact h.step_same hi (by simp) (by simp [Has])
  | cons p ps =>
    have hun : Safe (s.done i (s, [.unassigned redistributed p ps ready])) :=
      h.step_same hi (by simp) (by simp [Has])
    simp only [run]
    split
    next hnone => exact h.step_same hi (by simp) (by simp [Has, hnone])
    next key hkey =>
      split
      · exact hun
      · split
        · have hkept := h.keys.consistent.kept_reassignPartitionToDevice key
          obtain ⟨-, -, -, heq⟩ := reassignPartitionToDevice_eq h.keys.consistent _
          refine h.stepped hi (hkept _) (by simp) fun k info hfind => ?_
          by_cases hk : k = key
          · subst hk
            refine .inl (h.tended_of_holds hi (hkept _) (by simp) ?_ (by simp) hkey hfind)
            rw [stateAt, heq, if_pos rfl, stateAt]
            exact Option.map_map _ _ _
          · refine .inr ⟨((heq k).trans (if_neg hk)) ▸ hfind, ?_, fun _ => .inr ⟨id, rfl⟩⟩
            simp [Has, or_and_right, exists_or, or_comm, or_left_comm]
        · exact hun

/-- `GetDeviceConnection`: the partition goes to the loop of the connection. -/
theorem Safe.run_send (hi : s.calls[i]? = some (.send ps)) :
    Safe (s.done i (s.run input (.send ps))) := by
  cases ps with
  | nil => exact h.step_same hi (by simp) (by simp [Has])
  | cons p ps =>
    simp only [run]
    split
    next hnone => exact h.step_same hi (by simp) (by simp [Has, keyOf, hnone])
    next info hinfo =>
      split
      · exact h.step_same hi (by simp) (by simp [Has])
      · exact h.step_same hi (by simp) (by simp [Has, keyOf, hinfo, or_comm])

/-- A message is dropped. -/
theorem Safe.step_drop (hi : s.calls[i]? = some call) (hquiet : Quiet call [])
    (hhas : ∀ k, s.Has k call → msg.key = k) (hspare : s.SpareOk i msg.key) :
    Safe (s.stepped s.partitions s.devices i []) := by
  refine h.stepped hi h.keys.consistent.kept hquiet fun k info hfind => ?_
  by_cases hk : msg.key = k
  · subst hk
    refine .inl ⟨fun hf => ?_, fun hr => (hspare info hfind hr).imp_right fun hs => ?_⟩
    · refine ((h.tended _ info hfind).finished hf).step hi rfl fun m he => ?_
      simpa using hquiet.2.2.2 m he
    · exact hs.pass ⟨id, rfl⟩ (fun _ hm _ => hm) fun c _ hl => hl.step hi rfl rfl (hquiet.2.2.1 c)
  · exact .inr ⟨hfind, fun he => absurd (hhas k he) hk, fun _ => .inr ⟨id, rfl⟩⟩

/-- `SendInLoop`. -/
theorem Safe.run_sendInLoop (hi : s.calls[i]? = some (.sendInLoop msg))
    (hok : s.CallTends i (.sendInLoop msg)) : Safe (s.done i (s.run input (.sendInLoop msg))) := by
  simp only [run]
  split
  next hopen =>
    have hsent : ∀ k d, s.Sent k d →
        Sent { s with toDevice := s.toDevice ++ [msg], calls := replace s.calls i [] } k d := by
      refine fun k d hs => hs.pass ⟨id, rfl⟩ (fun m hm _ => ?_) fun c _ hl => hl.step hi rfl rfl (by simp)
      simp only [mem_append] at hm ⊢
      exact hm.imp_left .inl
    refine ⟨?_, fun k info hfind => ?_⟩
    · exact (h.keys.stepped hi s.devices h.keys.consistent.kept rfl (by simp)).of_le
        h.keys.consistent (fun _ => Nat.le_refl _) rfl
    · have ht := h.tended k info hfind
      by_cases hk : msg.key = k
      · subst hk
        refine ⟨fun hf => (ht.finished hf).step hi rfl (by simp), fun hr => ?_⟩
        rcases hok with ⟨-, hcurrent⟩ | hspare
        · obtain ⟨hconn, hdev⟩ := hcurrent info hfind hr
          exact .inr ⟨hconn, msg.conn, hdev, ⟨msg, by simp, rfl, rfl⟩,
            .inl (isClosed_of_isOpen hopen)⟩
        · exact (hspare info hfind hr).imp_right (hsent _ _)
      · refine ht.pass (passes_step hi rfl (fun _ _ => id) ⟨fun hhas => ?_, by simp⟩)
          fun _ hs => .inr (hsent _ _ hs)
        exact absurd (by simpa [Has] using hhas) hk
  next hclosed =>
    have hspare := hok.resolve_left fun hcurrent => hclosed hcurrent.1
    exact h.step_drop hi (by simp) (by simp [Has]) hspare

theorem Safe.run_decode (hi : s.calls[i]? = some (.decode msg)) (hok : s.CallTends i (.decode msg)) :
    Safe (s.done i (s.run input (.decode msg))) := by
  simp only [run]
  split
  next hunknown => exact h.step_drop hi (by simp) (by simp [Has]) (hok hunknown)
  next => exact h.step_same hi (by simp) (by simp [Has])

theorem Safe.run_checkConnected (hi : s.calls[i]? = some (.checkConnected msg d))
    (hok : s.CallTends i (.checkConnected msg d)) :
    Safe (s.done i (s.run input (.checkConnected msg d))) := by
  simp only [run]
  split
  next => exact h.step_same hi (by simp) (by simp [Has])
  next hconn => exact h.step_drop hi (by simp) (by simp [Has]) (hok (Bool.eq_false_iff.mpr hconn))

/-- The outputs and the counters do not matter. -/
theorem Safe.of_outputs (outputs : Int → Option Output) (rspCbCounts : Int → Nat)
    (counted : List (Int × PartitionKey)) : Safe { s with outputs, rspCbCounts, counted } where
  keys := ⟨h.keys.consistent, h.keys.once, h.keys.versions⟩
  tended k info hfind := ⟨(h.tended k info hfind).finished, (h.tended k info hfind).running⟩

/-- The steps of `HandleMatMul`: the call is busy with the partition until it is removed. -/
theorem Safe.run_handleMatMul {next : HandleStep} (hi : s.calls[i]? = some (.handleMatMul msg next)) :
    Safe (s.done i (s.run input (.handleMatMul msg next))) := by
  have hcons := h.keys.consistent
  cases next with
  | write =>
    have hpass : Safe (s.stepped s.partitions s.devices i [.handleMatMul msg .finish]) :=
      h.step_same hi (by simp) (by simp [Has])
    simp only [run, writeResultBlock]
    split
    · exact hpass
    · exact hpass.of_outputs _ s.rspCbCounts s.counted
  | finish =>
    refine h.stepped (t := s.partitions.markPartition .finished msg.key) hi
      (hcons.kept_markPartition .finished msg.key) (by simp) fun k info hfind => ?_
    rw [find_markPartition hcons] at hfind
    split at hfind
    next hk =>
      obtain ⟨old, -, rfl⟩ := Option.map_eq_some_iff.mp hfind
      refine .inl ⟨fun _ => ⟨msg, ?_, hk.symm⟩, (by simp)⟩
      exact mem_replace_of_new (mem_singleton_self _)
    next => exact .inr ⟨hfind, by simp [Has], fun _ => .inr ⟨id, rfl⟩⟩
  | remove =>
    refine h.stepped (t := s.partitions.removePartitionByKey msg.key) hi
      (hcons.kept_removePartitionByKey msg.key) (by simp) fun k info hfind => ?_
    rw [find_removePartitionByKey hcons] at hfind
    split at hfind
    next => cases hfind
    next hk => exact .inr ⟨hfind, by simp [Has, Ne.symm hk], fun _ => .inr ⟨id, rfl⟩⟩
  | count =>
    have hlast : Safe (s.stepped s.partitions s.devices i []) := h.step_same hi (by simp) (by simp [Has])
    exact hlast.of_outputs s.outputs _ _

end Run

/-! ## Steps that change the devices -/

/-- A tracked partition is an object of the set. -/
theorem AllBusy.busy {P : PartitionInfo PartitionKey → Prop} (hall : s.AllBusy P)
    (h : s.partitions.Consistent) (hfind : s.partitions.find k = some info)
    (hrun : info.state = .running) (hP : P info) : s.Busy k := by
  obtain ⟨p, hp, hinfo⟩ := Option.bind_eq_some_iff.mp hfind
  exact key_of_find h hfind ▸ hall p (h.info hp).2 info hinfo hrun hP

/-- A step that only changes the device `d₀`, whose running partitions all have a call. -/
theorem Safe.step_device (h : Safe s) (hi : s.calls[i]? = some call) {d : DevicePartitionTracker}
    {d₀ : Int} (hquiet : Quiet call new) (hhas : ∀ k, ¬ s.Has k call)
    (hall : s.AllBusy (·.ownerDeviceId = d₀)) (hother : ∀ d', d' ≠ d₀ → Keeps s.devices d d') :
    Safe (s.stepped s.partitions d i new) := by
  refine h.stepped hi h.keys.consistent.kept hquiet fun k info hfind =>
    .inr ⟨hfind, fun he => absurd he (hhas k), fun hr => ?_⟩
  by_cases hd : info.ownerDeviceId = d₀
  · exact .inl (hall.busy h.keys.consistent hfind hr hd)
  · exact .inr (hother _ hd)

theorem keeps_unregisterDevice (t : DevicePartitionTracker) (now : Int) (h : d' ≠ d) :
    Keeps t (t.unregisterDevice d now) d' := by
  unfold unregisterDevice disconnectDevice
  split
  · exact ⟨id, rfl⟩
  · refine ⟨fun hc => ?_, update_of_ne h _ _⟩
    rwa [isDeviceConnected, AList.lookup_insert_ne h]

theorem keeps_removeDeviceConnection (t : DevicePartitionTracker) (h : d' ≠ d) :
    Keeps t (t.removeDeviceConnection d) d' :=
  ⟨id, update_of_ne h _ _⟩

theorem keeps_setDeviceConnection (t : DevicePartitionTracker)
    (h : d' = d → t.getDeviceConnection d = some conn) :
    Keeps t (t.setDeviceConnection d conn) d' := by
  unfold setDeviceConnection
  split
  · exact ⟨id, rfl⟩
  · refine ⟨id, ?_⟩
    by_cases hd : d' = d
    · subst hd
      exact (update_self _ _ _).trans (h rfl).symm
    · exact update_of_ne hd _ _

/-- A registration disconnects no device and leaves the connections alone. -/
theorem keeps_registerDevice (t : DevicePartitionTracker) (addr : String) (uuid : Nat) (now : Int)
    (d : Int) : Keeps t (t.registerDevice addr uuid now).2 d := by
  have hinsert : ∀ (m : AList fun _ : Int => DeviceLiveness) (id : Int) (device : DeviceLiveness),
      device.isConnected = true → (m.lookup d).any (·.isConnected) = true →
        ((m.insert id device).lookup d).any (·.isConnected) = true := by
    intro m id device hdev hm
    by_cases hd : d = id
    · subst hd
      simpa [AList.lookup_insert] using hdev
    · rwa [AList.lookup_insert_ne hd]
  unfold registerDevice
  split
  · split
    · exact ⟨id, rfl⟩
    · exact ⟨hinsert _ _ _ rfl, rfl⟩
  · split
    · split
      · split
        · exact ⟨id, rfl⟩
        · unfold reconnectByAddr
          split
          · exact ⟨hinsert _ _ _ rfl, rfl⟩
          · exact ⟨hinsert _ _ _ rfl, rfl⟩
      · exact ⟨id, rfl⟩
    · exact ⟨hinsert _ _ _ rfl, rfl⟩

theorem Safe.run_setConnection (h : Safe s) (hi : s.calls[i]? = some (.setConnection conn d))
    (hok : s.CallTends i (.setConnection conn d)) :
    Safe (s.done i (s.run input (.setConnection conn d))) := by
  rcases hok with hsame | hall
  · -- The connection is the one that the device has.
    exact h.stepped hi h.keys.consistent.kept (by simp) fun k info hfind =>
      .inr ⟨hfind, by simp [Has], fun _ => .inr (keeps_setDeviceConnection _ fun _ => hsame)⟩
  · exact h.step_device hi (by simp) (by simp [Has]) hall fun d' hd =>
      keeps_setDeviceConnection _ fun he => absurd he hd

/-- `MarkDevicePartitionsFailed` resets what ran on the connection. -/
theorem Safe.run_markFailed (h : Safe s) (hi : s.calls[i]? = some (.markFailed conn d))
    (hok : s.CallTends i (.markFailed conn d)) :
    Safe (s.done i (s.run input (.markFailed conn d))) := by
  obtain ⟨c, hc, hpending⟩ : ∃ c : Call,
      (if d = -1 then .closedAgain conn else .removeConnection conn d) = c ∧ c.pending = [] := by
    split <;> exact ⟨_, rfl, rfl⟩
  simp only [run, hc]
  show Safe (s.stepped (s.partitions.markDevicePartitionsFailed d) s.devices i [c])
  have hkept := h.keys.consistent.kept_markDevicePartitionsFailed d
  have hpass : ∀ k, ∀ c' ∈ s.calls,
      Passes s (s.stepped (s.partitions.markDevicePartitionsFailed d) s.devices i [c]) k c' :=
    fun k => passes_step hi rfl (keyOf_stepped hkept) ⟨by simp [Has], by simp⟩
  have hsame : ∀ k info, s.partitions.find k = some info → (info.state = .running →
      s.partitions.partitionToDevice k ≠ some d) →
      (s.stepped (s.partitions.markDevicePartitionsFailed d) s.devices i [c]).Tended k info := by
    intro k info hfind hlist
    refine (h.tended k info hfind).pass (hpass k) fun hr hsent => ?_
    by_cases he : s.devices.getDeviceConnection info.ownerDeviceId = some conn
    · -- The callback goes away, and the partition is not in the list that it resets.
      obtain ⟨c', hc', hhas⟩ := hok.busy h.keys.consistent hfind hr
        ⟨he, key_of_find h.keys.consistent hfind ▸ hlist hr⟩
      exact .inl ((hpass k c' hc').busy hhas)
    · refine .inr (hsent.pass ⟨id, rfl⟩ (fun _ hm _ => hm) fun conn' hconn hl => ?_)
      refine hl.step hi rfl rfl fun hcl => absurd hconn ?_
      rwa [← of_decide_eq_true hcl]
  refine ⟨h.keys.stepped hi s.devices hkept rfl (forall_mem_singleton.mpr hpending),
    fun k info hfind => ?_⟩
  have hfailed := find_markDevicePartitionsFailed (k := k) h.keys.consistent d
  rw [show (s.stepped (s.partitions.markDevicePartitionsFailed d) s.devices i [c]).partitions.find k
    = _ from hfailed] at hfind
  split at hfind
  next hlist =>
    obtain ⟨old, hold, rfl⟩ := Option.map_eq_some_iff.mp hfind
    by_cases hr : old.state = .running
    · rw [if_pos hr]
      exact tended_of_idle rfl
    · rw [if_neg hr]
      exact hsame k old hold fun hr' => absurd hr' hr
  next hlist => exact hsame k info hfind fun _ => hlist

/-- `AddPartition`. -/
theorem Safe.run_addPartition (h : Safe s) {part : MatrixPartition DataPtr}
    {rest : List (MatrixPartition DataPtr)} (hi : s.calls[i]? = some (.dispatch oid (part :: rest))) :
    Safe (s.done i (s.run input (.dispatch oid (part :: rest)))) := by
  have hcons := h.keys.consistent
  have hload : ∀ k, load (·.pending.count k) (replace s.calls i [.dispatch oid rest]) +
      (if part.getPartitionKey = k then 1 else 0) = load (·.pending.count k) s.calls :=
    fun k => load_replace_one hi (by simp [count_cons])
  -- The partition is pending, so the tracker does not have it.
  have huntracked : s.partitions.partitionMap part.getPartitionKey = none := by
    have h1 := h.keys.once part.getPartitionKey
    have h2 := hload part.getPartitionKey
    unfold occurs at h1
    rw [if_pos rfl] at h2
    by_contra hne
    rw [if_neg hne] at h1
    omega
  simp only [run]
  refine ⟨h.keys.of_le ?_ (fun k => ?_) rfl, fun k info hfind => ?_⟩
  · exact (hcons.represents.addPartition huntracked (-1) oid part).consistent
  · have h2 := hload k
    have hmap : (s.partitions.addPartition (-1) part.getPartitionKey oid part).partitionMap k =
        if k = part.getPartitionKey then some s.partitions.heap.length
          else s.partitions.partitionMap k := update_apply _ _ _ _
    simp only [occurs, hmap]
    by_cases hk : k = part.getPartitionKey
    · subst hk
      rw [if_pos rfl] at h2
      simp only [if_true, huntracked, reduceCtorEq, if_false]
      omega
    · rw [if_neg (Ne.symm hk)] at h2
      simp only [if_neg hk]
      omega
  · have hadd : (s.partitions.addPartition (-1) part.getPartitionKey oid part).find k = _ :=
      find_addPartition hcons (-1) oid part
    rw [show (s.done i _).partitions.find k = _ from hadd] at hfind
    split at hfind
    · cases hfind
      exact tended_of_idle rfl
    · have hkey : ∀ p k, s.partitions.keyOf p = some k →
          (s.partitions.addPartition (-1) part.getPartitionKey oid part).keyOf p = some k := by
        intro p k hp
        have hne : p ≠ s.partitions.heap.length := by
          rintro rfl
          simp [keyOf] at hp
        rwa [keyOf_eq_labelOf, labelOf_addPartition, if_neg hne, ← keyOf_eq_labelOf]
      refine (h.tended k info hfind).pass (passes_step hi rfl hkey ⟨by simp [Has], by simp⟩) fun _ hs =>
        .inr (hs.pass ⟨id, rfl⟩ (fun _ hm _ => hm) fun _ _ hl => hl.step hi rfl rfl (by simp))

/-- **Every step of a call that meets the condition keeps the invariant.** -/
theorem Safe.run (h : Safe s) (hi : s.calls[i]? = some call) (hok : s.CallTends i call) :
    Safe (s.done i (s.run input call)) := by
  cases call with
  | dispatch oid rest =>
    cases rest with
    | nil => exact h.step_same hi (by simp) (by simp [Has])
    | cons part rest => exact h.run_addPartition hi
  | redistribute ps => exact h.run_redistribute hi
  | release ps => exact h.run_release hi
  | assign redistributed ps ready => exact h.run_assign hi
  | unassigned redistributed p ps ready => exact h.step_markIdle hi p (by simp) (by simp [Has])
  | send ps => exact h.run_send hi
  | unsent p ps => exact h.step_markIdle hi p (by simp) (by simp [Has])
  | sendInLoop msg => exact h.run_sendInLoop hi hok
  | decode msg => exact h.run_decode hi hok
  | checkConnected msg d => exact h.run_checkConnected hi hok
  | handleMatMul msg next => exact h.run_handleMatMul hi
  | connectionClosed conn => exact h.step_same hi (by simp) (by simp [Has])
  | markFailed conn d => exact h.run_markFailed hi hok
  | removeConnection conn d =>
    exact h.step_device hi (by simp) (by simp [Has]) hok fun d' => keeps_removeDeviceConnection _
  | unregister conn d =>
    exact h.step_device hi (by simp) (by simp [Has]) hok fun d' => keeps_unregisterDevice _ _
  | closedAgain conn =>
    simp only [Server.run]
    split
    · exact h.step_same hi (by simp) (by simp [Has])
    · exact h.step_same hi (by simp) (by simp [Has])
  | unregisterAgain d =>
    exact h.step_device hi (by simp) (by simp [Has]) hok fun d' => keeps_unregisterDevice _ _
  | setConnection conn d => exact h.run_setConnection hi hok

/-! ## Events -/

/-- More calls, and devices that only gain. -/
theorem Tended.grow (h : s.Tended k info) (hkey : s'.partitions.keyOf = s.partitions.keyOf)
    (hcalls : s.calls ⊆ s'.calls) (hdevices : ∀ d, Keeps s.devices s'.devices d)
    (hwire : ∀ m ∈ s.toDevice ++ s.toServer, m.key = k → m ∈ s'.toDevice ++ s'.toServer)
    (hopen : ∀ conn, s.isClosed conn = false → s'.Live conn) : s'.Tended k info := by
  refine h.pass (fun c hc => passes_of_mem (fun p k => ?_) (hcalls hc)) fun _ hs =>
    .inr (hs.pass (hdevices _) hwire fun conn _ hl => ?_)
  · rw [hkey]
    exact id
  · exact hl.elim (hopen conn) fun ⟨c, hc, hcl⟩ => .inr ⟨c, hcalls hc, hcl⟩

/-- The keys do not change when a call begins that dispatches nothing. -/
theorem Keys.append (h : Keys s) (hkept : Kept s.partitions s'.partitions)
    (hcalls : s'.calls = s.calls ++ new) (hnew : ∀ c ∈ new, c.pending = [])
    (hver : s'.versions = s.versions) : Keys s' := by
  refine h.of_le hkept.consistent (fun k => ?_) hver
  have := hkept.untracked k
  unfold occurs
  rw [hcalls, load_append, load_pending_eq_zero hnew]
  split <;> split <;> simp_all

/-- A call begins that has no partitions. -/
theorem Safe.begin (h : Safe s) {d : DevicePartitionTracker} {conns : List Connection}
    (hnew : ∀ c ∈ new, c.pending = []) (hdevices : ∀ d', Keeps s.devices d d')
    (hopen : ∀ c, s.isClosed c = false → conns[c]?.any (·.closed) = false ∨
      ∃ call ∈ new, call.closes c = true) :
    Safe { s with devices := d, conns := conns, calls := s.calls ++ new } := by
  refine ⟨h.keys.append h.keys.consistent.kept rfl hnew rfl, fun k info hfind => ?_⟩
  refine (h.tended k info hfind).grow rfl (subset_append_left _ _) hdevices
    (fun _ hm _ => hm) fun c hc => (hopen c hc).imp_right fun ⟨call, hcall, hcl⟩ => ?_
  exact ⟨call, mem_append_right _ hcall, hcl⟩

theorem Safe.connect (h : Safe s) (addr : String) : Safe (s.next (.connect addr)) := by
  have hbegin : Safe { s with conns := s.conns ++ [{ addr }], calls := s.calls ++ [] } := by
    refine h.begin (by simp) (fun _ => ⟨id, rfl⟩) fun c hopen => .inl ?_
    unfold isClosed at hopen
    rcases Nat.lt_trichotomy c s.conns.length with hlt | heq | hgt
    · rwa [getElem?_append_left hlt]
    · simp [heq]
    · rw [getElem?_eq_none (by simp; omega)]
      rfl
  rwa [append_nil] at hbegin

/-- A connection closes, and its callback begins. -/
theorem Safe.close (h : Safe s) (conn : Nat) : Safe (s.next (.close conn)) := by
  simp only [next]
  split
  · refine h.begin (by simp) (fun _ => ⟨id, rfl⟩) fun c hopen => ?_
    by_cases he : conn = c
    · exact .inr ⟨_, mem_singleton_self _, decide_eq_true he⟩
    · unfold isClosed at hopen
      simpa [getElem?_modify, he] using hopen
  · exact h

theorem Safe.register (h : Safe s) (conn uuid : Nat) (now : Int) :
    Safe (s.next (.register conn uuid now)) := by
  simp only [next]
  split
  · exact h.begin (by simp) (keeps_registerDevice s.devices _ uuid now) fun _ => .inl
  · exact h

/-- `ClaimIdlePartitions`: the thread holds what starts to run. -/
theorem Safe.sendIdle (h : Safe s) : Safe (s.next .sendIdle) := by
  have hcons := h.keys.consistent
  simp only [next]
  split
  · exact h
  · have hkept := hcons.kept_claimIdlePartitions
    have hkey := keyOf_congr hkept.labelOf_eq
    refine ⟨h.keys.append hkept rfl (by simp) rfl, fun k info hfind => ?_⟩
    rw [show s.partitions.claimIdlePartitions.2.find k = _ from find_claimIdlePartitions hcons k,
      Option.map_eq_some_iff] at hfind
    obtain ⟨old, hold, rfl⟩ := hfind
    split
    next hidle =>
      -- It was idle, so it is one of those that were claimed.
      have hcount := claimed_count hcons k
      rw [hold, Option.any_some, if_pos (decide_eq_true hidle)] at hcount
      obtain ⟨p, hp, hk⟩ := countP_pos_iff.mp (Nat.lt_of_lt_of_eq Nat.zero_lt_one hcount.symm)
      refine ⟨nofun, fun _ => .inl ⟨_, mem_append_right _ (mem_singleton_self _), ?_⟩⟩
      exact .inl ⟨p, hp, (congrFun hkey p).trans (of_decide_eq_true hk)⟩
    next =>
      exact (h.tended k old hold).grow hkey (subset_append_left _ _) (fun _ => ⟨id, rfl⟩)
        (fun _ hm _ => hm) fun _ => .inl

theorem Safe.answer (h : Safe s) (i : Nat) : Safe (s.next (.answer i)) := by
  simp only [next]
  split
  · exact h
  next msg hi =>
    split
    · refine ⟨h.keys.of_le h.keys.consistent (fun _ => Nat.le_refl _) rfl, fun k info hfind => ?_⟩
      refine (h.tended k info hfind).grow rfl (List.Subset.refl _) (fun _ => ⟨id, rfl⟩)
        (fun m hm _ => ?_) fun _ => .inl
      simp only [mem_append, mem_singleton] at hm ⊢
      rcases hm with hm | hm
      · exact (mem_replace_of_mem hi hm).symm.imp_right .inr
      · exact .inr (.inl hm)
    · exact h

/-- An answer is read: from then on a call is busy with the partition. -/
theorem Safe.receive (h : Safe s) (i : Nat) : Safe (s.next (.receive i)) := by
  simp only [next]
  split
  · exact h
  next msg hi =>
    split
    · have hsub := subset_append_left s.calls
      refine ⟨h.keys.append h.keys.consistent.kept rfl (by simp) rfl, fun k info hfind => ?_⟩
      have ht := h.tended k info hfind
      by_cases hk : msg.key = k
      · refine ⟨fun hf => ?_, fun _ => .inl ⟨.decode msg, by simp, by simpa [Has] using hk⟩⟩
        obtain ⟨m, hm, hmk⟩ := ht.finished hf
        exact ⟨m, hsub _ hm, hmk⟩
      · refine ht.grow rfl (hsub _) (fun _ => ⟨id, rfl⟩) (fun m hm hmk => ?_) fun _ => .inl
        refine (mem_append.mp hm).elim (mem_append_left _) fun hm =>
          mem_append_right _ ((mem_replace_of_mem hi hm).resolve_left ?_)
        rintro rfl
        exact hk hmk
    · exact h

/-- A new operation has new keys. -/
theorem Safe.dispatch (h : Safe s) {parts : List (MatrixPartition DataPtr)}
    (hen : s.DispatchOk oid parts) : Safe (s.next (.dispatch oid parts)) := by
  obtain ⟨-, hnodup, hfresh⟩ := hen
  have hoccurs : ∀ k, (s.next (.dispatch oid parts)).occurs k =
      s.occurs k + (parts.map (·.getPartitionKey)).count k := by
    intro k
    have hload : load (·.pending.count k) (s.calls ++ [.dispatch oid parts]) =
        load (·.pending.count k) s.calls + (parts.map (·.getPartitionKey)).count k := by
      rw [load_append, load_cons, load_nil]
      rfl
    have hsum : (s.next (.dispatch oid parts)).occurs k =
        load (·.pending.count k) (s.calls ++ [.dispatch oid parts]) +
          if s.partitions.partitionMap k = none then 0 else 1 := rfl
    rw [hsum, hload, occurs, Nat.add_right_comm]
  have hzero : ∀ k ∈ parts.map (·.getPartitionKey), s.occurs k = 0 := by
    intro k hk
    obtain ⟨part, hp, rfl⟩ := mem_map.mp hk
    exact Nat.eq_zero_of_not_pos fun hpos => hfresh part hp (h.keys.versions _ hpos)
  refine ⟨⟨h.keys.consistent, fun k => ?_, fun k hk => ?_⟩, fun k info hfind => ?_⟩
  · have hcount := nodup_iff_count_le_one.mp hnodup k
    have honce := h.keys.once k
    rw [hoccurs]
    by_cases hk : k ∈ parts.map (·.getPartitionKey)
    · rw [hzero k hk]
      omega
    · rw [count_eq_zero.mpr hk]
      exact honce
  · rw [hoccurs] at hk
    by_cases hmem : k ∈ parts.map (·.getPartitionKey)
    · obtain ⟨part, hp, rfl⟩ := mem_map.mp hmem
      exact mem_append_right _ (mem_map_of_mem hp)
    · rw [count_eq_zero.mpr hmem] at hk
      exact mem_append_left _ (h.keys.versions k hk)
  · have hsub := subset_append_left s.calls
    exact (h.tended k info hfind).grow rfl (hsub _) (fun _ => ⟨id, rfl⟩) (fun _ hm _ => hm)
      fun _ => .inl

/-- **One event keeps the invariant.** -/
theorem Safe.next (h : Safe s) {e : Event} (hfresh : s.Fresh e) (hok : s.Tends e) :
    Safe (s.next e) := by
  cases e with
  | connect addr => exact h.connect addr
  | register conn uuid now => exact h.register conn uuid now
  | close conn => exact h.close conn
  | dispatch oid parts => exact h.dispatch hfresh
  | sendIdle => exact h.sendIdle
  | answer i => exact h.answer i
  | receive i => exact h.receive i
  | step i input =>
    simp only [Server.next]
    split
    · exact h
    next call hi => exact h.run hi (hok call hi)

theorem safe_empty : Safe {} where
  keys := ⟨(represents_empty []).consistent, fun _ => Nat.zero_le 1,
    fun _ hk => absurd hk (Nat.lt_irrefl 0)⟩
  tended := by simp [find]

/-- **No partition is lost.** In every run whose steps meet `Tends`, in every state in which no
thread is in `SendIdlePartitions` or has a queued `SendInLoop`: every partition in the tracker is
idle, or runs and was sent on the current connection of its connected owner, or its answer is being
handled. -/
theorem none_lost {events : List Event} (hfresh : Run.Along next Fresh {} events)
    (hok : Run.Along next Tends {} events) : Run.Always next NoneLost {} events := by
  have hsafe : Run.Always next Safe {} events :=
    (hfresh.and hok).always (fun _ _ h hstep => h.next hstep.1 hstep.2) safe_empty
  exact hsafe.mono fun _ => Safe.noneLost

/-! ## Two runs -/

/-- A device is cut off while both blocks are on its connection. They become idle, are sent to the
other device, and are removed. -/
theorem resent_noneLost : Run.Always next NoneLost {} resent ∧
    (Run.exec next {} resent).partitions.partitionMap (part 0).getPartitionKey = none :=
  ⟨none_lost (by decide) (by decide), by decide⟩

/-- The connection closes after `RedistributePartitions`. When its callback looks for the running
partitions of the device, the block is still in the list of device −1. Then it is moved to the
device, finds the connection that is not removed yet, and `SendInLoop` drops it. -/
def closedBetween : List Event :=
  [.connect "a", .register 0 1 0, go 0, .dispatch 0 [part 0], go 0, go 0, .sendIdle,
    .step 0 { redistributed := [((part 0).getPartitionKey, 0)] }, .close 0, go 1, go 1,
    go 0, go 0, go 0, go 2, go 2, go 2, go 2, go 0, go 0]

/-- The block runs, nobody has it, nothing is on the wire, and its owner is not connected. -/
theorem closedBetween_lost : Run.Along next Enabled {} closedBetween ∧
    (Run.exec next {} closedBetween).calls = [] ∧
    (Run.exec next {} closedBetween).toDevice ++ (Run.exec next {} closedBetween).toServer = [] ∧
    (Run.exec next {} closedBetween).partitions.stateAt (part 0).getPartitionKey = some .running ∧
    (Run.exec next {} closedBetween).devices.isDeviceConnected 0 = false ∧
    ¬ Run.Always next NoneLost {} closedBetween := by
  refine ⟨by decide, rfl, rfl, rfl, rfl, fun h => ?_⟩
  have hlast := h.last nofun (part 0).getPartitionKey _ rfl
  rcases hlast with hidle | ⟨-, hconnected, -⟩ | ⟨call, hc, -⟩
  · cases hidle
  · cases hconnected
  · cases hc

end Server
end Morphling
