import Morphling.Server.Server
import Morphling.Tracker.PartitionView

/-!
# Where a partition is

A partition that waits for its answer is in one place: with the call that dispatches it, idle in the
tracker, with a call of `SendIdlePartitions`, in the queue of a loop, on the wire, or with the call
that handles its answer. `copies` counts these places; what is on a closed connection does not
count.

* `Inv`: a partition is in at most one place until it is counted, what is counted is written, and
  the counter of an operation is the number of its blocks that are not counted.
* `Inv.of_blocks_eq`, `Inv.step_of_le`: what a step that leaves the blocks alone has to show.
-/

namespace Morphling

open List Pool

namespace Call

/-- The partitions that a dispatch has not added yet. -/
def pending : Call → List PartitionKey
  | .dispatch _ rest => rest.map (·.getPartitionKey)
  | _ => []

/-- The partitions that a call of `SendIdlePartitions` has claimed and not passed on. -/
def holds : Call → List Nat
  | .redistribute rest | .release rest | .send rest => rest
  | .assign _ rest ready => rest ++ ready
  | .unassigned _ part rest ready => part :: rest ++ ready
  | .unsent part rest => part :: rest
  | _ => []

/-- The partition that is queued on a loop. -/
def queued : Call → List Message
  | .sendInLoop msg => [msg]
  | _ => []

/-- The answer that is being handled. -/
def handled : Call → List Message
  | .decode msg | .checkConnected msg _ | .handleMatMul msg _ => [msg]
  | _ => []

end Call

namespace Server

open PartitionTracker

/-- `conn->IsClosed()`. -/
def isClosed (s : Server) (conn : Nat) : Bool := s.conns[conn]?.any (·.closed)

/-- A message for `k` on a connection that is not closed. -/
def onWire (s : Server) (k : PartitionKey) (msg : Message) : Nat :=
  if msg.key = k ∧ s.isClosed msg.conn = false then 1 else 0

/-- How often a call has the partition `k`. -/
def share (s : Server) (k : PartitionKey) (call : Call) : Nat :=
  call.pending.count k + call.holds.countP (s.partitions.keyOf · = some k) +
    load (s.onWire k) call.queued + call.handled.countP (·.key = k)

/-- How often `k` is with a call or on the wire. -/
def inFlight (s : Server) (k : PartitionKey) : Nat :=
  load (s.share k) s.calls + load (s.onWire k) s.toDevice +
    load (s.onWire k) s.toServer

/-- `k` is idle in the tracker. -/
def idle (t : PartitionTracker PartitionKey) (k : PartitionKey) : Nat :=
  if t.stateAt k = some .idle then 1 else 0

/-- In how many places `k` is. -/
def copies (s : Server) (k : PartitionKey) : Nat := s.inFlight k + idle s.partitions k

/-! ## The invariant -/

/-- `k` is a block of operation `oid`. -/
def Home (s : Server) (oid : Int) (k : PartitionKey) : Prop :=
  ∃ out, s.outputs oid = some out ∧ k ∈ out.blocks

/-- Block `k` of operation `oid` was written. -/
def Written (s : Server) (oid : Int) (k : PartitionKey) : Prop :=
  ∃ out, s.outputs oid = some out ∧ k ∈ out.written

/-- The tracker does not have `k`. -/
def Untracked (s : Server) (k : PartitionKey) : Prop := s.partitions.partitionMap k = none

/-- The local variables of a call are about partitions of an operation, and what it has done is
done. -/
structure CallOk (s : Server) (call : Call) : Prop where
  holds : ∀ p ∈ call.holds, s.partitions.labelOf p ≠ none
  messages : ∀ msg ∈ call.queued ++ call.handled, s.Home msg.oid msg.key
  dispatch : ∀ oid rest, call = .dispatch oid rest → ∀ part ∈ rest,
    s.Home oid part.getPartitionKey ∧ s.Untracked part.getPartitionKey
  written : ∀ msg next, call = .handleMatMul msg next → next ≠ .write → s.Written msg.oid msg.key
  removed : ∀ msg, call = .handleMatMul msg .count → s.Untracked msg.key

structure Inv (s : Server) : Prop where
  consistent : s.partitions.Consistent
  labels : ∀ p oid k, s.partitions.labelOf p = some (oid, k) → s.Home oid k
  calls : ∀ call ∈ s.calls, s.CallOk call
  wire : ∀ msg ∈ s.toDevice ++ s.toServer, s.Home msg.oid msg.key
  /-- What was counted is written and done with. -/
  counted : ∀ e ∈ s.counted, s.Home e.1 e.2 ∧ s.Written e.1 e.2 ∧ s.Untracked e.2
  nodup : ∀ oid out, s.outputs oid = some out → out.blocks.Nodup
  /-- The counter is the number of blocks that were not counted. -/
  counter : ∀ oid out, s.outputs oid = some out →
    s.rspCbCounts oid + s.counted.countP (·.1 = oid) = out.blocks.length
  unused : ∀ oid, s.outputs oid = none → s.rspCbCounts oid = 0
  versions : ∀ oid k, s.Home oid k → k.version ∈ s.versions
  /-- A block belongs to one operation. -/
  disjoint : ∀ oid oid' k, s.Home oid k → s.Home oid' k → oid = oid'
  /-- **A partition is in one place, until it is counted.** -/
  once : ∀ k, s.copies k + s.counted.countP (·.2 = k) ≤ 1

variable {s s' : Server} {k : PartitionKey} {i : Nat} {call : Call} {new : List Call}
  {t : PartitionTracker PartitionKey}

/-! ## How the places change -/

theorem isClosed_of_isOpen {conn : Nat} (h : s.isOpen conn = true) : s.isClosed conn = false := by
  unfold isOpen at h
  unfold isClosed
  cases hconn : s.conns[conn]? <;> simp_all

section Closed
variable (hclosed : ∀ c, s.isClosed c = true → s'.isClosed c = true)
include hclosed

theorem onWire_le (msg : Message) : s'.onWire k msg ≤ s.onWire k msg := by
  unfold onWire
  split
  next h => rw [if_pos ⟨h.1, Bool.eq_false_iff.mpr fun hc => Bool.eq_false_iff.mp h.2 (hclosed _ hc)⟩]
  next => exact Nat.zero_le _

theorem share_le (hkey : ∀ p ∈ call.holds, s'.partitions.keyOf p = s.partitions.keyOf p) :
    s'.share k call ≤ s.share k call := by
  have hholds : call.holds.countP (s'.partitions.keyOf · = some k) =
      call.holds.countP (s.partitions.keyOf · = some k) :=
    countP_congr fun p hp => by rw [hkey p hp]
  have hqueued := load_mono (l := call.queued) fun msg _ => onWire_le (k := k) hclosed msg
  unfold share
  omega

/-- The places of the new state, seen from the old one. -/
theorem inFlight_le
    (hkey : ∀ c ∈ s'.calls, ∀ p ∈ c.holds, s'.partitions.keyOf p = s.partitions.keyOf p) :
    s'.inFlight k ≤ load (s.share k) s'.calls + load (s.onWire k) s'.toDevice +
      load (s.onWire k) s'.toServer := by
  have h1 := load_mono (f := s'.share k) (g := s.share k) fun c hc => share_le hclosed (hkey c hc)
  have h2 := load_mono (l := s'.toDevice) fun msg _ => onWire_le (k := k) hclosed msg
  have h3 := load_mono (l := s'.toServer) fun msg _ => onWire_le (k := k) hclosed msg
  unfold inFlight
  omega

/-- A change that makes no copies. -/
theorem Inv.once_of_le (h : Inv s)
    (hkey : ∀ c ∈ s'.calls, ∀ p ∈ c.holds, s'.partitions.keyOf p = s.partitions.keyOf p)
    (hle : load (s.share k) s'.calls + load (s.onWire k) s'.toDevice +
        load (s.onWire k) s'.toServer + idle s'.partitions k ≤ s.copies k) :
    s'.copies k + s.counted.countP (·.2 = k) ≤ 1 := by
  have h1 := inFlight_le (k := k) hclosed hkey
  have h2 := h.once k
  unfold copies at h2 hle ⊢
  omega

end Closed

/-- The partition that an object in the heap is for is a block of an operation. -/
theorem Inv.home_of_keyOf (h : Inv s) {p : Nat} (hp : s.partitions.keyOf p = some k) :
    ∃ oid, s.Home oid k := by
  rw [keyOf_eq_labelOf, Option.map_eq_some_iff] at hp
  obtain ⟨⟨oid, k'⟩, hl, rfl⟩ := hp
  exact ⟨oid, h.labels p oid k' hl⟩

theorem key_of_onWire {msg : Message} (h : 0 < s.onWire k msg) : msg.key = k := by
  unfold onWire at h
  split at h
  next hk => exact hk.1
  next => omega

theorem home_of_load {l : List Message} (hl : ∀ msg ∈ l, s.Home msg.oid msg.key)
    (h : 0 < load (s.onWire k) l) : ∃ oid, s.Home oid k := by
  obtain ⟨msg, hm, hpos⟩ := exists_of_load_pos h
  exact ⟨msg.oid, key_of_onWire hpos ▸ hl msg hm⟩

/-- So is one that a call has. -/
theorem Inv.home_of_share (h : Inv s) (hc : call ∈ s.calls) (hk : 0 < s.share k call) :
    ∃ oid, s.Home oid k := by
  have hok := h.calls call hc
  have hcases : 0 < call.pending.count k ∨ 0 < call.holds.countP (s.partitions.keyOf · = some k) ∨
      0 < load (s.onWire k) call.queued ∨ 0 < call.handled.countP (·.key = k) := by
    unfold share at hk
    omega
  rcases hcases with hpos | hpos | hpos | hpos
  · cases call with
    | dispatch oid rest =>
      obtain ⟨part, hp, rfl⟩ := mem_map.mp (count_pos_iff.mp hpos)
      exact ⟨oid, (hok.dispatch oid rest rfl part hp).1⟩
    | _ => cases hpos
  · obtain ⟨p, -, hp⟩ := countP_pos_iff.mp hpos
    exact h.home_of_keyOf (of_decide_eq_true hp)
  · exact home_of_load (fun msg hm => hok.messages msg (mem_append_left _ hm)) hpos
  · obtain ⟨msg, hm, hmk⟩ := countP_pos_iff.mp hpos
    exact ⟨msg.oid, of_decide_eq_true hmk ▸ hok.messages msg (mem_append_right _ hm)⟩

/-- So is one that is anywhere. -/
theorem Inv.home_of_copies (h : Inv s) (hk : 0 < s.copies k) : ∃ oid, s.Home oid k := by
  have hcases : 0 < idle s.partitions k ∨ 0 < load (s.share k) s.calls ∨
      0 < load (s.onWire k) s.toDevice ∨ 0 < load (s.onWire k) s.toServer := by
    unfold copies inFlight at hk
    omega
  rcases hcases with hpos | hpos | hpos | hpos
  · unfold idle at hpos
    split at hpos
    next hst =>
      obtain ⟨info, hinfo, -⟩ := Option.map_eq_some_iff.mp hst
      obtain ⟨p, hp, -⟩ := Option.bind_eq_some_iff.mp hinfo
      exact h.home_of_keyOf (h.consistent.info hp).1
    next => omega
  · obtain ⟨c, hc, hshare⟩ := exists_of_load_pos hpos
    exact h.home_of_share hc hshare
  · exact home_of_load (fun msg hm => h.wire msg (mem_append_left _ hm)) hpos
  · exact home_of_load (fun msg hm => h.wire msg (mem_append_right _ hm)) hpos

/-! ## Steps that leave the outputs alone -/

theorem CallOk.mono (h : s.CallOk call) (hhome : ∀ oid k, s.Home oid k → s'.Home oid k)
    (hwritten : ∀ oid k, s.Written oid k → s'.Written oid k)
    (hlabel : ∀ p, s.partitions.labelOf p ≠ none → s'.partitions.labelOf p ≠ none)
    (huntracked : ∀ k, 0 < s.share k call → s.Untracked k → s'.Untracked k) : s'.CallOk call where
  holds p hp := hlabel p (h.holds p hp)
  messages msg hm := hhome _ _ (h.messages msg hm)
  dispatch oid rest hc part hp := by
    obtain ⟨h1, h2⟩ := h.dispatch oid rest hc part hp
    refine ⟨hhome _ _ h1, huntracked _ ?_ h2⟩
    have : 0 < call.pending.count part.getPartitionKey := by
      rw [hc]
      exact count_pos_iff.mpr (mem_map_of_mem hp)
    unfold share
    omega
  written msg next hc hn := hwritten _ _ (h.written msg next hc hn)
  removed msg hc := by
    refine huntracked _ ?_ (h.removed msg hc)
    have : 0 < call.handled.countP (·.key = msg.key) := by
      rw [hc]
      exact countP_pos_iff.mpr ⟨msg, mem_singleton_self msg, by simp⟩
    unfold share
    omega

theorem home_congr {oid : Int}
    (h : (s'.outputs oid).map (·.blocks) = (s.outputs oid).map (·.blocks)) :
    s'.Home oid k ↔ s.Home oid k := by
  have hmap : ∀ s : Server, s.Home oid k ↔ ∃ b ∈ (s.outputs oid).map (·.blocks), k ∈ b := by
    intro s
    simp [Home]
  rw [hmap, hmap, h]

/-- The blocks and the counters stay: what is left to show is about the tracker and the calls. -/
theorem Inv.of_blocks_eq (h : Inv s)
    (hblocks : ∀ oid, (s'.outputs oid).map (·.blocks) = (s.outputs oid).map (·.blocks))
    (hwritten : ∀ oid k, s.Written oid k → s'.Written oid k)
    (hrsp : s'.rspCbCounts = s.rspCbCounts) (hcounted : s'.counted = s.counted)
    (hversions : s'.versions = s.versions) (hcons : s'.partitions.Consistent)
    (hlabels : ∀ p oid k, s'.partitions.labelOf p = some (oid, k) → s.Home oid k)
    (hcalls : ∀ c ∈ s'.calls, s'.CallOk c)
    (hwire : ∀ msg ∈ s'.toDevice ++ s'.toServer, s.Home msg.oid msg.key)
    (huntracked : ∀ e ∈ s.counted, s'.Untracked e.2)
    (honce : ∀ k, s'.copies k + s.counted.countP (·.2 = k) ≤ 1) : Inv s' := by
  have hhome : ∀ oid k, s'.Home oid k ↔ s.Home oid k := fun oid k => home_congr (hblocks oid)
  have hold : ∀ oid out, s'.outputs oid = some out →
      ∃ out', s.outputs oid = some out' ∧ out'.blocks = out.blocks := by
    intro oid out hout
    have := hblocks oid
    rw [hout, Option.map_some, eq_comm, Option.map_eq_some_iff] at this
    exact this
  constructor
  · exact hcons
  · simpa only [hhome] using hlabels
  · exact hcalls
  · simpa only [hhome] using hwire
  · intro e he
    rw [hcounted] at he
    obtain ⟨h1, h2, -⟩ := h.counted e he
    exact ⟨(hhome _ _).mpr h1, hwritten _ _ h2, huntracked e he⟩
  · intro oid out hout
    obtain ⟨out', hout', hb⟩ := hold oid out hout
    exact hb ▸ h.nodup oid out' hout'
  · intro oid out hout
    obtain ⟨out', hout', hb⟩ := hold oid out hout
    rw [hrsp, hcounted, ← hb]
    exact h.counter oid out' hout'
  · intro oid hout
    have := hblocks oid
    rw [hout, Option.map_none, eq_comm, Option.map_eq_none_iff] at this
    exact hrsp ▸ h.unused oid this
  · simpa only [hhome, hversions] using h.versions
  · simpa only [hhome] using h.disjoint
  · simpa only [hcounted] using honce

/-- The calls after the step of one of them, where the objects keep their labels. -/
theorem Inv.callOk_replace (h : Inv s) (hhome : ∀ oid k, s.Home oid k → s'.Home oid k)
    (hwritten : ∀ oid k, s.Written oid k → s'.Written oid k)
    (hlabel : ∀ p, s.partitions.labelOf p ≠ none → s'.partitions.labelOf p ≠ none)
    (huntracked : ∀ k, s.Untracked k → s'.Untracked k) (hcalls : s'.calls = replace s.calls i new)
    (hnew : ∀ c ∈ new, s'.CallOk c) : ∀ c ∈ s'.calls, s'.CallOk c := by
  intro c hc
  rw [hcalls] at hc
  rcases mem_replace hc with hc | hc
  · exact (h.calls c hc).mono hhome hwritten hlabel fun k _ => huntracked k
  · exact hnew c hc

/-- The server after a step of the call at place `i` on the trackers. -/
abbrev stepped (s : Server) (t : PartitionTracker PartitionKey) (d : DevicePartitionTracker)
    (i : Nat) (new : List Call) : Server :=
  { s with partitions := t, devices := d, calls := replace s.calls i new }

/-- How the places change in such a step. -/
theorem copies_stepped (hi : s.calls[i]? = some call)
    (d : DevicePartitionTracker) (new : List Call) (hlabel : t.labelOf = s.partitions.labelOf)
    (k : PartitionKey) : (s.stepped t d i new).copies k + s.share k call ≤
      s.inFlight k + load (s.share k) new + idle t k := by
  have h1 : (s.stepped t d i new).inFlight k ≤ load (s.share k) (replace s.calls i new) +
      load (s.onWire k) s.toDevice + load (s.onWire k) s.toServer :=
    inFlight_le (fun _ => id) fun c _ p _ => congrFun (keyOf_congr hlabel) p
  have h2 : load (s.share k) (replace s.calls i new) + _ = _ := load_replace _ hi
  simp only [copies]
  simp only [inFlight] at h1 ⊢
  omega

/-- A step of a call on the trackers. -/
theorem Inv.step (h : Inv s) (d : DevicePartitionTracker) (hkept : Kept s.partitions t)
    (hnew : ∀ c ∈ new, CallOk { s with partitions := t } c)
    (honce : ∀ k, (s.stepped t d i new).copies k + s.counted.countP (·.2 = k) ≤ 1) :
    Inv (s.stepped t d i new) := by
  refine h.of_blocks_eq (fun _ => rfl) (fun _ _ => id) rfl rfl rfl hkept.consistent ?_ ?_ h.wire ?_ honce
  · simpa only [hkept.labelOf_eq] using h.labels
  · refine h.callOk_replace (fun _ _ => id) (fun _ _ => id) ?_ hkept.untracked rfl fun c hc => ?_
    · simp [hkept.labelOf_eq]
    · exact ⟨(hnew c hc).holds, (hnew c hc).messages, (hnew c hc).dispatch, (hnew c hc).written,
        (hnew c hc).removed⟩
  · exact fun e he => hkept.untracked _ (h.counted e he).2.2

/-- Such a step makes no copies. -/
theorem Inv.once_stepped (h : Inv s) (hi : s.calls[i]? = some call) (d : DevicePartitionTracker)
    (hlabel : t.labelOf = s.partitions.labelOf)
    (hcopies : ∀ k, load (s.share k) new + idle t k ≤ s.share k call + idle s.partitions k)
    (k : PartitionKey) : (s.stepped t d i new).copies k + s.counted.countP (·.2 = k) ≤ 1 := by
  have h1 := copies_stepped hi d new hlabel k
  have h2 := hcopies k
  have h3 := h.once k
  unfold copies at h3
  omega

/-- The calls and the wire change, and no copies are made. -/
theorem Inv.move (h : Inv s) (d : DevicePartitionTracker) {conns : List Connection}
    {calls : List Call} {toDevice toServer : List Message}
    (hclosed : ∀ c, s.isClosed c = true → conns[c]?.any (·.closed) = true)
    (hkept : Kept s.partitions t) (hcalls : ∀ c ∈ calls, s.CallOk c)
    (hwire : ∀ msg ∈ toDevice ++ toServer, s.Home msg.oid msg.key)
    (hle : ∀ k, load (s.share k) calls + load (s.onWire k) toDevice +
      load (s.onWire k) toServer + idle t k ≤ s.copies k) :
    Inv { s with partitions := t, devices := d, conns, calls, toDevice, toServer } := by
  refine h.of_blocks_eq (fun _ => rfl) (fun _ _ => id) rfl rfl rfl hkept.consistent ?_
    (fun c hc => ?_) hwire (fun e he => hkept.untracked _ (h.counted e he).2.2) fun k =>
      h.once_of_le hclosed (fun c _ p _ => congrFun (keyOf_congr hkept.labelOf_eq) p) (hle k)
  · simpa only [hkept.labelOf_eq] using h.labels
  · refine (hcalls c hc).mono (fun _ _ => id) (fun _ _ => id) ?_ fun k _ => hkept.untracked k
    simp [hkept.labelOf_eq]

theorem Inv.step_of_le (h : Inv s) (hi : s.calls[i]? = some call) (d : DevicePartitionTracker)
    (hkept : Kept s.partitions t) (hnew : ∀ c ∈ new, s.CallOk c)
    (hcopies : ∀ k, load (s.share k) new + idle t k ≤ s.share k call + idle s.partitions k) :
    Inv (s.stepped t d i new) := by
  refine h.move d (fun _ => id) hkept (fun c hc => (mem_replace hc).elim (h.calls c) (hnew c))
    h.wire fun k => ?_
  have h1 : load (s.share k) (replace s.calls i new) + _ = _ := load_replace _ hi
  have h2 := hcopies k
  simp only [copies, inFlight]
  omega

/-! ## What the steps of `SendIdlePartitions` do to the tracker -/

/-- What is left of a call after a step, in place of the call. -/
abbrev done (s : Server) (i : Nat) (r : Server × List Call) : Server :=
  { r.1 with calls := replace s.calls i r.2 }

/-- A call that has nothing but the partitions that it claimed. -/
def Carrier (call : Call) : Prop := call.pending = [] ∧ call.queued ++ call.handled = []

/-- `MarkPartitionIdle`. -/
theorem kept_markIdle (h : t.Consistent) (p : Nat) : Kept t (markIdle t p) := by
  unfold markIdle
  split
  · exact h.kept
  · exact h.kept_markPartition .idle _

theorem assignOwner_spec (h : t.Consistent) (redistributed : List (PartitionKey × Int)) (p : Nat) :
    Kept t (assignOwner redistributed t p) ∧
      (∀ k, (assignOwner redistributed t p).stateAt k = t.stateAt k) ∧
      ∀ k, t.keyOf p ≠ some k → (assignOwner redistributed t p).find k = t.find k := by
  unfold assignOwner
  split
  · exact ⟨h.kept, fun _ => rfl, fun _ _ => rfl⟩
  · refine ⟨h.kept_modify (fun _ => ?_) p, fun k => ?_, fun k hk => ?_⟩
    · exact ⟨rfl, rfl⟩
    · rw [stateAt, find_modify]
      split
      · exact Option.map_map _ _ _
      · rfl
    · rw [find_modify, if_neg fun hp => hk (h.info hp).1]

/-- `RedistributePartitions` only writes the owners of the partitions that it is given. -/
theorem foldl_assignOwner (h : t.Consistent) (redistributed : List (PartitionKey × Int))
    (ps : List Nat) :
    Kept t (ps.foldl (assignOwner redistributed) t) ∧
      (∀ k, (ps.foldl (assignOwner redistributed) t).stateAt k = t.stateAt k) ∧
      ∀ k, (∀ p ∈ ps, t.keyOf p ≠ some k) →
        (ps.foldl (assignOwner redistributed) t).find k = t.find k := by
  induction ps generalizing t with
  | nil => exact ⟨h.kept, fun _ => rfl, fun _ _ => rfl⟩
  | cons p ps ih =>
    obtain ⟨hkept₁, hstate₁, hfind₁⟩ := assignOwner_spec h redistributed p
    obtain ⟨hkept, hstate, hfind⟩ := ih hkept₁.consistent
    refine ⟨hkept₁.trans hkept, fun k => (hstate k).trans (hstate₁ k), fun k hk => ?_⟩
    refine (hfind k fun q hq => ?_).trans (hfind₁ k (hk p mem_cons_self))
    rw [keyOf_congr hkept₁.labelOf_eq]
    exact hk q (mem_cons_of_mem p hq)

end Server
end Morphling
