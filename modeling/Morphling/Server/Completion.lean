import Morphling.Server.Places

/-!
# No operation completes early

`WaitMatMul` returns when the counter of an operation is zero. Each answer takes one from it,
whichever block it is for, so the result is complete only if no partition is answered twice.

Every step moves a partition from one place to the next (`copies`), except for one:
`MarkDevicePartitionsFailed` makes partitions idle without a look at where they are.

* `completion_sound`: in every run in which that step only takes partitions that are in no other
  place (`ResetOk`), a counter that is zero means that every block was written.
* `sentTwice_incomplete`: a connection that closes before it registered makes the partitions idle
  that `SendIdlePartitions` has claimed and not yet assigned; they are sent twice.
-/

namespace Morphling.Server

open PartitionTracker List Function Pool Call

/-! ## The property -/

/-- Where the counter of an operation is zero, every block of its output was written. -/
def Complete (s : Server) : Prop :=
  ∀ oid out, s.outputs oid = some out → s.rspCbCounts oid = 0 → ∀ k ∈ out.blocks, k ∈ out.written

/-! ## The condition -/

/-- `MarkDevicePartitionsFailed` only takes running partitions that are not with a call and not on
the wire. -/
def CallResetOk (s : Server) : Call → Prop
  | .markFailed _ deviceId => ∀ p ∈ s.partitions.deviceList deviceId,
      s.partitions.stateOf p = some .running → ∀ k ∈ s.partitions.keyOf p, s.inFlight k = 0
  | _ => True

instance (s : Server) : ∀ call, Decidable (s.CallResetOk call)
  | .markFailed _ deviceId => inferInstanceAs (Decidable (∀ p ∈ s.partitions.deviceList deviceId,
      s.partitions.stateOf p = some .running → ∀ k ∈ s.partitions.keyOf p, s.inFlight k = 0))
  | .redistribute _ | .dispatch .. | .release _ | .assign .. | .unassigned .. | .send _ | .unsent ..
  | .sendInLoop _ | .decode _ | .checkConnected .. | .handleMatMul .. | .connectionClosed _
  | .removeConnection .. | .unregister .. | .closedAgain _ | .unregisterAgain _
  | .setConnection .. => inferInstanceAs (Decidable True)

def ResetOk (s : Server) : Event → Prop
  | .step i _ => ∀ call ∈ s.calls[i]?, s.CallResetOk call
  | _ => True

instance (s : Server) : ∀ e, Decidable (s.ResetOk e)
  | .step i _ => inferInstanceAs (Decidable (∀ call ∈ s.calls[i]?, s.CallResetOk call))
  | .dispatch .. | .connect _ | .register .. | .close _ | .sendIdle | .answer _ | .receive _ =>
    inferInstanceAs (Decidable True)

variable {s s' : Server} {k : PartitionKey} {i : Nat} {call c : Call} {new : List Call}
  {msg : Message} {t : PartitionTracker PartitionKey} {oid : Int}

/-! ## What the invariant says -/

/-- An operation whose counter is zero has had all its blocks counted. -/
theorem Inv.mem_counted (h : Inv s) {out : Output} (hout : s.outputs oid = some out)
    (hzero : s.rspCbCounts oid = 0) (hk : k ∈ out.blocks) : (oid, k) ∈ s.counted := by
  let keys := (s.counted.filter (·.1 = oid)).map Prod.snd
  have hmem : ∀ k', k' ∈ keys ↔ (oid, k') ∈ s.counted := by
    intro k'
    simp only [keys, mem_map, mem_filter, decide_eq_true_eq]
    constructor
    · rintro ⟨⟨o, k''⟩, ⟨he, rfl⟩, rfl⟩
      exact he
    · exact fun he => ⟨(oid, k'), ⟨he, rfl⟩, rfl⟩
  have hlen : keys.length = out.blocks.length := by
    rw [length_map, ← countP_eq_length_filter]
    have := h.counter oid out hout
    omega
  have hnodup : keys.Nodup := by
    refine nodup_iff_count_le_one.mpr fun k' => ?_
    have hle : keys.count k' ≤ s.counted.countP (·.2 = k') := by
      rw [List.count, countP_map]
      exact (filter_sublist.countP_le).trans (countP_mono_left (by simp))
    have := h.once k'
    omega
  have hsub : keys ⊆ out.blocks := by
    intro k' hk'
    obtain ⟨o, ho, hb⟩ := (h.counted _ ((hmem k').mp hk')).1
    obtain rfl := Option.some.inj (ho.symm.trans hout)
    exact hb
  have hperm := (subperm_of_subset hnodup hsub).perm_of_length_le (by omega)
  exact (hmem k).mp (hperm.mem_iff.mpr hk)

theorem Inv.complete (h : Inv s) : s.Complete := by
  intro oid out hout hzero k hk
  obtain ⟨o, ho, hw⟩ := (h.counted _ (h.mem_counted hout hzero hk)).2.1
  obtain rfl := Option.some.inj (ho.symm.trans hout)
  exact hw

/-! ## The steps of a call -/

/-- A call that only has claimed partitions. -/
theorem callOk_of_holds (hpending : call.pending = []) (hmsg : call.queued ++ call.handled = [])
    (hholds : ∀ p ∈ call.holds, s.partitions.labelOf p ≠ none) : s.CallOk call where
  holds := hholds
  messages msg hm := by
    rw [hmsg] at hm
    cases hm
  dispatch oid rest hc part hp := by
    subst hc
    rw [pending, map_eq_nil_iff] at hpending
    subst hpending
    cases hp
  written msg next hc := by
    subst hc
    cases hmsg
  removed msg hc := by
    subst hc
    cases hmsg

/-- A call that only has a message, and has done nothing with it. -/
theorem callOk_of_message (hholds : call.holds = []) (hpending : call.pending = [])
    (hmsg : call.queued ++ call.handled = [msg]) (hhome : s.Home msg.oid msg.key)
    (hwrite : ∀ next, call = .handleMatMul msg next → next = .write) : s.CallOk call where
  holds p hp := by
    rw [hholds] at hp
    cases hp
  messages msg' hm := by
    rw [hmsg, mem_singleton] at hm
    exact hm ▸ hhome
  dispatch oid rest hc := by
    subst hc
    cases hmsg
  written msg' next hc hn := by
    subst hc
    cases hmsg
    exact absurd (hwrite next rfl) hn
  removed msg' hc := by
    subst hc
    cases hmsg
    cases hwrite _ rfl

theorem idle_congr {t' : PartitionTracker PartitionKey} (h : t'.stateAt k = t.stateAt k) :
    idle t' k = idle t k := by
  unfold idle
  rw [h]

theorem idle_markIdle (h : t.Consistent) (p : Nat) :
    idle (markIdle t p) k ≤ idle t k + if t.keyOf p = some k then 1 else 0 := by
  unfold markIdle
  cases hp : t.keyOf p with
  | none => exact Nat.le_add_right _ _
  | some key =>
    by_cases hk : k = key
    · simp only [hk, if_true]
      unfold idle
      split <;> omega
    · have : idle (t.markPartitionIdle key) k = idle t k :=
        idle_congr (by rw [stateAt, markPartitionIdle, find_markPartition h, if_neg hk, stateAt])
      dsimp only
      omega

theorem idle_reassignPartitionToDevice (h : t.Consistent) (key : PartitionKey) (d : Int) :
    idle (t.reassignPartitionToDevice key d).2 k = idle t k := by
  refine idle_congr ?_
  rw [stateAt, (reassignPartitionToDevice_eq h d).2.2.2, stateAt]
  split
  · exact Option.map_map _ _ _
  · rfl

theorem idle_markPartitionFinished (h : t.Consistent) (key : PartitionKey) :
    idle (t.markPartitionFinished key) k ≤ idle t k := by
  unfold idle stateAt
  rw [markPartitionFinished, find_markPartition h]
  by_cases hk : k = key
  · rw [if_pos hk]
    cases t.find k <;> simp
  · rw [if_neg hk]

theorem idle_removePartitionByKey (h : t.Consistent) (key : PartitionKey) :
    idle (t.removePartitionByKey key) k ≤ idle t k := by
  unfold idle stateAt
  rw [find_removePartitionByKey h]
  by_cases hk : k = key
  · simp [hk]
  · rw [if_neg hk]

theorem share_of_carrier (hc : Carrier call) :
    s.share k call = call.holds.countP (s.partitions.keyOf · = some k) := by
  obtain ⟨hq, hh⟩ := append_eq_nil_iff.mp hc.2
  simp [share, hc.1, hq, hh]

/-- A step in which a call gives some of its partitions back. -/
theorem Inv.step_carrier (h : Inv s) (hi : s.calls[i]? = some call) (hc : Carrier call)
    (d : DevicePartitionTracker) (hkept : Kept s.partitions t)
    (hnew : ∀ c ∈ new, Carrier c ∧ c.holds ⊆ call.holds)
    (hcopies : ∀ k, load (fun c => c.holds.countP (s.partitions.keyOf · = some k)) new +
      idle t k ≤ call.holds.countP (s.partitions.keyOf · = some k) + idle s.partitions k) :
    Inv (s.stepped t d i new) := by
  have hok := h.calls _ (mem_of_getElem? hi)
  refine h.step_of_le hi d hkept (fun c hc => ?_) fun k => ?_
  · obtain ⟨⟨h1, h2⟩, hsub⟩ := hnew c hc
    exact callOk_of_holds h1 h2 fun p hp => hok.holds p (hsub hp)
  · rw [share_of_carrier hc, load_congr fun c hc => share_of_carrier (hnew c hc).1]
    exact hcopies k

/-- The last step of a call, which leaves the partitions as they are. -/
theorem Inv.step_last (h : Inv s) (hi : s.calls[i]? = some call) (hc : Carrier call)
    (d : DevicePartitionTracker) : Inv (s.stepped s.partitions d i []) :=
  h.step_carrier hi hc d h.consistent.kept (by simp) (by simp)

/-- A step that leaves the partitions as they are. -/
theorem Inv.step_quiet (h : Inv s) (hi : s.calls[i]? = some call) (hc : Carrier call)
    (d : DevicePartitionTracker) (hnew : Carrier c) (hsub : c.holds.Sublist call.holds) :
    Inv (s.stepped s.partitions d i [c]) := by
  refine h.step_carrier hi hc d h.consistent.kept ?_ fun k => ?_
  · exact forall_mem_singleton.mpr ⟨hnew, hsub.subset⟩
  · simpa using hsub.countP_le

/-- One that makes a partition idle. -/
theorem Inv.step_markIdle (h : Inv s) (hi : s.calls[i]? = some call) (hc : Carrier call) (p : Nat)
    (hnew : Carrier c) (hperm : call.holds.Perm (p :: c.holds)) :
    Inv (s.stepped (markIdle s.partitions p) s.devices i [c]) := by
  refine h.step_carrier hi hc _ (kept_markIdle h.consistent p) ?_ fun k => ?_
  · exact forall_mem_singleton.mpr ⟨hnew, fun q hq =>
      hperm.mem_iff.mpr (mem_cons_of_mem p hq)⟩
  · have := idle_markIdle (k := k) h.consistent p
    rw [hperm.countP_eq, countP_cons]
    simp only [decide_eq_true_eq, load_cons, load_nil]
    omega

variable {ps ready : List Nat} {redistributed : List (PartitionKey × Int)} {input : Input} {d : Int}
  {conns : List Connection}

/-- `RedistributePartitions`. -/
theorem Inv.run_redistribute (h : Inv s) (hi : s.calls[i]? = some (.redistribute ps)) :
    Inv (s.done i (s.run input (.redistribute ps))) := by
  simp only [run]
  split
  · exact h.step_quiet hi ⟨rfl, rfl⟩ s.devices ⟨rfl, rfl⟩ (.refl _)
  · obtain ⟨hkept, hstate, -⟩ := foldl_assignOwner h.consistent input.redistributed ps
    refine h.step_carrier hi ⟨rfl, rfl⟩ s.devices hkept ?_ fun k => ?_
    · exact forall_mem_singleton.mpr ⟨⟨rfl, rfl⟩, by simp [holds]⟩
    · rw [idle_congr (hstate k)]
      simp [holds]

/-- The loop that marks all of them idle. -/
theorem Inv.run_release (h : Inv s) (hi : s.calls[i]? = some (.release ps)) :
    Inv (s.done i (s.run input (.release ps))) := by
  cases ps with
  | nil => exact h.step_last hi ⟨rfl, rfl⟩ s.devices
  | cons p ps => exact h.step_markIdle hi ⟨rfl, rfl⟩ p ⟨rfl, rfl⟩ (.refl _)

/-- The loop that reassigns them. -/
theorem Inv.run_assign (h : Inv s) (hi : s.calls[i]? = some (.assign redistributed ps ready)) :
    Inv (s.done i (s.run input (.assign redistributed ps ready))) := by
  cases ps with
  | nil => exact h.step_quiet hi ⟨rfl, rfl⟩ s.devices ⟨rfl, rfl⟩ (.refl _)
  | cons p ps =>
    have hun : Inv (s.done i (s, [.unassigned redistributed p ps ready])) :=
      h.step_quiet hi ⟨rfl, rfl⟩ s.devices ⟨rfl, rfl⟩ (.refl _)
    simp only [run]
    split
    · exact h.step_quiet hi ⟨rfl, rfl⟩ s.devices ⟨rfl, rfl⟩ (sublist_cons_self p _)
    · split
      · exact hun
      · split
        · refine h.step_carrier hi ⟨rfl, rfl⟩ s.devices
            (h.consistent.kept_reassignPartitionToDevice _ _) ?_ fun k => ?_
          · refine forall_mem_singleton.mpr ⟨⟨rfl, rfl⟩, fun q hq => ?_⟩
            simpa [holds, or_comm, or_left_comm, or_assoc] using hq
          · rw [idle_reassignPartitionToDevice h.consistent]
            simp only [holds, load_cons, load_nil, countP_append,
              countP_cons, countP_nil, cons_append]
            omega
        · exact hun

/-- `GetDeviceConnection`: the partition goes to the loop of the connection. -/
theorem Inv.run_send (h : Inv s) (hi : s.calls[i]? = some (.send ps)) :
    Inv (s.done i (s.run input (.send ps))) := by
  have hok := h.calls _ (mem_of_getElem? hi)
  cases ps with
  | nil => exact h.step_last hi ⟨rfl, rfl⟩ s.devices
  | cons p ps =>
    simp only [run]
    split
    · exact h.step_quiet hi ⟨rfl, rfl⟩ s.devices ⟨rfl, rfl⟩ (sublist_cons_self p _)
    next info hinfo =>
      have hlabel : s.partitions.labelOf p = some (info.oid, info.key) := by simp [labelOf, hinfo]
      split
      · exact h.step_quiet hi ⟨rfl, rfl⟩ s.devices ⟨rfl, rfl⟩ (.refl _)
      next conn hconn =>
        refine h.step_of_le hi s.devices h.consistent.kept ?_ fun k => ?_
        · refine forall_mem_cons.mpr ⟨?_, forall_mem_singleton.mpr ?_⟩
          · exact callOk_of_holds rfl rfl fun q hq => hok.holds q (mem_cons_of_mem p hq)
          · exact callOk_of_message rfl rfl rfl (h.labels p _ _ hlabel) (by simp)
        · have hkey : s.partitions.keyOf p = some info.key := by simp [keyOf, hinfo]
          have hwire : s.onWire k ⟨conn, info.key, info.oid⟩ ≤
              if s.partitions.keyOf p = some k then 1 else 0 := by
            unfold onWire
            rw [hkey]
            split <;> simp_all
          simp only [share, pending, holds, queued, handled, load_cons,
            load_nil, count_nil, countP_cons, countP_nil, decide_eq_true_eq]
          omega

/-- A call with nothing but a message. -/
theorem share_handled (hc : call.handled = [msg]) :
    s.share k call = if msg.key = k then 1 else 0 := by
  cases call <;> simp_all [share, pending, holds, queued, handled,
    countP_cons]

/-- The checks of `DecodeAndDispatch`. -/
theorem Inv.step_handled (h : Inv s) (hi : s.calls[i]? = some call) (hc : call.handled = [msg])
    (hnew : ∀ c ∈ new, c.handled = [msg] ∧ s.CallOk c) (hlen : new.length ≤ 1) :
    Inv (s.stepped s.partitions s.devices i new) := by
  refine h.step_of_le hi s.devices h.consistent.kept (fun c hc => (hnew c hc).2) fun k => ?_
  rw [share_handled hc]
  rcases new with _ | ⟨c, _ | _⟩
  · simp
  · simp [share_handled (hnew c mem_cons_self).1]
  · simp at hlen

/-- `SendInLoop`: the partition goes on the wire, or is dropped. -/
theorem Inv.run_sendInLoop (h : Inv s) (hi : s.calls[i]? = some (.sendInLoop msg)) :
    Inv (s.done i (s.run input (.sendInLoop msg))) := by
  have hok := h.calls _ (mem_of_getElem? hi)
  simp only [run]
  split
  · refine h.move s.devices (fun _ => id) h.consistent.kept (fun c hc => ?_) (fun m hm => ?_) fun k => ?_
    · exact (mem_replace hc).elim (h.calls c) nofun
    · simp only [mem_append, mem_singleton] at hm
      rcases hm with (hm | rfl) | hm
      · exact h.wire m (mem_append_left _ hm)
      · exact hok.messages m (by simp [queued])
      · exact h.wire m (mem_append_right _ hm)
    · have hload : load (s.share k) (replace s.calls i []) + _ = _ :=
        load_replace (s.share k) hi
      simp only [share, pending, holds, queued, handled, count_nil,
        countP_nil, load_cons, load_nil] at hload
      simp only [copies, inFlight, load_append, load_cons, load_nil]
      omega
  · exact h.step_of_le hi s.devices h.consistent.kept (by simp) (by simp)

/-- The answer of an unknown or unconnected device is dropped. -/
theorem Inv.run_decode (h : Inv s) (hi : s.calls[i]? = some (.decode msg)) :
    Inv (s.done i (s.run input (.decode msg))) := by
  have hhome := (h.calls _ (mem_of_getElem? hi)).messages msg mem_cons_self
  simp only [run]
  split
  · exact h.step_handled hi rfl (by simp) (by simp)
  · refine h.step_handled hi rfl (forall_mem_singleton.mpr ⟨rfl, ?_⟩) (Nat.le_refl _)
    exact callOk_of_message rfl rfl rfl hhome nofun

theorem Inv.run_checkConnected (h : Inv s) (hi : s.calls[i]? = some (.checkConnected msg d)) :
    Inv (s.done i (s.run input (.checkConnected msg d))) := by
  have hhome := (h.calls _ (mem_of_getElem? hi)).messages msg mem_cons_self
  simp only [run]
  split
  · refine h.step_handled hi rfl (forall_mem_singleton.mpr ⟨rfl, ?_⟩) (Nat.le_refl _)
    exact callOk_of_message rfl rfl rfl hhome fun next he => by cases he; rfl
  · exact h.step_handled hi rfl (by simp) (by simp)

/-! ## The steps of `HandleMatMul` -/

theorem share_handleMatMul (next : HandleStep) :
    s.share k (.handleMatMul msg next) = if msg.key = k then 1 else 0 :=
  share_handled rfl

/-- The call keeps its answer until it is counted. -/
theorem Inv.once_handleMatMul (h : Inv s) {next next' : HandleStep}
    (hi : s.calls[i]? = some (.handleMatMul msg next))
    (hlabel : t.labelOf = s.partitions.labelOf)
    (hidle : ∀ k, idle t k ≤ idle s.partitions k) (k : PartitionKey) :
    (s.stepped t s.devices i [.handleMatMul msg next']).copies k + s.counted.countP (·.2 = k) ≤ 1 := by
  refine h.once_stepped hi s.devices hlabel (fun k => ?_) k
  rw [load_cons, load_nil, share_handleMatMul, share_handleMatMul]
  exact Nat.add_le_add_left (hidle k) _

/-- `WriteResultBlock`. -/
theorem Inv.run_write (h : Inv s) (hi : s.calls[i]? = some (.handleMatMul msg .write)) :
    Inv (s.done i (s.run input (.handleMatMul msg .write))) := by
  have hhome := (h.calls _ (mem_of_getElem? hi)).messages msg mem_cons_self
  obtain ⟨out, hout, -⟩ := id hhome
  simp only [run, writeResultBlock, hout]
  have hwritten : ∀ oid k, Written { s with
      outputs := Function.update s.outputs msg.oid
        (some { out with written := out.written ++ [msg.key] }) } oid k ↔
      s.Written oid k ∨ oid = msg.oid ∧ k = msg.key := by
    intro oid k
    unfold Written
    by_cases ho : oid = msg.oid
    · subst ho
      simp [hout]
    · simp [ho]
  have hblocks : ∀ oid, (Function.update s.outputs msg.oid
      (some { out with written := out.written ++ [msg.key] }) oid).map (·.blocks) =
      (s.outputs oid).map (·.blocks) := by
    intro oid
    by_cases ho : oid = msg.oid
    · subst ho
      simp [hout]
    · rw [update_of_ne ho]
  have hgrow := fun oid k => (hwritten oid k).mpr ∘ Or.inl
  refine h.of_blocks_eq hblocks hgrow rfl rfl rfl h.consistent h.labels ?_ h.wire
    (fun e he => (h.counted e he).2.2) (h.once_handleMatMul hi rfl fun _ => Nat.le_refl _)
  refine h.callOk_replace (fun oid _ => (home_congr (hblocks oid)).mpr) hgrow (fun _ => id)
    (fun _ => id) rfl (forall_mem_singleton.mpr ⟨nofun, ?_, nofun, ?_, nofun⟩)
  · exact forall_mem_singleton.mpr ((home_congr (hblocks _)).mpr hhome)
  · rintro _ _ ⟨⟩ -
    exact (hwritten _ _).mpr (.inr ⟨rfl, rfl⟩)

/-- `MarkPartitionFinished`. -/
theorem Inv.run_finish (h : Inv s) (hi : s.calls[i]? = some (.handleMatMul msg .finish)) :
    Inv (s.done i (s.run input (.handleMatMul msg .finish))) := by
  have hok := h.calls _ (mem_of_getElem? hi)
  have hkept := h.consistent.kept_markPartition .finished msg.key
  refine h.step s.devices hkept ?_ (h.once_handleMatMul hi hkept.labelOf_eq fun k =>
    idle_markPartitionFinished h.consistent msg.key)
  refine forall_mem_singleton.mpr ⟨nofun, hok.messages, nofun, ?_, nofun⟩
  rintro _ _ ⟨⟩ -
  exact hok.written msg _ rfl nofun

/-- `RemovePartitionByKey`. -/
theorem Inv.run_remove (h : Inv s) (hi : s.calls[i]? = some (.handleMatMul msg .remove)) :
    Inv (s.done i (s.run input (.handleMatMul msg .remove))) := by
  have hok := h.calls _ (mem_of_getElem? hi)
  have hkept := h.consistent.kept_removePartitionByKey msg.key
  refine h.step s.devices hkept ?_ (h.once_handleMatMul hi hkept.labelOf_eq fun k =>
    idle_removePartitionByKey h.consistent msg.key)
  refine forall_mem_singleton.mpr ⟨nofun, hok.messages, nofun, ?_, ?_⟩
  · rintro _ _ ⟨⟩ -
    exact hok.written msg _ rfl nofun
  · rintro _ ⟨⟩
    exact (partitionMap_removePartitionByKey h.consistent).trans (if_pos rfl)

/-- `IncRspCbCount`. -/
theorem Inv.run_count (h : Inv s) (hi : s.calls[i]? = some (.handleMatMul msg .count)) :
    Inv (s.done i (s.run input (.handleMatMul msg .count))) := by
  have hok := h.calls _ (mem_of_getElem? hi)
  have hhome := hok.messages msg mem_cons_self
  have honce : ∀ k, (s.stepped s.partitions s.devices i []).copies k +
      (if msg.key = k then 1 else 0) + s.counted.countP (·.2 = k) ≤ 1 := by
    intro k
    have h1 := copies_stepped hi s.devices [] (k := k) rfl
    have h2 := h.once k
    rw [share_handleMatMul, load_nil] at h1
    unfold copies at h1 h2 ⊢
    omega
  simp only [run, incRspCbCount]
  constructor
  · exact h.consistent
  · exact h.labels
  · exact h.callOk_replace (fun _ _ => id) (fun _ _ => id) (fun _ => id) (fun _ => id) rfl (by simp)
  · exact h.wire
  · intro e he
    rcases mem_append.mp he with he | he
    · exact h.counted e he
    · rw [mem_singleton.mp he]
      exact ⟨hhome, hok.written msg _ rfl nofun, hok.removed msg rfl⟩
  · exact h.nodup
  · intro oid out hout
    have hcounter := h.counter oid out hout
    simp only [countP_append, countP_singleton, decide_eq_true_eq]
    by_cases ho : msg.oid = oid
    · subst ho
      -- The block is not counted yet, so the counter is not at zero.
      have hpos : s.rspCbCounts msg.oid ≠ 0 := by
        intro hzero
        obtain ⟨o, ho, hb⟩ := hhome
        obtain rfl := Option.some.inj (ho.symm.trans hout)
        have hmem := h.mem_counted hout hzero hb
        have : 0 < s.counted.countP (·.2 = msg.key) :=
          countP_pos_iff.mpr ⟨_, hmem, by simp⟩
        have := honce msg.key
        rw [if_pos rfl] at this
        omega
      rw [update_self, if_pos rfl]
      omega
    · rw [update_of_ne (Ne.symm ho), if_neg ho]
      exact hcounter
  · intro oid hout
    have hne : oid ≠ msg.oid := by
      rintro rfl
      obtain ⟨o, ho, -⟩ := hhome
      cases ho.symm.trans hout
    exact (update_of_ne hne _ _).trans (h.unused oid hout)
  · exact h.versions
  · exact h.disjoint
  · intro k
    have := honce k
    rw [countP_append, countP_singleton]
    simp only [decide_eq_true_eq]
    exact Nat.le_trans (by rw [Nat.add_right_comm, Nat.add_assoc]; exact Nat.le_refl _) this

/-! ## `AddPartition` and `MarkDevicePartitionsFailed` -/

theorem share_dispatch (oid : Int) (rest : List (MatrixPartition DataPtr)) :
    s.share k (.dispatch oid rest) = (rest.map (·.getPartitionKey)).count k := by
  simp [share, pending, holds, queued, handled]

/-- `AddPartition`: what was pending is idle. -/
theorem Inv.run_addPartition (h : Inv s) {part : MatrixPartition DataPtr}
    {rest : List (MatrixPartition DataPtr)} (hi : s.calls[i]? = some (.dispatch oid (part :: rest))) :
    Inv (s.done i (s.run input (.dispatch oid (part :: rest)))) := by
  have hok := h.calls _ (mem_of_getElem? hi)
  obtain ⟨hhome, huntracked⟩ := hok.dispatch oid _ rfl part mem_cons_self
  have hload : ∀ k, load (s.share k) (replace s.calls i [.dispatch oid rest]) +
      (if part.getPartitionKey = k then 1 else 0) = load (s.share k) s.calls :=
    fun k => load_replace_one hi (by simp [share_dispatch, count_cons])
  -- The partition is nowhere else.
  have hpresent := h.once part.getPartitionKey
  have hleft := hload part.getPartitionKey
  rw [if_pos rfl] at hleft
  unfold copies inFlight at hpresent
  have hother : ∀ c ∈ replace s.calls i [.dispatch oid rest], ∀ k,
      0 < s.share k c → k ≠ part.getPartitionKey := by
    rintro c hc k hk rfl
    have := le_load (f := s.share part.getPartitionKey) hc
    omega
  have hkeeps : ∀ k, k ≠ part.getPartitionKey → s.Untracked k →
      Untracked { s with
        partitions := s.partitions.addPartition (-1) part.getPartitionKey oid part } k :=
    fun k hk hu => (update_of_ne hk _ _).trans hu
  have hlabel := labelOf_addPartition (t := s.partitions) (k := part.getPartitionKey) (-1) oid part
  have hold : ∀ c ∈ replace s.calls i [.dispatch oid rest], s.CallOk c := by
    intro c hc
    rcases mem_replace hc with hc | hc
    · exact h.calls c hc
    · rw [mem_singleton.mp hc]
      refine ⟨nofun, nofun, ?_, nofun, nofun⟩
      rintro _ _ ⟨⟩ part' hpart'
      exact hok.dispatch oid _ rfl part' (mem_cons_of_mem part hpart')
  simp only [run]
  refine h.of_blocks_eq (fun _ => rfl) (fun _ _ => id) rfl rfl rfl ?_ ?_ ?_ h.wire ?_ ?_
  · exact (h.consistent.represents.addPartition huntracked (-1) oid part).consistent
  · intro p o k hp
    rw [hlabel] at hp
    split at hp
    · cases hp
      exact hhome
    · exact h.labels p o k hp
  · intro c hc
    refine (hold c hc).mono (fun _ _ => id) (fun _ _ => id) ?_ fun k hk => hkeeps k (hother c hc k hk)
    intro p hp
    rw [hlabel]
    split
    · nofun
    · exact hp
  · intro e he
    refine hkeeps _ ?_ (h.counted e he).2.2
    intro hkey
    have : 0 < s.counted.countP (·.2 = part.getPartitionKey) :=
      countP_pos_iff.mpr ⟨e, he, by simpa using hkey⟩
    omega
  · intro k
    refine h.once_of_le (fun _ => id) (fun c hc p hp => ?_) ?_
    · have hne : p ≠ s.partitions.heap.length := by
        rintro rfl
        exact (hold c hc).holds _ hp (by simp [labelOf])
      rw [keyOf_eq_labelOf, hlabel, if_neg hne, keyOf_eq_labelOf]
    · have hidle : idle (s.partitions.addPartition (-1) part.getPartitionKey oid part) k ≤
          idle s.partitions k + if part.getPartitionKey = k then 1 else 0 := by
        unfold idle stateAt
        rw [find_addPartition h.consistent]
        split <;> split <;> simp_all
      have := hload k
      dsimp only
      unfold copies inFlight
      omega

/-- A partition that becomes idle was running and in the list of the device. -/
theorem idle_markDevicePartitionsFailed (h : t.Consistent)
    (d : Int) : idle (t.markDevicePartitionsFailed d) k = idle t k ∨ ∃ p ∈ t.deviceList d,
      t.partitionMap k = some p ∧ t.stateOf p = some .running := by
  by_cases hd : t.partitionToDevice k = some d
  · obtain ⟨p, hp⟩ := h.represents.device_some.mp hd
    have hmap := h.represents.map_some.mpr ⟨d, hp⟩
    have hfind : t.find k = t.heap[p]? := by simp [find, hmap]
    by_cases hrun : t.stateOf p = some .running
    · exact .inr ⟨p, (h.represents.mem_list d p).mpr ⟨k, hp⟩, hmap, hrun⟩
    · refine .inl (idle_congr ?_)
      rw [stateAt, find_markDevicePartitionsFailed h, if_pos hd, stateAt, hfind]
      unfold stateOf at hrun
      cases hinfo : t.heap[p]? with
      | none => rfl
      | some info => simp_all
  · refine .inl (idle_congr ?_)
    rw [stateAt, find_markDevicePartitionsFailed h, if_neg hd, stateAt]

/-- `MarkDevicePartitionsFailed`: what it makes idle is nowhere else. -/
theorem Inv.run_markFailed (h : Inv s) {conn : Nat} (hi : s.calls[i]? = some (.markFailed conn d))
    (hreset : s.CallResetOk (.markFailed conn d)) :
    Inv (s.done i (s.run input (.markFailed conn d))) := by
  have hkept := h.consistent.kept_markDevicePartitionsFailed d
  obtain ⟨c, hc, hholds, hcarrier⟩ : ∃ c : Call,
      (if d = -1 then .closedAgain conn else .removeConnection conn d) = c ∧ c.holds = [] ∧
        Carrier c := by
    split <;> exact ⟨_, rfl, rfl, rfl, rfl⟩
  simp only [run, hc]
  show Inv (s.stepped (s.partitions.markDevicePartitionsFailed d) s.devices i [c])
  refine h.step s.devices hkept ?_ fun k => ?_
  · refine forall_mem_singleton.mpr (callOk_of_holds hcarrier.1 hcarrier.2 ?_)
    simp [hholds]
  · have hcopies := copies_stepped hi s.devices [c] hkept.labelOf_eq k
    rw [load_cons, load_nil, share_of_carrier hcarrier, hholds, countP_nil] at hcopies
    rcases idle_markDevicePartitionsFailed (k := k) h.consistent d with hidle | ⟨p, hp, hmap, hrun⟩
    · have := h.once k
      unfold copies at this
      omega
    · have hzero := hreset p hp hrun k (h.consistent.info hmap).1
      have hcount : s.counted.countP (·.2 = k) = 0 := by
        refine countP_eq_zero.mpr fun e he => ?_
        rw [decide_eq_true_eq]
        rintro rfl
        cases hmap.symm.trans (h.counted e he).2.2
      have : idle (s.partitions.markDevicePartitionsFailed d) k ≤ 1 := by
        unfold idle
        split <;> omega
      omega

/-- **Every step of a call keeps the invariant.** -/
theorem Inv.run (h : Inv s) (hi : s.calls[i]? = some call) (hreset : s.CallResetOk call) :
    Inv (s.done i (s.run input call)) := by
  cases call with
  | dispatch oid rest =>
    cases rest with
    | nil => exact h.step_last hi ⟨rfl, rfl⟩ s.devices
    | cons part rest => exact h.run_addPartition hi
  | redistribute ps => exact h.run_redistribute hi
  | release ps => exact h.run_release hi
  | assign redistributed ps ready => exact h.run_assign hi
  | unassigned redistributed p ps ready => exact h.step_markIdle hi ⟨rfl, rfl⟩ p ⟨rfl, rfl⟩ (.refl _)
  | send ps => exact h.run_send hi
  | unsent p ps => exact h.step_markIdle hi ⟨rfl, rfl⟩ p ⟨rfl, rfl⟩ (.refl _)
  | sendInLoop msg => exact h.run_sendInLoop hi
  | decode msg => exact h.run_decode hi
  | checkConnected msg d => exact h.run_checkConnected hi
  | handleMatMul msg next =>
    cases next with
    | write => exact h.run_write hi
    | finish => exact h.run_finish hi
    | remove => exact h.run_remove hi
    | count => exact h.run_count hi
  | markFailed conn d => exact h.run_markFailed hi hreset
  | connectionClosed conn => exact h.step_quiet hi ⟨rfl, rfl⟩ s.devices ⟨rfl, rfl⟩ (.refl _)
  | removeConnection conn d => exact h.step_quiet hi ⟨rfl, rfl⟩ _ ⟨rfl, rfl⟩ (.refl _)
  | unregister conn d => exact h.step_quiet hi ⟨rfl, rfl⟩ _ ⟨rfl, rfl⟩ (.refl _)
  | closedAgain conn =>
    simp only [Server.run]
    split
    · exact h.step_last hi ⟨rfl, rfl⟩ s.devices
    · exact h.step_quiet hi ⟨rfl, rfl⟩ s.devices ⟨rfl, rfl⟩ (.refl _)
  | unregisterAgain d => exact h.step_last hi ⟨rfl, rfl⟩ _
  | setConnection conn d => exact h.step_last hi ⟨rfl, rfl⟩ _

/-! ## Events -/

/-- A call begins. -/
theorem Inv.begin (h : Inv s) (d : DevicePartitionTracker)
    (hclosed : ∀ c, s.isClosed c = true → conns[c]?.any (·.closed) = true)
    (hkept : Kept s.partitions t) (hnew : ∀ c ∈ new, s.CallOk c)
    (hcopies : ∀ k, load (s.share k) new + idle t k ≤ idle s.partitions k) :
    Inv { s with partitions := t, devices := d, conns := conns, calls := s.calls ++ new } := by
  refine h.move d hclosed hkept (fun c hc => (mem_append.mp hc).elim (h.calls c) (hnew c))
    h.wire fun k => ?_
  have := hcopies k
  simp only [copies, inFlight, load_append]
  omega

/-- A call begins that has no partitions. -/
theorem Inv.begin_quiet (h : Inv s) (d : DevicePartitionTracker)
    (hclosed : ∀ c, s.isClosed c = true → conns[c]?.any (·.closed) = true) (hc : Carrier call)
    (hholds : call.holds = []) :
    Inv { s with devices := d, conns := conns, calls := s.calls ++ [call] } := by
  refine h.begin d hclosed h.consistent.kept ?_ fun k => ?_
  · exact forall_mem_singleton.mpr (callOk_of_holds hc.1 hc.2 (by simp [hholds]))
  · simp [share_of_carrier hc, hholds]

theorem Inv.connect (h : Inv s) (addr : String) : Inv (s.next (.connect addr)) := by
  have hclosed : ∀ c, s.isClosed c = true →
      (s.conns ++ [({ addr } : Connection)])[c]?.any (·.closed) = true := by
    intro c hc
    unfold isClosed at hc
    rw [getElem?_append_left]
    · exact hc
    · by_contra hlt
      rw [getElem?_eq_none (Nat.le_of_not_lt hlt)] at hc
      cases hc
  have hbegin : Inv { s with conns := s.conns ++ [{ addr }], calls := s.calls ++ [] } :=
    h.begin s.devices hclosed h.consistent.kept (by simp) (by simp)
  rwa [append_nil] at hbegin

theorem Inv.close (h : Inv s) (conn : Nat) : Inv (s.next (.close conn)) := by
  simp only [next]
  split
  · refine h.begin_quiet s.devices (fun c hc => ?_) ⟨rfl, rfl⟩ rfl
    unfold isClosed at hc
    rw [getElem?_modify]
    cases hconn : s.conns[c]? with
    | none => simp [hconn] at hc
    | some info =>
      split
      · simp
      · simpa [hconn] using hc
  · exact h

theorem Inv.register (h : Inv s) (conn uuid : Nat) (now : Int) :
    Inv (s.next (.register conn uuid now)) := by
  simp only [next]
  split
  · exact h.begin_quiet _ (fun _ => id) ⟨rfl, rfl⟩ rfl
  · exact h

/-- `ClaimIdlePartitions`: what was idle is claimed. -/
theorem Inv.sendIdle (h : Inv s) : Inv (s.next .sendIdle) := by
  simp only [next]
  split
  · exact h
  · refine h.begin s.devices (fun _ => id) h.consistent.kept_claimIdlePartitions ?_ fun k => ?_
    · exact forall_mem_singleton.mpr
        (callOk_of_holds rfl rfl fun p hp => claimed_label h.consistent hp)
    · have hcarrier : Carrier (.redistribute s.partitions.claimIdlePartitions.1) := ⟨rfl, rfl⟩
      rw [load_cons, load_nil, share_of_carrier hcarrier, holds,
        claimed_count h.consistent]
      unfold idle stateAt
      rw [find_claimIdlePartitions h.consistent]
      cases hfind : s.partitions.find k with
      | none => simp
      | some info =>
        by_cases hidle : info.state = .idle
        · simp [hidle]
        · simp [hidle]

theorem Inv.answer (h : Inv s) (i : Nat) : Inv (s.next (.answer i)) := by
  simp only [next]
  split
  · exact h
  next msg hi =>
    split
    · refine h.move s.devices (fun _ => id) h.consistent.kept h.calls (fun m hm => h.wire m ?_)
        fun k => ?_
      · simp only [mem_append, mem_singleton] at hm ⊢
        rcases hm with hm | hm | rfl
        · exact .inl ((mem_replace hm).resolve_right (by simp))
        · exact .inr hm
        · exact .inl (mem_of_getElem? hi)
      · have : load (s.onWire k) (replace s.toDevice i []) + _ = _ :=
          load_replace _ hi
        simp only [copies, inFlight, load_append, load_cons, load_nil] at this ⊢
        omega
    · exact h

theorem Inv.receive (h : Inv s) (i : Nat) : Inv (s.next (.receive i)) := by
  simp only [next]
  split
  · exact h
  next msg hi =>
    split
    next hopen =>
      have hhome := h.wire msg (mem_append_right _ (mem_of_getElem? hi))
      refine h.move s.devices (fun _ => id) h.consistent.kept (fun c hc => ?_)
        (fun m hm => h.wire m ?_) fun k => ?_
      · rcases mem_append.mp hc with hc | hc
        · exact h.calls c hc
        · rw [mem_singleton.mp hc]
          exact callOk_of_message rfl rfl rfl hhome nofun
      · refine (mem_append.mp hm).elim (mem_append_left _) fun hm => ?_
        exact mem_append_right _ ((mem_replace hm).resolve_right (by simp))
      · have hload : load (s.onWire k) (replace s.toServer i []) + _ = _ :=
          load_replace _ hi
        have hwire : s.onWire k msg = s.share k (.decode msg) := by
          rw [share_handled rfl, onWire, isClosed_of_isOpen hopen]
          simp
        simp only [copies, inFlight, load_append, load_cons, load_nil] at hload ⊢
        omega
    next => exact h

/-! ### Dispatch -/

section Dispatch
variable {oid : Int} {parts : List (MatrixPartition DataPtr)}

theorem outputs_dispatch (o : Int) : (s.next (.dispatch oid parts)).outputs o =
    if o = oid then some { blocks := parts.map (·.getPartitionKey) } else s.outputs o :=
  update_apply _ _ _ o

theorem home_dispatch (hnone : s.outputs oid = none) (o : Int) (k : PartitionKey) :
    (s.next (.dispatch oid parts)).Home o k ↔
      s.Home o k ∨ o = oid ∧ k ∈ parts.map (·.getPartitionKey) := by
  unfold Home
  rw [outputs_dispatch]
  by_cases ho : o = oid
  · subst ho
    simp [hnone]
  · simp [ho]

theorem written_dispatch (hnone : s.outputs oid = none) {o : Int} :
    s.Written o k → (s.next (.dispatch oid parts)).Written o k := by
  rintro ⟨out, ho, hk⟩
  refine ⟨out, ((outputs_dispatch o).trans (if_neg ?_)).trans ho, hk⟩
  rintro rfl
  cases hnone.symm.trans ho

/-- The keys of a new operation are in no output. -/
theorem Inv.not_home_of_fresh (h : Inv s) (hen : s.DispatchOk oid parts)
    (hk : k ∈ parts.map (·.getPartitionKey)) (o : Int) : ¬ s.Home o k := by
  intro hhome
  obtain ⟨part, hp, rfl⟩ := mem_map.mp hk
  exact hen.2.2 part hp (h.versions o _ hhome)

theorem Inv.untracked_of_fresh (h : Inv s) (hen : s.DispatchOk oid parts)
    (hk : k ∈ parts.map (·.getPartitionKey)) : s.Untracked k := by
  refine Option.eq_none_iff_forall_ne_some.mpr fun p hmap => ?_
  obtain ⟨o, ho⟩ := h.home_of_keyOf (h.consistent.info hmap).1
  exact h.not_home_of_fresh hen hk o ho

/-- So they have no copies, and none of them is counted. -/
theorem Inv.copies_of_fresh (h : Inv s) (hen : s.DispatchOk oid parts)
    (hk : k ∈ parts.map (·.getPartitionKey)) : s.copies k = 0 ∧ s.counted.countP (·.2 = k) = 0 := by
  constructor
  · by_contra hne
    obtain ⟨o, ho⟩ := h.home_of_copies (Nat.pos_of_ne_zero hne)
    exact h.not_home_of_fresh hen hk o ho
  · refine countP_eq_zero.mpr fun e he => ?_
    rw [decide_eq_true_eq]
    rintro rfl
    exact h.not_home_of_fresh hen hk _ (h.counted e he).1

theorem copies_dispatch (k : PartitionKey) : (s.next (.dispatch oid parts)).copies k ≤
    s.copies k + (parts.map (·.getPartitionKey)).count k := by
  have hle : (s.next (.dispatch oid parts)).inFlight k ≤
      load (s.share k) (s.calls ++ [.dispatch oid parts]) +
        load (s.onWire k) s.toDevice + load (s.onWire k) s.toServer :=
    inFlight_le (fun _ => id) fun _ _ _ _ => rfl
  rw [load_append, load_cons, load_nil, share_dispatch] at hle
  have hsame : idle (s.next (.dispatch oid parts)).partitions k = idle s.partitions k := rfl
  unfold copies
  rw [hsame]
  unfold inFlight at hle ⊢
  omega

theorem Inv.once_dispatch (h : Inv s) (hen : s.DispatchOk oid parts) (k : PartitionKey) :
    (s.next (.dispatch oid parts)).copies k + s.counted.countP (·.2 = k) ≤ 1 := by
  have hcopies : (s.next (.dispatch oid parts)).copies k ≤ _ := copies_dispatch k
  have honce := h.once k
  by_cases hk : k ∈ parts.map (·.getPartitionKey)
  · obtain ⟨h0, h1⟩ := h.copies_of_fresh hen hk
    have h2 := nodup_iff_count_le_one.mp hen.2.1 k
    omega
  · rw [count_eq_zero.mpr hk] at hcopies
    omega

/-- `DispatchMatMulAsync`: the partitions of a new operation are nowhere yet. -/
theorem Inv.dispatch (h : Inv s) (hen : s.DispatchOk oid parts) :
    Inv (s.next (.dispatch oid parts)) := by
  have hnone := hen.1
  have hhome : ∀ o k, (s.next (.dispatch oid parts)).Home o k ↔ _ := home_dispatch hnone
  have hgrow : ∀ o k, s.Home o k → (s.next (.dispatch oid parts)).Home o k :=
    fun o k hk => (hhome o k).mpr (.inl hk)
  constructor
  · exact h.consistent
  · exact fun p o k hp => hgrow o k (h.labels p o k hp)
  · intro c hc
    rcases mem_append.mp hc with hc | hc
    · exact (h.calls c hc).mono hgrow (fun _ _ => written_dispatch hnone) (fun _ => id)
        fun _ _ => id
    · rw [mem_singleton.mp hc]
      refine ⟨nofun, nofun, ?_, nofun, nofun⟩
      rintro _ _ ⟨⟩ part hp
      have hk := mem_map_of_mem (f := (·.getPartitionKey)) hp
      exact ⟨(hhome _ _).mpr (.inr ⟨rfl, hk⟩), h.untracked_of_fresh hen hk⟩
  · exact fun msg hm => hgrow _ _ (h.wire msg hm)
  · intro e he
    obtain ⟨h1, h2, h3⟩ := h.counted e he
    exact ⟨hgrow _ _ h1, written_dispatch hnone h2, h3⟩
  · intro o out ho
    rw [outputs_dispatch] at ho
    split at ho
    · cases ho
      exact hen.2.1
    · exact h.nodup o out ho
  · intro o out ho
    rw [outputs_dispatch] at ho
    split at ho
    next heq =>
      subst heq
      have hcount : s.counted.countP (·.1 = o) = 0 := by
        refine countP_eq_zero.mpr fun e he => ?_
        rw [decide_eq_true_eq]
        rintro rfl
        obtain ⟨out, hout, -⟩ := (h.counted e he).1
        cases hnone.symm.trans hout
      cases ho
      simp [next, h.unused o hnone, hcount]
    next hne => simpa [next, hne] using h.counter o out ho
  · intro o ho
    rw [outputs_dispatch] at ho
    split at ho
    · cases ho
    next hne => exact (update_of_ne hne _ _).trans (h.unused o ho)
  · intro o k hk
    rcases (hhome o k).mp hk with hk | ⟨-, hk⟩
    · exact mem_append_left _ (h.versions o k hk)
    · obtain ⟨part, hp, rfl⟩ := mem_map.mp hk
      exact mem_append_right _ (mem_map_of_mem hp)
  · intro o o' k hk hk'
    rcases (hhome o k).mp hk with h1 | ⟨rfl, h1⟩ <;> rcases (hhome o' k).mp hk' with h2 | ⟨rfl, h2⟩
    · exact h.disjoint o o' k h1 h2
    · exact absurd h1 (h.not_home_of_fresh hen h2 o)
    · exact absurd h2 (h.not_home_of_fresh hen h1 o')
    · rfl
  · exact h.once_dispatch hen

end Dispatch

/-- **One event keeps the invariant.** -/
theorem Inv.next (h : Inv s) {e : Event} (hfresh : s.Fresh e) (hreset : s.ResetOk e) :
    Inv (s.next e) := by
  cases e with
  | connect addr => exact h.connect addr
  | register conn uuid now => exact h.register conn uuid now
  | close conn => exact h.close conn
  | dispatch oid parts => exact h.dispatch hfresh
  | sendIdle => exact h.sendIdle
  | answer i => exact h.answer i
  | receive i => exact h.receive i
  | step i input =>
    simp only [Server.next]
    split
    · exact h
    next call hi => exact h.run hi (hreset call hi)

theorem inv_empty : Inv {} where
  consistent := (represents_empty []).consistent
  labels := nofun
  calls := nofun
  wire := nofun
  counted := nofun
  nodup := nofun
  counter := nofun
  unused _ _ := rfl
  versions := by rintro _ _ ⟨_, ⟨⟩, _⟩
  disjoint := by rintro _ _ _ ⟨_, ⟨⟩, _⟩
  once _ := Nat.zero_le 1

/-- **A counter at zero means a complete result.** In every run in which
`MarkDevicePartitionsFailed` only takes partitions that are in no other place, in every state: where
the counter of an operation is zero, every block of its output was written. -/
theorem completion_sound {events : List Event} (hfresh : Run.Along next Fresh {} events)
    (hreset : Run.Along next ResetOk {} events) : Run.Always next Complete {} events := by
  have hinv : Run.Always next Inv {} events :=
    (hfresh.and hreset).always (fun _ _ h hok => h.next hok.1 hok.2) inv_empty
  exact hinv.mono fun _ => Inv.complete

/-! ## Two runs -/

/-- In a run with a device that is cut off, both blocks are written at the end. -/
theorem resent_complete : Run.Always next Complete {} resent ∧
    (Run.exec next {} resent).rspCbCounts 0 = 0 :=
  ⟨completion_sound (by decide) (by decide), by decide⟩

/-- While `SendIdlePartitions` holds both partitions, a connection closes that did not register.
They are in the list of device −1, so they become idle; they are sent to device 0, claimed again and
sent to device 1. Both devices answer the first block. -/
def sentTwice : List Event :=
  claimBoth ++ [.connect "c", .close 2, go 1, go 1, go 1] ++ sendBoth 0 ++ [.sendIdle] ++
    sendBoth 1 ++ [.answer 0, .answer 1, .receive 0, .receive 0] ++ List.replicate 12 (go 0)

theorem sentTwice_incomplete : Run.Along next Enabled {} sentTwice ∧
    ¬ Run.Always next Complete {} sentTwice := by
  refine ⟨by decide, fun h => ?_⟩
  have hlast := h.last 0 _ rfl (by decide) (part 1).getPartitionKey (by decide)
  revert hlast
  decide

end Morphling.Server
