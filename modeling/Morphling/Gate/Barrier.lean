import Morphling.Gate.Gate
import Morphling.Lib.Assoc
import Morphling.Lib.Run
import Mathlib.Data.List.Infix

/-!
# The barrier opens when enough devices are connected

In `BARRIER` mode the gate lets dispatches through once `barrier_met_` is set. The gate does not
look at the devices: it counts the registrations that notify it, and forgets a device only when it
is purged. So the counter is at least the number of devices (`Counted`), but a device that registers
again from its address is counted again, and one that disconnected stays counted.

`barrier_iff`: enough connected devices always open the barrier, and the barrier opens only with
enough connected devices exactly when the registration that opens it finds the counter right
(`BarrierOk`).
-/

namespace Morphling.Fleet

open List DevicePartitionTracker

variable {W : Type*}

/-- A call of the tracker, with the notification of its gate. -/
def apply (s : Fleet W) : Op → Fleet W
  | .registerDevice connAddr uuid now =>
    let (r, tracker) := s.tracker.registerDevice connAddr uuid now
    ⟨tracker, if r.notifiesGate then s.gate.notifyDeviceJoined.2 else s.gate⟩
  | .purgeDevice deviceId =>
    ⟨s.tracker.purgeDevice deviceId,
      if (s.tracker.devicesMap.lookup deviceId).isSome then s.gate.notifyDeviceLeft else s.gate⟩
  | op => ⟨s.tracker.apply op, s.gate⟩

/-- No device, and a gate that waits for `n` devices. -/
def waitingFor (config : CircuitBreakerConfig) (n maxQueueSize : Int) : Fleet W where
  tracker := { circuitBreakerConfig := config }
  gate := { mode := .barrier, barrierCount := n, maxQueueSize := maxQueueSize }

/-- The devices that are connected. -/
def connected (s : Fleet W) : Nat := s.tracker.getConnectedDeviceCount

/-- A registration that notifies the gate: it is not a reconnection by UUID, and not rejected. -/
def Notifies (t : DevicePartitionTracker) (connAddr : String) (uuid : Nat) (now : Int) : Prop :=
  t.findByUuid uuid = none ∧ ∀ d dev, t.addrToDeviceId connAddr = some d →
    t.devicesMap.lookup d = some dev → ¬ dev.Rejected t.circuitBreakerConfig now

/-- The registration that opens the barrier finds the counter right: it is the number of connected
devices, and the device that registers is none of them. -/
def BarrierOk (s : Fleet W) : Op → Prop
  | .registerDevice connAddr uuid now =>
    Notifies s.tracker connAddr uuid now → s.gate.barrierMet = false →
      s.gate.barrierCount ≤ s.gate.connectedCount + 1 →
        s.connected = s.gate.connectedCount ∧
          ∀ d, s.tracker.addrToDeviceId connAddr = some d →
            ∃ dev, s.tracker.devicesMap.lookup d = some dev ∧ dev.isConnected = false
  | _ => True

/-- What every run keeps: the gate has counted at least every device, and the barrier is closed only
below its count. -/
structure Counted (n : Int) (s : Fleet W) : Prop where
  mode : s.gate.mode = .barrier
  barrierCount : s.gate.barrierCount = n
  fresh : ∀ {d dev}, s.tracker.devicesMap.lookup d = some dev → d < s.tracker.nextDeviceId
  devices : (s.tracker.devicesMap.entries.length : Int) ≤ s.gate.connectedCount
  closed : s.gate.barrierMet = false → s.gate.connectedCount < n

variable {s : Fleet W} {n now : Int} {addr : String} {uuid : Nat} {op : Op}

theorem Counted.connected_le (h : Counted n s) : (s.connected : Int) ≤ s.gate.connectedCount := by
  have : s.connected ≤ s.tracker.devicesMap.entries.length := countP_le_length
  have := h.devices
  omega

theorem length_insert (m : AList fun _ : Int => DeviceLiveness) (d : Int) (dev : DeviceLiveness) :
    (m.insert d dev).entries.length =
      if (m.lookup d).isSome then m.entries.length else m.entries.length + 1 := by
  have h := Assoc.countP_insert_add (fun _ => true) m d dev
  simp only [countP_true, if_true] at h
  cases hl : m.lookup d with
  | none => rw [Assoc.weight_none hl] at h; simpa using h
  | some v => rw [Assoc.weight_some hl] at h; simpa using h

theorem length_erase (m : AList fun _ : Int => DeviceLiveness) {d : Int} {dev : DeviceLiveness}
    (hl : m.lookup d = some dev) : (m.erase d).entries.length + 1 = m.entries.length := by
  have h := Assoc.countP_erase_add (fun _ => true) m d
  rw [Assoc.weight_some hl] at h
  simpa using h

/-- The gate after a device joined, in `BARRIER` mode. -/
theorem notifyDeviceJoined_barrier {g : DispatchGate W} (hm : g.mode = .barrier) :
    g.notifyDeviceJoined.2 = { g with
      connectedCount := g.connectedCount + 1
      barrierMet := g.barrierMet || decide (g.barrierCount ≤ g.connectedCount + 1) } := by
  cases hb : g.barrierMet <;> by_cases hc : g.barrierCount ≤ g.connectedCount + 1 <;>
    simp [DispatchGate.notifyDeviceJoined, hm, hb, hc]

/-! ## What a registration does -/

/-- A registration that does not notify the gate keeps the number of devices. -/
theorem registerDevice_quiet (t : DevicePartitionTracker) (h : ¬ Notifies t addr uuid now) :
    (t.registerDevice addr uuid now).1.notifiesGate = false ∧
      (t.registerDevice addr uuid now).2.nextDeviceId = t.nextDeviceId ∧
      ((t.registerDevice addr uuid now).2.devicesMap = t.devicesMap ∨ ∃ d dev dev',
        t.devicesMap.lookup d = some dev ∧
        (t.registerDevice addr uuid now).2.devicesMap = t.devicesMap.insert d dev') := by
  cases hf : t.findByUuid uuid with
  | some e =>
    obtain ⟨d, dev⟩ := e
    by_cases hr : dev.Rejected t.circuitBreakerConfig now
    · rw [registerDevice_uuid_rejected hf hr]
      exact ⟨rfl, rfl, .inl rfl⟩
    · rw [registerDevice_uuid hf hr]
      exact ⟨rfl, rfl, .inr ⟨d, dev, _, (findByUuid_some.mp hf).2.2, rfl⟩⟩
  | none =>
    simp only [Notifies, hf, true_and, not_forall, not_not] at h
    obtain ⟨d, dev, ha, hl, hr⟩ := h
    rw [registerDevice_addr_rejected hf ha hl hr]
    exact ⟨rfl, rfl, .inl rfl⟩

theorem reconnectByAddr_devices (t : DevicePartitionTracker) (d : Int) (dev : DeviceLiveness)
    (addr : String) (uuid : Nat) : ∃ dev', dev'.isConnected = true ∧
      (t.reconnectByAddr d dev addr uuid).nextDeviceId = t.nextDeviceId ∧
      (t.reconnectByAddr d dev addr uuid).devicesMap = t.devicesMap.insert d dev' := by
  unfold reconnectByAddr
  split
  · exact ⟨_, rfl, rfl, rfl⟩
  · exact ⟨_, rfl, rfl, rfl⟩

/-- A registration that notifies the gate connects a device, unless the address leads to a device
that is gone. -/
theorem registerDevice_notifies {t : DevicePartitionTracker} (h : Notifies t addr uuid now) :
    (t.registerDevice addr uuid now).1.notifiesGate = true ∧
      ((∃ d dev dev', t.addrToDeviceId addr = some d ∧ t.devicesMap.lookup d = some dev ∧
          dev'.isConnected = true ∧
          (t.registerDevice addr uuid now).2.nextDeviceId = t.nextDeviceId ∧
          (t.registerDevice addr uuid now).2.devicesMap = t.devicesMap.insert d dev') ∨
        (∃ d, t.addrToDeviceId addr = some d ∧ t.devicesMap.lookup d = none ∧
          (t.registerDevice addr uuid now).2 = t) ∨
        ∃ dev', t.addrToDeviceId addr = none ∧ dev'.isConnected = true ∧
          (t.registerDevice addr uuid now).2.nextDeviceId = t.nextDeviceId + 1 ∧
          (t.registerDevice addr uuid now).2.devicesMap =
            t.devicesMap.insert t.nextDeviceId dev') := by
  obtain ⟨hf, hr⟩ := h
  cases ha : t.addrToDeviceId addr with
  | none =>
    rw [registerDevice_new hf ha]
    exact ⟨rfl, .inr (.inr ⟨_, rfl, rfl, rfl, rfl⟩)⟩
  | some d =>
    cases hl : t.devicesMap.lookup d with
    | none =>
      rw [registerDevice_gone hf ha hl]
      exact ⟨rfl, .inr (.inl ⟨d, rfl, hl, rfl⟩)⟩
    | some dev =>
      obtain ⟨dev', hc, hn, hm⟩ := reconnectByAddr_devices t d dev addr uuid
      rw [registerDevice_addr hf ha hl (hr d dev ha hl)]
      exact ⟨rfl, .inl ⟨d, dev, dev', rfl, hl, hc, hn, hm⟩⟩

/-! ## One call -/

section Counted
variable (h : Counted n s)
include h

/-- The devices after a registration that notifies the gate. -/
theorem Counted.registered (hn : Notifies s.tracker addr uuid now) :
    ((s.tracker.registerDevice addr uuid now).2.devicesMap.entries.length : Int) ≤
        s.gate.connectedCount + 1 ∧
      (∀ {d dev}, (s.tracker.registerDevice addr uuid now).2.devicesMap.lookup d = some dev →
        d < (s.tracker.registerDevice addr uuid now).2.nextDeviceId) ∧
      ((s.gate.connectedCount + 1 : Int) ≤
          (s.tracker.registerDevice addr uuid now).2.getConnectedDeviceCount ↔
        s.connected = s.gate.connectedCount ∧
          ∀ d, s.tracker.addrToDeviceId addr = some d →
            ∃ dev, s.tracker.devicesMap.lookup d = some dev ∧ dev.isConnected = false) := by
  have hdev := h.devices
  have hle := h.connected_le
  obtain ⟨-, ⟨d, dev, dev', ha, hl, hc, hnext, hmap⟩ | ⟨d, ha, hl, ht⟩ | ⟨dev', ha, hc, hnext, hmap⟩⟩ :=
    registerDevice_notifies hn
  · -- A known device registers again.
    have hcount := Assoc.countP_insert_add (fun e => e.2.isConnected) s.tracker.devicesMap d dev'
    rw [Assoc.weight_some hl] at hcount
    simp only [hc, if_true] at hcount
    rw [getConnectedDeviceCount, hmap, hnext, length_insert, hl]
    refine ⟨by simpa using by omega, Assoc.key_of_lookup_insert
      (P := (· < s.tracker.nextDeviceId)) (h.fresh hl) h.fresh, ?_⟩
    · unfold connected getConnectedDeviceCount at hle ⊢
      constructor
      · intro hge
        cases hb : dev.isConnected with
        | false =>
          simp only [hb, Bool.false_eq_true, if_false] at hcount
          refine ⟨by omega, fun d' ha' => ?_⟩
          obtain rfl := Option.some.inj (ha.symm.trans ha')
          exact ⟨dev, hl, hb⟩
        | true =>
          simp only [hb, if_true] at hcount
          omega
      · rintro ⟨heq, hoff⟩
        obtain ⟨dev₂, hl₂, hb⟩ := hoff d ha
        obtain rfl := Option.some.inj (hl.symm.trans hl₂)
        simp only [hb, Bool.false_eq_true, if_false] at hcount
        omega
  · -- The address leads to a device that is gone: nothing changes.
    rw [ht]
    refine ⟨by omega, h.fresh, ?_⟩
    unfold connected at hle ⊢
    constructor
    · intro hge
      omega
    · rintro ⟨-, hoff⟩
      obtain ⟨dev, hl', -⟩ := hoff d ha
      rw [hl] at hl'
      cases hl'
  · -- A new device.
    have hnone : s.tracker.devicesMap.lookup s.tracker.nextDeviceId = none :=
      Option.eq_none_iff_forall_ne_some.mpr fun e hl => Int.lt_irrefl _ (h.fresh hl)
    have hcount := Assoc.countP_insert_add (fun e => e.2.isConnected) s.tracker.devicesMap
      s.tracker.nextDeviceId dev'
    rw [Assoc.weight_none hnone] at hcount
    simp only [hc, if_true] at hcount
    rw [getConnectedDeviceCount, hmap, hnext, length_insert, hnone]
    refine ⟨by simpa using hdev, Assoc.key_of_lookup_insert
      (P := (· < s.tracker.nextDeviceId + 1)) (Int.lt_succ _) fun he => ?_, ?_⟩
    · exact Int.lt_trans (h.fresh he) (Int.lt_succ _)
    · unfold connected getConnectedDeviceCount at hle ⊢
      simp only [ha, reduceCtorEq, false_implies, implies_true, and_true]
      omega

/-- A disconnect keeps the devices; the gate does not hear of it. -/
theorem Counted.disconnected (d now : Int) :
    Counted n ⟨s.tracker.disconnectDevice d now, s.gate⟩ := by
  unfold disconnectDevice
  cases hl : s.tracker.devicesMap.lookup d with
  | none => exact h
  | some dev =>
    refine ⟨h.mode, h.barrierCount, fun {d' e} he => ?_, ?_, h.closed⟩
    · by_cases hd : d' = d
      · subst hd
        exact h.fresh hl
      · simp only [AList.lookup_insert_ne hd] at he
        exact h.fresh he
    · simp only [length_insert, hl, Option.isSome_some, if_true]
      exact h.devices

/-- Every call keeps the counts. -/
theorem Counted.apply (op : DevicePartitionTracker.Op) : Counted n (s.apply op) := by
  have hdev := h.devices
  cases op with
  | registerDevice addr uuid now =>
    by_cases hn : Notifies s.tracker addr uuid now
    · obtain ⟨hlen, hfresh, -⟩ := h.registered hn
      have hnote := (registerDevice_notifies hn).1
      simp only [Fleet.apply, hnote, if_true, notifyDeviceJoined_barrier h.mode]
      refine ⟨h.mode, h.barrierCount, hfresh, hlen, ?_⟩
      simp only [Bool.or_eq_false_iff, decide_eq_false_iff_not, h.barrierCount]
      omega
    · obtain ⟨hnote, hnext, hmap⟩ := registerDevice_quiet s.tracker hn
      simp only [Fleet.apply, hnote]
      refine ⟨h.mode, h.barrierCount, fun {d e} he => ?_, ?_, h.closed⟩
      · simp only [hnext]
        rcases hmap with hmap | ⟨d', dev, dev', hl, hmap⟩
        · exact h.fresh (hmap ▸ he)
        · simp only [hmap] at he
          by_cases hd : d = d'
          · exact hd ▸ h.fresh hl
          · rw [AList.lookup_insert_ne hd] at he
            exact h.fresh he
      · rcases hmap with hmap | ⟨d', dev, dev', hl, hmap⟩
        · simpa [hmap] using hdev
        · simp only [hmap, length_insert, hl, Option.isSome_some, if_true]
          exact hdev
  | purgeDevice d =>
    cases hl : s.tracker.devicesMap.lookup d with
    | none =>
      simp only [Fleet.apply, DevicePartitionTracker.purgeDevice, hl, Option.isSome_none,
        Bool.false_eq_true, if_false]
      exact h
    | some dev =>
      have hlen := length_erase s.tracker.devicesMap hl
      have hpos : s.gate.connectedCount > 0 := by omega
      simp only [Fleet.apply, DevicePartitionTracker.purgeDevice, hl, Option.isSome_some, if_true,
        DispatchGate.notifyDeviceLeft, hpos]
      refine ⟨h.mode, h.barrierCount, fun {d' e} he => ?_, by simp only; omega, fun hb => ?_⟩
      · by_cases hd : d' = d
        · rw [hd, AList.lookup_erase] at he
          cases he
        · rw [AList.lookup_erase_ne hd] at he
          exact h.fresh he
      · have := h.closed hb
        simp only
        omega
  | disconnectDevice d now => exact h.disconnected d now
  | unregisterDevice d now => exact h.disconnected d now
  | setCircuitBreakerConfig config => exact ⟨h.mode, h.barrierCount, h.fresh, h.devices, h.closed⟩
  | reset =>
    refine ⟨h.mode, h.barrierCount, fun {d e} he => ?_, ?_, h.closed⟩
    · simp [Fleet.apply, DevicePartitionTracker.apply, DevicePartitionTracker.reset] at he
    · simp only [Fleet.apply, DevicePartitionTracker.apply, DevicePartitionTracker.reset]
      have : (∅ : AList fun _ : Int => DeviceLiveness).entries.length = 0 := rfl
      omega

/-- The barrier stays open, and only a registration that notifies the gate opens it. -/
theorem barrierMet_apply (op : Op) :
    (s.apply op).gate.barrierMet = true ↔ s.gate.barrierMet = true ∨
      ∃ addr uuid now, op = .registerDevice addr uuid now ∧ Notifies s.tracker addr uuid now ∧
        n ≤ s.gate.connectedCount + 1 := by
  cases op with
  | registerDevice addr uuid now =>
    by_cases hn : Notifies s.tracker addr uuid now
    · have hnote := (registerDevice_notifies hn).1
      simp only [Fleet.apply, hnote, if_true, notifyDeviceJoined_barrier h.mode, h.barrierCount,
        Bool.or_eq_true, decide_eq_true_eq]
      refine or_congr_right ⟨fun hle => ⟨addr, uuid, now, rfl, hn, hle⟩, ?_⟩
      rintro ⟨_, _, _, -, -, hle⟩
      exact hle
    · have hnote := (registerDevice_quiet s.tracker hn).1
      simp only [Fleet.apply, hnote, Bool.false_eq_true, if_false]
      refine ⟨.inl, fun ho => ho.resolve_right ?_⟩
      rintro ⟨_, _, _, ⟨⟩, hn', -⟩
      exact hn hn'
  | purgeDevice d =>
    have hg : s.gate.notifyDeviceLeft.barrierMet = s.gate.barrierMet := by
      unfold DispatchGate.notifyDeviceLeft
      split <;> rfl
    simp only [Fleet.apply, reduceCtorEq, false_and, exists_false, or_false]
    split
    · rw [hg]
    · rfl
  | _ => simp [Fleet.apply]

/-- The call that opens the barrier: `BarrierOk` says that it leaves enough devices connected. -/
theorem Counted.barrierOk_iff (hclosed : s.gate.barrierMet = false)
    (hopen : (s.apply op).gate.barrierMet = true) :
    BarrierOk s op ↔ n ≤ (s.apply op).connected := by
  obtain ⟨addr, uuid, now, rfl, hn, hle⟩ := ((barrierMet_apply h op).mp hopen).resolve_left
    (by simp [hclosed])
  have hlt := h.closed hclosed
  obtain ⟨-, -, hiff⟩ := h.registered hn
  have hn' : n = s.gate.connectedCount + 1 := by omega
  have hbc := h.barrierCount
  simp only [BarrierOk, hn, hclosed, hbc, hle, forall_const]
  rw [← hiff, hn']
  rfl

/-- A call that does not open the barrier meets `BarrierOk`. -/
theorem Counted.barrierOk_of_not_opens
    (hno : s.gate.barrierMet = true ∨ (s.apply op).gate.barrierMet = false) : BarrierOk s op := by
  cases op with
  | registerDevice addr uuid now =>
    intro hn hclosed hle
    rcases hno with hmet | hno
    · rw [hclosed] at hmet
      cases hmet
    · rw [(barrierMet_apply h _).mpr (.inr ⟨addr, uuid, now, rfl, hn, h.barrierCount ▸ hle⟩)] at hno
      cases hno
  | _ => trivial

/-- Enough connected devices open the barrier. -/
theorem Counted.open_of_connected (hc : n ≤ s.connected) : s.gate.barrierMet = true := by
  by_contra hb
  have := h.closed (by simpa using hb)
  have := h.connected_le
  omega

/-! ## Whole runs -/

theorem Counted.exec (ops : List Op) : Counted n (Run.exec Fleet.apply s ops) :=
  (Run.Along.always (P := fun _ _ => True) (fun _ op hc _ => hc.apply op)
    (.of_forall fun _ _ => trivial) h).last

end Counted

theorem counted_waitingFor (config : CircuitBreakerConfig) (maxQueueSize : Int) (hn : 1 ≤ n) :
    Counted n (waitingFor config n maxQueueSize : Fleet W) :=
  ⟨rfl, rfl, fun he => by simp [waitingFor] at he, Int.le_refl 0, fun _ => by
    show (0 : Int) < n
    omega⟩

/-- The closed barrier, over a prefix of a run. -/
theorem barrierMet_mono (h : Counted n s) {pre ops : List Op}
    (hpre : pre <+: ops) (hb : (Run.exec apply s ops).gate.barrierMet = false) :
    (Run.exec apply s pre).gate.barrierMet = false := by
  obtain ⟨rest, rfl⟩ := hpre
  rw [Run.exec_append] at hb
  have hc := h.exec pre
  revert hc hb
  generalize Run.exec apply s pre = s'
  intro hb hc
  induction rest generalizing s' with
  | nil => exact hb
  | cons op rest ih =>
    have := ih _ hb (hc.apply op)
    by_contra hne
    rw [(barrierMet_apply hc op).mpr (.inl (by simpa using hne))] at this
    cases this

/-- **The barrier.** It is open in every state with enough connected devices. It is open only after
a state with enough connected devices exactly when every call of the run meets `BarrierOk`. -/
theorem barrier_iff (config : CircuitBreakerConfig) (maxQueueSize : Int) (hn : 1 ≤ n)
    (ops : List Op) :
    ((∀ pre, pre <+: ops →
        (Run.exec apply (waitingFor config n maxQueueSize : Fleet W) pre).gate.barrierMet = true →
        ∃ pre', pre' <+: pre ∧
          n ≤ (Run.exec apply (waitingFor config n maxQueueSize : Fleet W) pre').connected) ↔
      Run.Along apply BarrierOk (waitingFor config n maxQueueSize : Fleet W) ops) ∧
    ∀ pre, pre <+: ops →
      n ≤ (Run.exec apply (waitingFor config n maxQueueSize : Fleet W) pre).connected →
      (Run.exec apply (waitingFor config n maxQueueSize : Fleet W) pre).gate.barrierMet = true := by
  have h₀ := counted_waitingFor (W := W) config maxQueueSize hn
  have hclosed : (waitingFor config n maxQueueSize : Fleet W).gate.barrierMet = false := rfl
  generalize (waitingFor config n maxQueueSize : Fleet W) = s₀ at h₀ hclosed
  refine ⟨⟨fun hsound => Run.along_iff_forall.mpr fun pre op hpre => ?_,
      fun hok pre hpre hmet => ?_⟩,
    fun pre _ => (h₀.exec pre).open_of_connected⟩
  · have hstep : Run.exec apply s₀ (pre ++ [op]) = (Run.exec apply s₀ pre).apply op :=
      Run.exec_append
    rcases Bool.eq_false_or_eq_true (Run.exec apply s₀ pre).gate.barrierMet with hm | hm
    · exact (h₀.exec pre).barrierOk_of_not_opens (.inl hm)
    rcases Bool.eq_false_or_eq_true ((Run.exec apply s₀ pre).apply op).gate.barrierMet with hm' | hm'
    · rw [(h₀.exec pre).barrierOk_iff hm hm']
      obtain ⟨pre', hp, hc⟩ := hsound _ hpre (hstep ▸ hm')
      rcases prefix_concat_iff.mp hp with rfl | hp
      · exact hstep ▸ hc
      · -- Before this call the barrier was closed, so there were too few devices.
        have hopen := (h₀.exec pre').open_of_connected hc
        rw [barrierMet_mono h₀ hp hm] at hopen
        cases hopen
    · exact (h₀.exec pre).barrierOk_of_not_opens (.inr hm')
  · rw [Run.along_iff_forall] at hok
    -- The last call opened the barrier, or it was open before.
    induction pre using List.reverseRecOn with
    | nil => rw [Run.exec_nil, hclosed] at hmet; cases hmet
    | append_singleton pre op ih =>
      have hstep : Run.exec apply s₀ (pre ++ [op]) = (Run.exec apply s₀ pre).apply op :=
        Run.exec_append
      rcases Bool.eq_false_or_eq_true (Run.exec apply s₀ pre).gate.barrierMet with hm | hm
      · obtain ⟨pre', hp, hc⟩ := ih ((prefix_append ..).trans hpre) hm
        exact ⟨pre', hp.trans (prefix_append ..), hc⟩
      · refine ⟨_, prefix_rfl, ?_⟩
        rw [hstep] at hmet ⊢
        exact ((h₀.exec pre).barrierOk_iff hm hmet).mp (hok pre op hpre)

/-- One device that registers twice from the same address opens a barrier for two devices. -/
theorem barrier_reconnect :
    (Run.exec apply (waitingFor {} 2 0 : Fleet Unit)
        [.registerDevice "a" 0 0, .registerDevice "a" 0 0]).gate.barrierMet = true ∧
      ∀ pre, pre <+: [.registerDevice "a" 0 0, .registerDevice "a" 0 0] →
        ¬ 2 ≤ (Run.exec apply (waitingFor {} 2 0 : Fleet Unit) pre).connected := by
  have h : ∀ pre ∈ List.inits [.registerDevice "a" 0 0, .registerDevice "a" 0 0],
      ¬ 2 ≤ (Run.exec apply (waitingFor {} 2 0 : Fleet Unit) pre).connected := by decide
  exact ⟨by decide, fun pre hpre => h pre ((mem_inits ..).mpr hpre)⟩

/-- Two devices that register once each. -/
theorem barrier_two_devices :
    ∃ pre', pre' <+: [.registerDevice "a" 0 0, .registerDevice "b" 0 0] ∧
      2 ≤ (Run.exec apply (waitingFor {} 2 0 : Fleet Unit) pre').connected := by
  have h := (barrier_iff (W := Unit) {} 0 (show (1 : Int) ≤ 2 by decide)
    [.registerDevice "a" 0 0, .registerDevice "b" 0 0]).1.mpr
    ⟨fun _ _ h => absurd h (by decide),
      fun _ _ _ => ⟨by decide, fun d hd => absurd (show (none : Option Int) = some d from hd) nofun⟩,
      trivial⟩
  obtain ⟨pre', hp, hc⟩ := h _ prefix_rfl (by decide)
  exact ⟨pre', hp, Int.ofNat_le.mp hc⟩

end Morphling.Fleet
