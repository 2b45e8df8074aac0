import Morphling.Server.Server
import Morphling.Tracker.DeviceInv

/-!
# The circuit breaker, from the connections to the quarantine (`proxy_svr.cpp`)

Connections are opened, register a device and are closed; the tracker counts the closures of a
device and puts it in quarantine. A step is a callback of the server with all that it does to the
devices, their connections and their measurement sessions.

* `ConnectionClosedCb` of the server calls that of the handle, and both unregister the device: a
  closure is counted twice.
* `HandleRegisterResponse` goes on with the `-1` of a rejected registration as with a device id. The
  tracker takes no connection for it, but it takes a measurement session.
* A UUID is looked up before the address, so a device in quarantine can come back from its address
  with the UUID of another device.

`closures`, `began` and `attempts` are not in the source: they record what happened, for `Obeys`.
`obeys_of_sound` says when the breaker keeps its contract. Partitions, and the parts of a session,
are left out.
-/

namespace Morphling

open List Function DeviceLiveness

/-- The server, as far as it deals with devices. -/
structure DeviceSvr where
  devices : DevicePartitionTracker := {}
  /-- `measurement_.AnyEnabled()`. -/
  measurementEnabled : Bool
  conns : List Connection := []
  /-- `measurement_sessions_`: the connection that a session measures. -/
  measurementSessions : Int → Option Nat := fun _ => none
  /-- The calls of `SendInLoop` that are queued, by their connection. -/
  queued : List Nat := []
  clock : Int
  /-- The closures of connections of devices, with their times; the last one first. -/
  closures : List (Int × Int) := []
  /-- When the quarantine of a device began. -/
  began : Int → Int := fun _ => 0
  /-- The registrations on connections, and whether they were accepted; the last one first. -/
  attempts : List (Nat × Bool) := []

namespace DeviceSvr

variable (s : DeviceSvr)

/-- A callback of the server, with the clock readings that it makes. -/
inductive Event where
  /-- `ConnectionSuccessCb`. -/
  | connectionSuccessCb (addr : String)
  /-- A message with a device profile. -/
  | handleRegisterResponse (conn uuid : Nat) (now : Int)
  | connectionClosedCb (conn : Nat) (now again : Int)
  /-- The session of a device has ended. -/
  | measured (deviceId : Int)
  /-- `SendIdlePartitions` has a partition for a device. -/
  | sendIdlePartition (deviceId : Int)
  /-- A queued `SendInLoop`. -/
  | sendInLoop (i : Nat)
  deriving DecidableEq

def isOpen (conn : Nat) : Bool := s.conns[conn]?.any (!·.closed)

def addrOf (conn : Nat) : String := (s.conns[conn]?.map (·.addr)).getD ""

/-- `HandleRegisterResponse` and `StartMeasurementOrDispatch`. -/
def handleRegisterResponse (conn uuid : Nat) (now : Int) : DeviceSvr :=
  let (r, devices) := s.devices.registerDevice (s.addrOf conn) uuid now
  { s with
    devices := devices.setDeviceConnection r.deviceId conn
    measurementSessions :=
      if s.measurementEnabled then
        update s.measurementSessions r.deviceId (some conn)
      else s.measurementSessions
    clock := now
    attempts := (conn, r.deviceId ≠ -1) :: s.attempts }

/-- `UnregisterDevice`. -/
def unregisterDevice (deviceId now : Int) : DeviceSvr :=
  let devices := s.devices.unregisterDevice deviceId now
  let begins := !s.devices.isDeviceQuarantined deviceId && devices.isDeviceQuarantined deviceId
  { s with
    devices := devices
    clock := now
    began := if begins then update s.began deviceId now else s.began }

/-- `ProxySvrHandle::ConnectionClosedCb`. -/
def handleConnectionClosed (addr : String) (now : Int) : DeviceSvr :=
  let deviceId := s.devices.getDeviceIdByAddr addr
  if deviceId ≠ -1 then
    { s with
      measurementSessions := update s.measurementSessions deviceId none
      devices := s.devices.removeDeviceConnection deviceId
      closures := (deviceId, now) :: s.closures }.unregisterDevice deviceId now
  else s

/-- `ProxySvrImpl::ConnectionClosedCb`. -/
def connectionClosedCb (conn : Nat) (now again : Int) : DeviceSvr :=
  let addr := s.addrOf conn
  let s₁ := { s with conns := s.conns.modify conn fun c => { c with closed := true } }
  let s₂ := s₁.handleConnectionClosed addr now
  let deviceId := s₂.devices.getDeviceIdByAddr addr
  if deviceId ≠ -1 then s₂.unregisterDevice deviceId again else s₂

/-- Nothing comes from a closed connection. -/
def next : Event → DeviceSvr
  | .connectionSuccessCb addr => { s with conns := s.conns ++ [{ addr := addr }] }
  | .handleRegisterResponse conn uuid now =>
    if s.isOpen conn then s.handleRegisterResponse conn uuid now else s
  | .connectionClosedCb conn now again =>
    if s.isOpen conn then s.connectionClosedCb conn now again else s
  | .measured deviceId =>
    { s with measurementSessions := update s.measurementSessions deviceId none }
  | .sendIdlePartition deviceId =>
    match s.devices.getDeviceConnection deviceId with
    | none => s
    | some conn => { s with queued := s.queued ++ [conn] }
  | .sendInLoop i => { s with queued := s.queued.eraseIdx i }

/-- A server without devices, whose breaker is enabled. -/
def start (config : CircuitBreakerConfig) (measurementEnabled : Bool) (clock : Int) :
    DeviceSvr where
  devices := DevicePartitionTracker.setCircuitBreakerConfig {} { config with enabled := true }
  measurementEnabled := measurementEnabled
  clock := clock

/-! ## The contract -/

/-- Nanoseconds. -/
def seconds (n : Int) : Int := n * 1000000000

def config : CircuitBreakerConfig := s.devices.circuitBreakerConfig

/-- The closures of a device in the window that begins at `since`. -/
def closuresWithin (deviceId since : Int) : Nat :=
  s.closures.countP fun c =>
    c.1 = deviceId ∧ since ≤ c.2 ∧ c.2 ≤ since + seconds s.config.windowSeconds

/-- The UUID or the address of a registration is that of the device. -/
def Names (deviceId : Int) (conn uuid : Nat) : Prop :=
  (uuid ≠ 0 ∧ s.devices.uuidToDeviceId uuid = some deviceId) ∨
    s.devices.addrToDeviceId (s.addrOf conn) = some deviceId

/-- `RegisterDevice` rejects the registration. -/
def Rejects (conn uuid : Nat) (now : Int) : Prop :=
  (s.devices.registerDevice (s.addrOf conn) uuid now).1.deviceId = -1

instance (conn uuid : Nat) (now : Int) : Decidable (s.Rejects conn uuid now) :=
  inferInstanceAs (Decidable (_ = _))

/-- What the breaker promises about a step. -/
structure Obeys (e : Event) : Prop where
  /-- A device comes into quarantine after as many closures as the threshold, in one window. -/
  earned : ∀ deviceId, s.devices.isDeviceQuarantined deviceId = false →
    (s.next e).devices.isDeviceQuarantined deviceId = true →
    ∃ since, s.config.failureThreshold ≤ (s.next e).closuresWithin deviceId since
  /-- The registrations of a device in quarantine are rejected. -/
  rejects : ∀ conn uuid now deviceId, e = .handleRegisterResponse conn uuid now →
    s.devices.isDeviceQuarantined deviceId = true →
    now - s.began deviceId < seconds s.config.quarantineSeconds →
    s.Names deviceId conn uuid → s.Rejects conn uuid now
  /-- A rejected registration stores nothing. -/
  stores : ∀ conn uuid now, e = .handleRegisterResponse conn uuid now → s.Rejects conn uuid now →
    (s.next e).devices.deviceConn = s.devices.deviceConn ∧
      (s.next e).measurementSessions = s.measurementSessions
  /-- Nothing is sent on a connection whose registration was rejected. -/
  sends : ∀ i conn, e = .sendInLoop i → s.queued[i]? = some conn → s.isOpen conn = true →
    s.attempts.lookup conn ≠ some false

/-- The clock does not go back. -/
def Timely : Event → Prop
  | .handleRegisterResponse _ _ now => s.clock ≤ now
  | .connectionClosedCb _ now again => s.clock ≤ now ∧ now ≤ again
  | _ => True

/-- A device whose connection is closed is two failures away from the threshold, if the threshold is
not one. -/
def Spared (conn : Nat) (now : Int) : Prop :=
  s.config.failureThreshold = 1 ∨
    2 < s.config.failureThreshold ∧
      ∀ deviceId device, s.devices.addrToDeviceId (s.addrOf conn) = some deviceId →
        s.devices.devicesMap.lookup deviceId = some device →
        device.failureCount + 2 < s.config.failureThreshold ∨
          s.config.windowSeconds < elapsedSeconds now device.firstFailureTime

/-- The steps for which the breaker keeps its promises. -/
def Sound : Event → Prop
  | .handleRegisterResponse conn uuid now =>
    -- A rejected registration is the first of its connection, and nothing is to be measured.
    (s.Rejects conn uuid now → s.measurementEnabled = false ∧ (conn, true) ∉ s.attempts) ∧
    -- From the address of a device in quarantine, the UUID is not that of another device.
    ∀ deviceId device other device', s.devices.addrToDeviceId (s.addrOf conn) = some deviceId →
      s.devices.devicesMap.lookup deviceId = some device → device.Rejected s.config now →
      s.devices.findByUuid uuid = some (other, device') → device'.Rejected s.config now
  | .connectionClosedCb conn now _ => s.Spared conn now
  | _ => True

/-! ## Registrations -/

open DevicePartitionTracker

/-- The ids of a tracker are not negative. -/
structure NatIds (t : DevicePartitionTracker) : Prop where
  devices : ∀ d, d ∈ t.devicesMap → 0 ≤ d
  addrs : ∀ addr d, t.addrToDeviceId addr = some d → 0 ≤ d
  fresh : 0 ≤ t.nextDeviceId

/-- What an accepted registration of device `d` does to the tracker. -/
structure Accepted (t t' : DevicePartitionTracker) (d : Int) : Prop where
  id : 0 ≤ d
  conns : t'.deviceConn = t.deviceConn
  config : t'.circuitBreakerConfig = t.circuitBreakerConfig
  fresh : t.nextDeviceId ≤ t'.nextDeviceId
  addrs : ∀ addr d', t'.addrToDeviceId addr = some d' → t.addrToDeviceId addr = some d' ∨ d' = d
  devices : t'.devicesMap = t.devicesMap ∨
    ∃ device, device.quarantined = false ∧ t'.devicesMap = t.devicesMap.insert d device

theorem release_quarantined (device : DeviceLiveness) : device.release.quarantined = false := by
  unfold release
  split
  · rfl
  · exact Bool.eq_false_iff.mpr ‹_›

variable {t t' : DevicePartitionTracker} {addr : String} {uuid : Nat} {now d d' : Int}
  {device : DeviceLiveness}

theorem accepted_reconnectByUuid (hd : 0 ≤ d) :
    Accepted t (t.reconnectByUuid d device addr uuid) d where
  id := hd
  conns := rfl
  config := rfl
  fresh := Int.le_refl _
  addrs := by
    intro addr' d' h
    simp only [reconnectByUuid, update_apply] at h
    split at h
    · exact .inr (Option.some.inj h).symm
    · split at h
      · rw [update_apply] at h
        split at h
        · cases h
        · exact .inl h
      · exact .inl h
  devices := by
    refine .inr ⟨_, ?_, rfl⟩
    exact release_quarantined device

theorem accepted_reconnectByAddr (hd : 0 ≤ d) :
    Accepted t (t.reconnectByAddr d device addr uuid) d := by
  unfold reconnectByAddr
  dsimp only
  split
  all_goals
    refine ⟨hd, rfl, rfl, Int.le_refl _, fun _ _ h => .inl h, .inr ⟨_, ?_, rfl⟩⟩
    exact release_quarantined device

theorem accepted_registerNew (hd : 0 ≤ t.nextDeviceId) :
    Accepted t (t.registerNew addr uuid) t.nextDeviceId where
  id := hd
  conns := rfl
  config := rfl
  fresh := by simp [registerNew]
  addrs := by
    intro addr' d' h
    simp only [registerNew, update_apply] at h
    split at h
    · exact .inr (Option.some.inj h).symm
    · exact .inl h
  devices := .inr ⟨_, rfl, rfl⟩

/-- A registration is rejected and changes nothing, or it is accepted. -/
theorem registerDevice_spec (h : NatIds t) (addr : String) (uuid : Nat) (now : Int) :
    t.registerDevice addr uuid now = (⟨-1, false⟩, t) ∨
      Accepted t (t.registerDevice addr uuid now).2
        (t.registerDevice addr uuid now).1.deviceId := by
  have hpos {d device} (hl : t.devicesMap.lookup d = some device) : 0 ≤ d :=
    h.devices d (AList.lookup_isSome.mp (by simp [hl]))
  cases hf : t.findByUuid uuid with
  | some e =>
    obtain ⟨d, device⟩ := e
    by_cases hr : device.Rejected t.circuitBreakerConfig now
    · exact .inl (registerDevice_uuid_rejected hf hr)
    · rw [registerDevice_uuid hf hr]
      exact .inr (accepted_reconnectByUuid (hpos (findByUuid_some.mp hf).2.2))
  | none =>
    cases ha : t.addrToDeviceId addr with
    | none =>
      rw [registerDevice_new hf ha]
      exact .inr (accepted_registerNew h.fresh)
    | some d =>
      cases hl : t.devicesMap.lookup d with
      | none =>
        rw [registerDevice_gone hf ha hl]
        exact .inr ⟨h.addrs addr d ha, rfl, rfl, Int.le_refl _, fun _ _ h => .inl h, .inl rfl⟩
      | some device =>
        by_cases hr : device.Rejected t.circuitBreakerConfig now
        · exact .inl (registerDevice_addr_rejected hf ha hl hr)
        · rw [registerDevice_addr hf ha hl hr]
          exact .inr (accepted_reconnectByAddr (h.addrs addr d ha))

theorem NatIds.accepted (h : NatIds t) (ha : Accepted t t' d) : NatIds t' where
  devices := by
    intro d' hd'
    rcases ha.devices with heq | ⟨device, -, heq⟩
    · exact h.devices d' (heq ▸ hd')
    · rw [heq, AList.mem_insert] at hd'
      rcases hd' with rfl | hd'
      · exact ha.id
      · exact h.devices d' hd'
  addrs := by
    intro addr d' hd'
    rcases ha.addrs addr d' hd' with hd' | rfl
    · exact h.addrs addr d' hd'
    · exact ha.id
  fresh := Int.le_trans h.fresh ha.fresh

/-- An accepted registration puts no device in quarantine. -/
theorem Accepted.quarantined (ha : Accepted t t' d) (hl : t'.devicesMap.lookup d' = some device)
    (hq : device.quarantined = true) : t.devicesMap.lookup d' = some device := by
  rcases ha.devices with heq | ⟨device', hfree, heq⟩
  · rwa [heq] at hl
  · rw [heq, lookup_insert_eq] at hl
    split at hl
    · cases hl
      rw [hfree] at hq
      cases hq
    · exact hl

/-! ## Closures -/

theorem isDeviceQuarantined_iff : t.isDeviceQuarantined d = true ↔
    ∃ device, t.devicesMap.lookup d = some device ∧ device.quarantined = true := by
  cases h : t.devicesMap.lookup d <;> simp [isDeviceQuarantined, h]

/-- A failure that is counted begins a quarantine, or leaves it as it was. -/
theorem countFailure_quarantine (config : CircuitBreakerConfig) (device : DeviceLiveness)
    (now : Int) :
    let device' := device.countFailure config now
    (device'.quarantined = true ∧ device'.quarantinedAt = now) ∨
      (device'.quarantined = device.quarantined ∧
        device'.quarantinedAt = device.quarantinedAt) := by
  unfold countFailure
  dsimp only
  split
  · split
    · exact .inl ⟨rfl, rfl⟩
    · exact .inr ⟨rfl, rfl⟩
  · exact .inr ⟨rfl, rfl⟩

theorem lookup_disconnectDevice (t : DevicePartitionTracker) (d now d' : Int) :
    (t.disconnectDevice d now).devicesMap.lookup d' =
      if d' = d then (t.devicesMap.lookup d).map fun device =>
        countFailure t.circuitBreakerConfig { device with isConnected := false } now
      else t.devicesMap.lookup d' := by
  unfold disconnectDevice
  split
  · rename_i hl
    split
    · subst d'
      simp [hl]
    · rfl
  · rename_i device hl
    simp only [lookup_insert_eq, hl, Option.map_some]

theorem disconnectDevice_fields (t : DevicePartitionTracker) (d now : Int) :
    (t.disconnectDevice d now).circuitBreakerConfig = t.circuitBreakerConfig ∧
      (t.disconnectDevice d now).addrToDeviceId = t.addrToDeviceId ∧
      (t.disconnectDevice d now).nextDeviceId = t.nextDeviceId ∧
      (∀ d' conn, (t.disconnectDevice d now).deviceConn d' = some conn →
        t.deviceConn d' = some conn) ∧
      ∀ d', d' ∈ (t.disconnectDevice d now).devicesMap → d' ∈ t.devicesMap := by
  unfold disconnectDevice
  split
  · exact ⟨rfl, rfl, rfl, fun _ _ h => h, fun _ h => h⟩
  · rename_i device hl
    refine ⟨rfl, rfl, rfl, fun d' conn h => ?_, fun d' h => ?_⟩
    · dsimp only at h
      rw [update_apply] at h
      split at h
      · cases h
      · exact h
    · rcases (AList.mem_insert _).mp h with rfl | h
      · exact AList.lookup_isSome.mp (by simp [hl])
      · exact h

/-- What `SetCircuitBreakerConfig` makes of a configuration that enables the breaker. -/
structure Enabled (config : CircuitBreakerConfig) : Prop where
  enabled : config.enabled = true
  window : 0 ≤ config.windowSeconds
  quarantine : 0 < config.quarantineSeconds

/-- What every run keeps. -/
structure Inv (s : DeviceSvr) : Prop where
  ids : NatIds s.devices
  breaker : Enabled s.config
  began : ∀ d device, s.devices.devicesMap.lookup d = some device → device.quarantined = true →
    s.began d ≤ device.quarantinedAt ∧ s.began d ≤ s.clock
  /-- A connection that is stored, or about to be used, was accepted. -/
  stored : ∀ d conn, s.devices.deviceConn d = some conn → (conn, true) ∈ s.attempts
  queued : ∀ conn ∈ s.queued, (conn, true) ∈ s.attempts
  rejected : ∀ conn, s.attempts.lookup conn = some false → (conn, true) ∉ s.attempts

variable {s} {conn : Nat} {config : CircuitBreakerConfig} {again : Int} {e : Event}

theorem config_unregisterDevice (d now : Int) : (s.unregisterDevice d now).config = s.config :=
  (disconnectDevice_fields s.devices d now).1

/-- A quarantine that has begun does not begin again. -/
theorem began_of_quarantined (h : s.devices.isDeviceQuarantined d' = true) (d now : Int) :
    (s.unregisterDevice d now).began d' = s.began d' := by
  simp only [unregisterDevice]
  split
  · rename_i hbegins
    refine update_of_ne ?_ ..
    rintro rfl
    simp [h] at hbegins
  · rfl

theorem began_of_begins (h : s.devices.isDeviceQuarantined d = false)
    (h' : (s.unregisterDevice d now).devices.isDeviceQuarantined d = true) :
    (s.unregisterDevice d now).began d = now := by
  simp only [unregisterDevice] at h' ⊢
  simp [h, h']

theorem Inv.unregisterDevice (h : s.Inv) (d : Int) (hnow : s.clock ≤ now) :
    (s.unregisterDevice d now).Inv := by
  obtain ⟨-, haddrs, hnext, hconns, hdevices⟩ := disconnectDevice_fields s.devices d now
  refine
    { ids := ⟨fun d' hd' => h.ids.devices d' (hdevices d' hd'), fun addr d' hd' => ?_, ?_⟩
      breaker := config_unregisterDevice (s := s) d now ▸ h.breaker
      began := fun d' device
        (hl : (s.devices.disconnectDevice d now).devicesMap.lookup d' = _) hq => ?_
      stored := fun d' conn hc => h.stored d' conn (hconns d' conn hc)
      queued := h.queued
      rejected := h.rejected }
  · exact h.ids.addrs addr d' (haddrs ▸ hd')
  · exact hnext.symm ▸ h.ids.fresh
  · have hclock : (s.unregisterDevice d now).clock = now := rfl
    by_cases hd : d' = d
    · subst hd
      have hdevice := hl
      rw [lookup_disconnectDevice, if_pos rfl, Option.map_eq_some_iff] at hdevice
      obtain ⟨old, hold, rfl⟩ := hdevice
      have hcount := countFailure_quarantine s.devices.circuitBreakerConfig
        { old with isConnected := false } now
      by_cases hbefore : old.quarantined = true
      · -- A closure during the quarantine makes it last longer.
        have hbegan := h.began d' old hold hbefore
        rw [began_of_quarantined (isDeviceQuarantined_iff.mpr ⟨old, hold, hbefore⟩), hclock]
        refine ⟨?_, by omega⟩
        rcases hcount with ⟨-, hat⟩ | ⟨-, hat⟩ <;> rw [hat]
        · omega
        · exact hbegan.1
      · have hfree : s.devices.isDeviceQuarantined d' = false := by
          simp [isDeviceQuarantined, hold, hbefore]
        rw [began_of_begins hfree (isDeviceQuarantined_iff.mpr ⟨_, hl, hq⟩), hclock]
        rcases hcount with ⟨-, hat⟩ | ⟨hsame, -⟩
        · exact ⟨hat.ge, Int.le_refl _⟩
        · rw [hsame] at hq
          exact absurd hq hbefore
    · rw [lookup_disconnectDevice, if_neg hd] at hl
      have hbegan := h.began d' device hl hq
      rw [began_of_quarantined (isDeviceQuarantined_iff.mpr ⟨device, hl, hq⟩), hclock]
      exact ⟨hbegan.1, by omega⟩

/-- The closure of a connection, where its address leads to device `d`. -/
theorem connectionClosedCb_eq (conn : Nat) (now again : Int) :
    s.connectionClosedCb conn now again =
      let d := s.devices.getDeviceIdByAddr (s.addrOf conn)
      let s₁ := { s with conns := s.conns.modify conn fun c => { c with closed := true } }
      if d ≠ -1 then
        ({ s₁ with
          measurementSessions := update s.measurementSessions d none
          devices := s.devices.removeDeviceConnection d
          closures := (d, now) :: s.closures }.unregisterDevice d now).unregisterDevice d again
      else s₁ := by
  have haddr (d : Int) : ((s.devices.removeDeviceConnection d).disconnectDevice d
      now).addrToDeviceId = s.devices.addrToDeviceId := (disconnectDevice_fields _ d now).2.1
  simp only [connectionClosedCb, handleConnectionClosed]
  by_cases hd : s.devices.getDeviceIdByAddr (s.addrOf conn) = -1
  · simp [hd]
  · have hagain (d : Int) : ((s.devices.removeDeviceConnection d).disconnectDevice d
        now).getDeviceIdByAddr (s.addrOf conn) = s.devices.getDeviceIdByAddr (s.addrOf conn) := by
      rw [getDeviceIdByAddr, haddr, getDeviceIdByAddr]
    simp [hd, unregisterDevice, DevicePartitionTracker.unregisterDevice, hagain]

theorem Inv.connectionClosedCb (h : s.Inv) (conn : Nat) (hnow : s.clock ≤ now)
    (hagain : now ≤ again) : (s.connectionClosedCb conn now again).Inv := by
  rw [connectionClosedCb_eq]
  dsimp only
  split
  · refine Inv.unregisterDevice (Inv.unregisterDevice ?_ _ ?_) _ ?_
    · refine { h with ids := ⟨h.ids.devices, h.ids.addrs, h.ids.fresh⟩, stored := fun d c hc => ?_ }
      refine h.stored d c ?_
      simp only [removeDeviceConnection, update_apply] at hc
      split at hc
      · cases hc
      · exact hc
    · exact hnow
    · exact hagain
  · exact { h with }

/-! ## The threshold -/

theorem failureCount_recordFailure_le (config : CircuitBreakerConfig) (device : DeviceLiveness)
    (now : Int) : (device.recordFailure config now).failureCount ≤ device.failureCount + 1 := by
  unfold recordFailure
  dsimp only
  generalize elapsedSeconds now _ = elapsed
  split <;> omega

/-- A failure after the window is the first of a new one. -/
theorem failureCount_recordFailure_eq
    (h : config.windowSeconds < elapsedSeconds now device.firstFailureTime) :
    (device.recordFailure config now).failureCount = 1 := by
  unfold recordFailure
  by_cases hzero : device.failureCount = 0
  · simp [hzero]
  · simp [hzero, Int.not_le.mpr h]

/-- Below the threshold, a failure is counted and nothing else. -/
theorem countFailure_of_lt (device : DeviceLiveness) (henabled : config.enabled = true)
    (h : (device.recordFailure config now).failureCount < config.failureThreshold) :
    device.countFailure config now = device.recordFailure config now := by
  unfold countFailure
  rw [if_pos henabled]
  exact if_neg (Int.not_le.mpr h)

/-- A closure does not put a device in quarantine that is two failures away from it. -/
theorem countFailure_twice (device : DeviceLiveness) (henabled : config.enabled = true)
    (hthreshold : 2 < config.failureThreshold)
    (h : device.failureCount + 2 < config.failureThreshold ∨
      config.windowSeconds < elapsedSeconds now device.firstFailureTime) (again : Int) :
    let device' := device.countFailure config now
    quarantined (countFailure config
      { device' with isConnected := false } again) = device.quarantined := by
  have hfirst : ((device.recordFailure config now).failureCount : Int) + 1 <
      config.failureThreshold := by
    rcases h with h | h
    · have := failureCount_recordFailure_le config device now
      omega
    · rw [failureCount_recordFailure_eq h]
      omega
  dsimp only
  rw [countFailure_of_lt device henabled (by omega), countFailure_of_lt _ henabled ?_]
  · rfl
  · have := failureCount_recordFailure_le config
      { device.recordFailure config now with isConnected := false } again
    dsimp only at this
    omega

theorem isDeviceQuarantined_disconnectDevice_ne (h : d' ≠ d) :
    (t.disconnectDevice d now).isDeviceQuarantined d' = t.isDeviceQuarantined d' := by
  rw [isDeviceQuarantined, lookup_disconnectDevice, if_neg h, isDeviceQuarantined]

theorem isDeviceQuarantined_disconnectDevice_twice
    (henabled : t.circuitBreakerConfig.enabled = true)
    (hthreshold : 2 < t.circuitBreakerConfig.failureThreshold)
    (h : ∀ device, t.devicesMap.lookup d = some device →
      device.failureCount + 2 < t.circuitBreakerConfig.failureThreshold ∨
        t.circuitBreakerConfig.windowSeconds < elapsedSeconds now device.firstFailureTime)
    (again : Int) :
    ((t.disconnectDevice d now).disconnectDevice d again).isDeviceQuarantined d =
      t.isDeviceQuarantined d := by
  rw [isDeviceQuarantined, lookup_disconnectDevice, if_pos rfl, lookup_disconnectDevice, if_pos rfl,
    (disconnectDevice_fields t d now).1, isDeviceQuarantined]
  cases hl : t.devicesMap.lookup d with
  | none => rfl
  | some device =>
    exact countFailure_twice { device with isConnected := false } henabled hthreshold (h device hl)
      again

theorem closuresWithin_le (deviceId since : Int) :
    s.closuresWithin deviceId since ≤ s.closures.length := countP_le_length

theorem closuresWithin_pos (hwindow : 0 ≤ s.config.windowSeconds) (h : (d, now) ∈ s.closures) :
    0 < s.closuresWithin d now := by
  refine countP_pos_iff.mpr ⟨(d, now), h, ?_⟩
  simp only [seconds, decide_eq_true_eq, true_and, Int.le_refl]
  omega

/-- A closure of a device that puts it in quarantine: one is enough, or this one is too early. -/
theorem earned_connectionClosedCb (h : s.Inv) (hspared : s.Spared conn now)
    (hbefore : s.devices.isDeviceQuarantined d = false)
    (hafter : (s.connectionClosedCb conn now again).devices.isDeviceQuarantined d = true) :
    ∃ since, s.config.failureThreshold ≤
      (s.connectionClosedCb conn now again).closuresWithin d since := by
  rw [connectionClosedCb_eq] at hafter ⊢
  dsimp only at hafter ⊢
  have hnot := Bool.eq_false_iff.mp hbefore
  by_cases hd : s.devices.getDeviceIdByAddr (s.addrOf conn) = -1
  · rw [if_neg (not_not.mpr hd)] at hafter
    exact absurd hafter hnot
  rw [if_pos hd] at hafter ⊢
  have haddr : s.devices.addrToDeviceId (s.addrOf conn) =
      some (s.devices.getDeviceIdByAddr (s.addrOf conn)) := by
    unfold getDeviceIdByAddr at hd ⊢
    cases ha : s.devices.addrToDeviceId (s.addrOf conn) <;> simp_all
  generalize s.devices.getDeviceIdByAddr (s.addrOf conn) = d₀ at hd haddr hafter ⊢
  simp only [unregisterDevice, DevicePartitionTracker.unregisterDevice] at hafter
  by_cases hne : d = d₀
  · subst hne
    rcases hspared with hone | ⟨hthreshold, hspared⟩
    · refine ⟨now, ?_⟩
      rw [hone]
      refine Int.ofNat_le.mpr (closuresWithin_pos ?_ mem_cons_self)
      rw [config_unregisterDevice, config_unregisterDevice]
      exact h.breaker.window
    · rw [isDeviceQuarantined_disconnectDevice_twice
        (t := s.devices.removeDeviceConnection d) h.breaker.enabled hthreshold
        (fun device hl => hspared d device haddr hl)] at hafter
      exact absurd hafter hnot
  · rw [isDeviceQuarantined_disconnectDevice_ne hne, isDeviceQuarantined_disconnectDevice_ne hne]
      at hafter
    exact absurd hafter hnot

/-! ## Rejections -/

/-- The seconds of the tracker are rounded down, which takes nothing from a quarantine. -/
theorem elapsedSeconds_lt {since q : Int} (hq : 0 < q) (h : now - since < seconds q) :
    elapsedSeconds now since < q := by
  unfold elapsedSeconds seconds at *
  rcases Int.le_total 0 (now - since) with hpos | hneg
  · rw [Int.tdiv_eq_ediv_of_nonneg hpos]
    omega
  · have hle := Int.tdiv_le_tdiv (c := 1000000000) (by decide) hneg
    rw [Int.zero_tdiv] at hle
    omega

/-- A device is rejected during its quarantine. -/
theorem Inv.rejected_of_quarantined (h : s.Inv) (hq : s.devices.isDeviceQuarantined d = true)
    (hnow : now - s.began d < seconds s.config.quarantineSeconds) :
    ∃ device, s.devices.devicesMap.lookup d = some device ∧ device.Rejected s.config now := by
  obtain ⟨device, hl, hdevice⟩ := isDeviceQuarantined_iff.mp hq
  have hbegan := (h.began d device hl hdevice).1
  exact ⟨device, hl, hdevice, elapsedSeconds_lt h.breaker.quarantine (by omega)⟩

theorem rejects_of_named (h : s.Inv) (hsound : s.Sound (.handleRegisterResponse conn uuid now))
    (hq : s.devices.isDeviceQuarantined d = true)
    (hnow : now - s.began d < seconds s.config.quarantineSeconds) (hnames : s.Names d conn uuid) :
    s.Rejects conn uuid now := by
  obtain ⟨device, hl, hr⟩ := h.rejected_of_quarantined hq hnow
  unfold Rejects
  rcases hnames with ⟨hne, huuid⟩ | haddr
  · rw [registerDevice_uuid_rejected (findByUuid_some.mpr ⟨hne, huuid, hl⟩) hr]
  · cases hf : s.devices.findByUuid uuid with
    | none => rw [registerDevice_addr_rejected hf haddr hl hr]
    | some e => rw [registerDevice_uuid_rejected hf (hsound.2 d device e.1 e.2 haddr hl hr hf)]

/-- A registration that is rejected leaves the tracker alone. -/
theorem registerDevice_of_rejects (h : s.Inv) (hr : s.Rejects conn uuid now) :
    s.devices.registerDevice (s.addrOf conn) uuid now = (⟨-1, false⟩, s.devices) := by
  rcases registerDevice_spec h.ids (s.addrOf conn) uuid now with heq | hacc
  · exact heq
  · have hid := hacc.id
    rw [hr] at hid
    cases hid

/-- No device has the id `-1`. -/
theorem setDeviceConnection_neg (h : s.Inv) (conn : Nat) :
    s.devices.setDeviceConnection (-1) conn = s.devices := by
  unfold setDeviceConnection
  split
  · rfl
  · rename_i device hl
    have := h.ids.devices (-1) (AList.lookup_isSome.mp (by simp [hl]))
    omega

theorem handleRegisterResponse_of_rejects (h : s.Inv) (hr : s.Rejects conn uuid now)
    (hmeasure : s.measurementEnabled = false) :
    s.handleRegisterResponse conn uuid now =
      { s with clock := now, attempts := (conn, false) :: s.attempts } := by
  simp [handleRegisterResponse, registerDevice_of_rejects h hr, setDeviceConnection_neg h, hmeasure]

theorem setDeviceConnection_fields (t : DevicePartitionTracker) (d : Int) (conn : Nat) :
    (t.setDeviceConnection d conn).devicesMap = t.devicesMap ∧
      (t.setDeviceConnection d conn).addrToDeviceId = t.addrToDeviceId ∧
      (t.setDeviceConnection d conn).nextDeviceId = t.nextDeviceId ∧
      (t.setDeviceConnection d conn).circuitBreakerConfig = t.circuitBreakerConfig ∧
      ∀ d' conn', (t.setDeviceConnection d conn).deviceConn d' = some conn' →
        conn' = conn ∨ t.deviceConn d' = some conn' := by
  unfold setDeviceConnection
  split
  · exact ⟨rfl, rfl, rfl, rfl, fun _ _ h => .inr h⟩
  · refine ⟨rfl, rfl, rfl, rfl, fun d' conn' h => ?_⟩
    dsimp only at h
    rw [update_apply] at h
    split at h
    · exact .inl (Option.some.inj h).symm
    · exact .inr h

theorem Inv.handleRegisterResponse (h : s.Inv) (hnow : s.clock ≤ now)
    (hsound : s.Sound (.handleRegisterResponse conn uuid now)) :
    (s.handleRegisterResponse conn uuid now).Inv := by
  by_cases hr : s.Rejects conn uuid now
  · obtain ⟨hmeasure, hfirst⟩ := hsound.1 hr
    rw [handleRegisterResponse_of_rejects h hr hmeasure]
    refine { h with
      began := fun d device hl hq => ?_
      stored := fun d c hc => mem_cons_of_mem _ (h.stored d c hc)
      queued := fun c hc => mem_cons_of_mem _ (h.queued c hc)
      rejected := fun c hc => ?_ }
    · have := h.began d device hl hq
      exact ⟨this.1, by dsimp only; omega⟩
    · dsimp only at hc ⊢
      by_cases hconn : c = conn
      · subst hconn
        simpa using hfirst
      · rw [List.lookup_cons, beq_false_of_ne hconn] at hc
        simpa using h.rejected c hc
  · have hacc := (registerDevice_spec h.ids (s.addrOf conn) uuid now).resolve_left fun heq =>
      hr (by rw [Rejects, heq])
    have hid : (s.devices.registerDevice (s.addrOf conn) uuid now).1.deviceId ≠ -1 := hr
    simp only [DeviceSvr.handleRegisterResponse, hid, ne_eq, not_false_eq_true, decide_true]
    generalize s.devices.registerDevice (s.addrOf conn) uuid now = r at hacc
    obtain ⟨r, t⟩ := r
    obtain ⟨hdevices, haddrs, hnext, hconfig, hconns⟩ :=
      setDeviceConnection_fields t r.deviceId conn
    have hids := h.ids.accepted hacc
    refine
      { ids := ⟨hdevices ▸ hids.devices, haddrs ▸ hids.addrs, hnext.symm ▸ hids.fresh⟩
        breaker := ?_
        began := fun d device hl hq => ?_
        stored := fun d c hc => ?_
        queued := fun c hc => mem_cons_of_mem _ (h.queued c hc)
        rejected := fun c hc => ?_ }
    · show Enabled (t.setDeviceConnection r.deviceId conn).circuitBreakerConfig
      rw [hconfig, hacc.config]
      exact h.breaker
    · have := h.began d device (hacc.quarantined (hdevices ▸ hl) hq) hq
      exact ⟨this.1, by dsimp only; omega⟩
    · rcases hconns d c hc with rfl | hc
      · exact mem_cons_self
      · exact mem_cons_of_mem _ (h.stored d c (hacc.conns ▸ hc))
    · dsimp only at hc ⊢
      rw [List.lookup_cons] at hc
      split at hc
      · cases hc
      · rename_i hne
        have := h.rejected c hc
        simp_all

/-! ## Steps -/

theorem Inv.step (h : s.Inv) (ht : s.Timely e) (hs : s.Sound e) : (s.next e).Inv := by
  cases e with
  | connectionSuccessCb addr => exact { h with }
  | handleRegisterResponse conn uuid now =>
    simp only [DeviceSvr.next]
    split
    · exact h.handleRegisterResponse ht hs
    · exact h
  | connectionClosedCb conn now again =>
    simp only [DeviceSvr.next]
    split
    · exact h.connectionClosedCb conn ht.1 ht.2
    · exact h
  | measured d => exact { h with }
  | sendIdlePartition d =>
    simp only [DeviceSvr.next]
    split
    · exact h
    · rename_i conn hc
      refine { h with queued := fun c hmem => ?_ }
      rcases mem_append.mp hmem with hmem | hmem
      · exact h.queued c hmem
      · rw [mem_singleton.mp hmem]
        exact h.stored d conn hc
  | sendInLoop i =>
    exact { h with queued := fun c hmem => h.queued c (mem_of_mem_eraseIdx hmem) }

/-- A registration puts no device in quarantine. -/
theorem isDeviceQuarantined_handleRegisterResponse (h : s.Inv)
    (hafter : (s.handleRegisterResponse conn uuid now).devices.isDeviceQuarantined d = true) :
    s.devices.isDeviceQuarantined d = true := by
  obtain ⟨device, hl, hq⟩ := isDeviceQuarantined_iff.mp hafter
  simp only [DeviceSvr.handleRegisterResponse, (setDeviceConnection_fields _ _ conn).1] at hl
  refine isDeviceQuarantined_iff.mpr ⟨device, ?_, hq⟩
  rcases registerDevice_spec h.ids (s.addrOf conn) uuid now with heq | hacc
  · rwa [heq] at hl
  · exact hacc.quarantined hl hq

/-- A step that meets the condition obeys the contract. -/
theorem obeys_of_inv (h : s.Inv) (hs : s.Sound e) : s.Obeys e where
  earned := by
    intro d hbefore hafter
    have hnot := Bool.eq_false_iff.mp hbefore
    cases e with
    | connectionClosedCb conn now again =>
      simp only [DeviceSvr.next] at hafter ⊢
      split at hafter
      · rename_i hopen
        rw [if_pos hopen]
        exact earned_connectionClosedCb h hs hbefore hafter
      · exact absurd hafter hnot
    | handleRegisterResponse conn uuid now =>
      simp only [DeviceSvr.next] at hafter
      split at hafter
      · exact absurd (isDeviceQuarantined_handleRegisterResponse h hafter) hnot
      · exact absurd hafter hnot
    | sendIdlePartition d' =>
      simp only [DeviceSvr.next] at hafter
      split at hafter <;> exact absurd hafter hnot
    | connectionSuccessCb addr | measured d' | sendInLoop i => exact absurd hafter hnot
  rejects := by
    rintro conn uuid now d rfl hq hnow hnames
    exact rejects_of_named h hs hq hnow hnames
  stores := by
    rintro conn uuid now rfl hr
    simp only [DeviceSvr.next]
    split
    · rw [handleRegisterResponse_of_rejects h hr (hs.1 hr).1]
      exact ⟨rfl, rfl⟩
    · exact ⟨rfl, rfl⟩
  sends := by
    rintro i conn rfl hi - hrejected
    exact h.rejected conn hrejected (h.queued conn (mem_of_getElem? hi))

/-! ## Runs -/

theorem inv_start (config : CircuitBreakerConfig) (measurementEnabled : Bool) (clock : Int) :
    (start config measurementEnabled clock).Inv where
  ids := ⟨fun _ h => absurd h (AList.notMem_empty _), fun _ _ h => (by cases h), Int.le_refl 0⟩
  breaker := ⟨rfl, Int.le_trans (by decide) (Int.le_max_left 1 _), Int.le_max_left 1 _⟩
  began := fun _ _ h => by simp [start, setCircuitBreakerConfig] at h
  stored := fun _ _ h => by cases h
  queued := fun _ h => absurd h not_mem_nil
  rejected := fun _ h => by cases h

/-- In a run whose clock does not go back and whose steps all meet the condition, every step obeys
the contract of the breaker. -/
theorem obeys_of_sound (config : CircuitBreakerConfig) (measurementEnabled : Bool) (clock : Int)
    (es : List Event) (htimely : Run.Along next Timely (start config measurementEnabled clock) es)
    (hsound : Run.Along next Sound (start config measurementEnabled clock) es) :
    Run.Along next Obeys (start config measurementEnabled clock) es :=
  Run.Along.of_inv (fun _ _ h he => h.step he.1 he.2) (fun _ _ h he => obeys_of_inv h he.2)
    (htimely.and hsound) (inv_start config measurementEnabled clock)

/-- With a threshold of one, a device is in quarantine after its first closure. -/
theorem firstClosure_obeys : Run.Along next Obeys (start { failureThreshold := 1 } false 0)
    [.connectionSuccessCb "a", .handleRegisterResponse 0 7 0, .connectionClosedCb 0 5 6] :=
  obeys_of_sound { failureThreshold := 1 } false 0 _
    ⟨trivial, Int.le_refl 0, ⟨by decide, by decide⟩, trivial⟩
    ⟨trivial, ⟨fun hr => absurd hr (by decide), fun _ _ _ _ h => (by cases h)⟩, .inl rfl, trivial⟩

/-- One closure, at a threshold of two. -/
def closedOnce : List Event :=
  [.connectionSuccessCb "a", .handleRegisterResponse 0 7 0, .connectionClosedCb 0 0 0]

/-- A device in quarantine comes back, while devices are measured. -/
def cameBack : List Event :=
  closedOnce ++ [.connectionSuccessCb "a", .handleRegisterResponse 1 7 0]

theorem closedOnce_not_obeyed :
    ¬Run.Along next Obeys (start { failureThreshold := 2 } false 0) closedOnce ∧
    ¬Run.Along next Obeys (start { failureThreshold := 1 } true 0) cameBack := by
  refine ⟨fun h => ?_, fun h => ?_⟩
  · obtain ⟨since, hle⟩ := h.2.2.1.earned 0 (by decide) (by decide)
    exact absurd (hle.trans (Int.ofNat_le.mpr (closuresWithin_le _ _))) (by decide)
  · have hsessions := (h.2.2.2.2.1.stores 1 7 0 rfl (by decide)).2
    exact absurd (congrFun hsessions (-1)) (by decide)

end DeviceSvr
end Morphling
