import Mathlib.Data.List.AList

/-!
# The device tracker (`device_tracker.cpp`)

The tracker gives each device an id and finds the device again by its stable UUID or by its address.
`devices_map_` is iterated, so it is an `AList`; the other maps are only looked up and are functions
to `Option`. A device record is reached through `devices_map_` alone (`devices_set_` is written and
never read), so it is a value.

Each operation holds the tracker's mutex from start to end and is one function of the state, with
the clock reading it makes as an argument: nanoseconds of `steady_clock`. `registerDevice` says in
its result whether it calls `NotifyDeviceJoined`; the gate is in `Morphling.Gate.Gate`.

Statistics, the profile other than its UUID, draining and the measurement sessions are left out.
-/

namespace Morphling

open Function

/-- `CircuitBreakerConfig`. -/
structure CircuitBreakerConfig where
  enabled : Bool := false
  failureThreshold : Int := 3
  windowSeconds : Int := 60
  quarantineSeconds : Int := 300
  deriving DecidableEq, Repr

/-- `DeviceLiveness`. -/
structure DeviceLiveness where
  deviceId : Int
  connAddr : String
  isConnected : Bool
  /-- `0` for a device that gave no UUID. -/
  stableUuid : Nat := 0
  failureCount : Nat := 0
  firstFailureTime : Int := 0
  quarantined : Bool := false
  quarantinedAt : Int := 0
  deriving DecidableEq, Repr

/-- `duration_cast<seconds>` of the time from `since` to `now`. -/
def elapsedSeconds (now since : Int) : Int := (now - since).tdiv 1000000000

namespace DeviceLiveness

variable (config : CircuitBreakerConfig) (device : DeviceLiveness) (now : Int)

/-- A registration of the device is rejected: it is still in quarantine. -/
def Rejected : Prop :=
  device.quarantined = true ∧ elapsedSeconds now device.quarantinedAt < config.quarantineSeconds

instance : Decidable (device.Rejected config now) := inferInstanceAs (Decidable (_ ∧ _))

/-- The end of the quarantine at a registration that is not rejected. -/
def release : DeviceLiveness :=
  if device.quarantined then { device with quarantined := false, failureCount := 0 } else device

/-- The failure counter at a disconnect: a failure outside the window of the first one starts a new
window. -/
def recordFailure : DeviceLiveness :=
  let first := if device.failureCount = 0 then now else device.firstFailureTime
  let inWindow := elapsedSeconds now first ≤ config.windowSeconds
  { device with
    failureCount := if inWindow then device.failureCount + 1 else 1
    firstFailureTime := if inWindow then first else now }

/-- The part of `DisconnectDevice` that counts the failure and starts the quarantine. -/
def countFailure : DeviceLiveness :=
  if config.enabled then
    let device := device.recordFailure config now
    if config.failureThreshold ≤ device.failureCount then
      { device with quarantined := true, quarantinedAt := now }
    else device
  else device

end DeviceLiveness

/-- `DevicePartitionTracker`. Connections are numbered. -/
structure DevicePartitionTracker where
  devicesMap : AList (fun _ : Int => DeviceLiveness) := ∅
  nextDeviceId : Int := 0
  addrToDeviceId : String → Option Int := fun _ => none
  deviceIdToAddr : Int → Option String := fun _ => none
  uuidToDeviceId : Nat → Option Int := fun _ => none
  deviceConn : Int → Option Nat := fun _ => none
  circuitBreakerConfig : CircuitBreakerConfig := {}

/-- What `RegisterDevice` returns (`-1` where it rejects the device), and whether it notifies the
gate. -/
structure Registration where
  deviceId : Int
  notifiesGate : Bool
  deriving DecidableEq, Repr

namespace DevicePartitionTracker

variable (t : DevicePartitionTracker)

/-- The device that a registration finds by its UUID. -/
def findByUuid (uuid : Nat) : Option (Int × DeviceLiveness) :=
  if uuid ≠ 0 then
    (t.uuidToDeviceId uuid).bind fun id => (t.devicesMap.lookup id).map fun device => (id, device)
  else none

/-- `RegisterDevice`, the reconnection by UUID. -/
def reconnectByUuid (deviceId : Int) (device : DeviceLiveness) (connAddr : String) (uuid : Nat) :
    DevicePartitionTracker :=
  let oldAddr := device.connAddr
  let addrToDeviceId := if oldAddr ≠ "" ∧ oldAddr ≠ connAddr then
    update t.addrToDeviceId oldAddr none else t.addrToDeviceId
  { t with
    devicesMap := t.devicesMap.insert deviceId { device.release with
      isConnected := true, connAddr := connAddr, stableUuid := uuid }
    uuidToDeviceId := update t.uuidToDeviceId uuid (some deviceId)
    addrToDeviceId := update addrToDeviceId connAddr (some deviceId)
    deviceIdToAddr := update t.deviceIdToAddr deviceId (some connAddr) }

/-- `RegisterDevice`, the reconnection from a known address. -/
def reconnectByAddr (deviceId : Int) (device : DeviceLiveness) (connAddr : String) (uuid : Nat) :
    DevicePartitionTracker :=
  let device := { device.release with isConnected := true, connAddr := connAddr }
  if uuid ≠ 0 then
    { t with
      devicesMap := t.devicesMap.insert deviceId { device with stableUuid := uuid }
      uuidToDeviceId := update t.uuidToDeviceId uuid (some deviceId) }
  else { t with devicesMap := t.devicesMap.insert deviceId device }

/-- `RegisterDevice`, a new device. -/
def registerNew (connAddr : String) (uuid : Nat) : DevicePartitionTracker :=
  let deviceId := t.nextDeviceId
  { t with
    nextDeviceId := t.nextDeviceId + 1
    addrToDeviceId := update t.addrToDeviceId connAddr (some deviceId)
    deviceIdToAddr := update t.deviceIdToAddr deviceId (some connAddr)
    uuidToDeviceId := if uuid ≠ 0 then update t.uuidToDeviceId uuid (some deviceId)
      else t.uuidToDeviceId
    devicesMap := t.devicesMap.insert deviceId
      { deviceId, connAddr, isConnected := true, stableUuid := uuid } }

def registerDevice (connAddr : String) (uuid : Nat) (now : Int) :
    Registration × DevicePartitionTracker :=
  match t.findByUuid uuid with
  | some (deviceId, device) =>
    if device.Rejected t.circuitBreakerConfig now then (⟨-1, false⟩, t)
    else (⟨deviceId, false⟩, t.reconnectByUuid deviceId device connAddr uuid)
  | none =>
    match t.addrToDeviceId connAddr with
    | some deviceId =>
      match t.devicesMap.lookup deviceId with
      | some device =>
        if device.Rejected t.circuitBreakerConfig now then (⟨-1, false⟩, t)
        else (⟨deviceId, true⟩, t.reconnectByAddr deviceId device connAddr uuid)
      | none => (⟨deviceId, true⟩, t)
    | none => (⟨t.nextDeviceId, true⟩, t.registerNew connAddr uuid)

def disconnectDevice (deviceId now : Int) : DevicePartitionTracker :=
  match t.devicesMap.lookup deviceId with
  | none => t
  | some device =>
    { t with
      devicesMap := t.devicesMap.insert deviceId
        (DeviceLiveness.countFailure t.circuitBreakerConfig { device with isConnected := false } now)
      deviceConn := update t.deviceConn deviceId none }

/-- `UnregisterDevice` is the soft disconnect. -/
def unregisterDevice (deviceId now : Int) : DevicePartitionTracker :=
  t.disconnectDevice deviceId now

/-- `PurgeDevice`. A device that it finds leaves the gate too. -/
def purgeDevice (deviceId : Int) : DevicePartitionTracker :=
  match t.devicesMap.lookup deviceId with
  | none => t
  | some device =>
    { t with
      addrToDeviceId := update t.addrToDeviceId device.connAddr none
      deviceIdToAddr := update t.deviceIdToAddr deviceId none
      uuidToDeviceId := if device.stableUuid ≠ 0 then
        update t.uuidToDeviceId device.stableUuid none else t.uuidToDeviceId
      devicesMap := t.devicesMap.erase deviceId }

/-- `SetCircuitBreakerConfig`: the three numbers are at least 1. -/
def setCircuitBreakerConfig (config : CircuitBreakerConfig) : DevicePartitionTracker :=
  { t with
    circuitBreakerConfig := { config with
      failureThreshold := max 1 config.failureThreshold
      windowSeconds := max 1 config.windowSeconds
      quarantineSeconds := max 1 config.quarantineSeconds } }

/-- `Reset` keeps the circuit breaker's configuration. -/
def reset : DevicePartitionTracker := { circuitBreakerConfig := t.circuitBreakerConfig }

/-- `GetDeviceIdByAddr`. -/
def getDeviceIdByAddr (connAddr : String) : Int := (t.addrToDeviceId connAddr).getD (-1)

/-- `IsDeviceConnected`. -/
def isDeviceConnected (deviceId : Int) : Bool := (t.devicesMap.lookup deviceId).any (·.isConnected)

/-- `IsDeviceQuarantined`. -/
def isDeviceQuarantined (deviceId : Int) : Bool :=
  (t.devicesMap.lookup deviceId).any (·.quarantined)

/-- `GetConnectedDevices`. -/
def getConnectedDevices : List Int := (t.devicesMap.entries.filter (·.2.isConnected)).map (·.1)

/-- `SetDeviceConnection`, where a connection that it replaces belongs to another loop and is closed
later. On the same loop `ForceClose` calls the close callback at once, under `mutex_`, which the
callback locks again; that deadlock is not modelled. -/
def setDeviceConnection (deviceId : Int) (conn : Nat) : DevicePartitionTracker :=
  match t.devicesMap.lookup deviceId with
  | none => t
  | some _ => { t with deviceConn := update t.deviceConn deviceId (some conn) }

/-- `GetDeviceConnection`. -/
def getDeviceConnection (deviceId : Int) : Option Nat := t.deviceConn deviceId

/-- `RemoveDeviceConnection`. -/
def removeDeviceConnection (deviceId : Int) : DevicePartitionTracker :=
  { t with deviceConn := update t.deviceConn deviceId none }

/-- `GetConnectedDeviceCount`. -/
def getConnectedDeviceCount : Nat := t.devicesMap.entries.countP (·.2.isConnected)

/-! ## The paths of a registration -/

section Registration
variable {t}
variable {connAddr : String} {uuid : Nat} {now deviceId : Int} {device : DeviceLiveness}

theorem findByUuid_some : t.findByUuid uuid = some (deviceId, device) ↔ uuid ≠ 0 ∧
    t.uuidToDeviceId uuid = some deviceId ∧ t.devicesMap.lookup deviceId = some device := by
  simp only [findByUuid, Option.ite_none_right_eq_some, Option.bind_eq_some_iff,
    Option.map_eq_some_iff, Prod.mk.injEq]
  refine and_congr_right fun _ => ⟨?_, ?_⟩
  · rintro ⟨_, h, _, h', rfl, rfl⟩
    exact ⟨h, h'⟩
  · rintro ⟨h, h'⟩
    exact ⟨deviceId, h, device, h', rfl, rfl⟩

theorem registerDevice_uuid_rejected (hf : t.findByUuid uuid = some (deviceId, device))
    (hr : device.Rejected t.circuitBreakerConfig now) :
    t.registerDevice connAddr uuid now = (⟨-1, false⟩, t) := by
  simp only [registerDevice, hf, hr, if_true]

theorem registerDevice_uuid (hf : t.findByUuid uuid = some (deviceId, device))
    (hr : ¬ device.Rejected t.circuitBreakerConfig now) :
    t.registerDevice connAddr uuid now =
      (⟨deviceId, false⟩, t.reconnectByUuid deviceId device connAddr uuid) := by
  simp only [registerDevice, hf, hr, if_false]

theorem registerDevice_addr_rejected (hf : t.findByUuid uuid = none)
    (ha : t.addrToDeviceId connAddr = some deviceId)
    (hl : t.devicesMap.lookup deviceId = some device)
    (hr : device.Rejected t.circuitBreakerConfig now) :
    t.registerDevice connAddr uuid now = (⟨-1, false⟩, t) := by
  simp only [registerDevice, hf, ha, hl, hr, if_true]

theorem registerDevice_addr (hf : t.findByUuid uuid = none)
    (ha : t.addrToDeviceId connAddr = some deviceId)
    (hl : t.devicesMap.lookup deviceId = some device)
    (hr : ¬ device.Rejected t.circuitBreakerConfig now) :
    t.registerDevice connAddr uuid now =
      (⟨deviceId, true⟩, t.reconnectByAddr deviceId device connAddr uuid) := by
  simp only [registerDevice, hf, ha, hl, hr, if_false]

/-- The address leads to a device that has no record. -/
theorem registerDevice_gone (hf : t.findByUuid uuid = none)
    (ha : t.addrToDeviceId connAddr = some deviceId)
    (hl : t.devicesMap.lookup deviceId = none) :
    t.registerDevice connAddr uuid now = (⟨deviceId, true⟩, t) := by
  simp only [registerDevice, hf, ha, hl]

theorem registerDevice_new (hf : t.findByUuid uuid = none)
    (ha : t.addrToDeviceId connAddr = none) :
    t.registerDevice connAddr uuid now = (⟨t.nextDeviceId, true⟩, t.registerNew connAddr uuid) := by
  simp only [registerDevice, hf, ha]

end Registration

/-! ## Operations as data -/

/-- A call of the tracker that changes the devices. -/
inductive Op where
  | registerDevice (connAddr : String) (uuid : Nat) (now : Int)
  | disconnectDevice (deviceId now : Int)
  | unregisterDevice (deviceId now : Int)
  | purgeDevice (deviceId : Int)
  | setCircuitBreakerConfig (config : CircuitBreakerConfig)
  | reset
  deriving DecidableEq, Repr

/-- The tracker after a call. -/
def apply : Op → DevicePartitionTracker
  | .registerDevice connAddr uuid now => (t.registerDevice connAddr uuid now).2
  | .disconnectDevice deviceId now => t.disconnectDevice deviceId now
  | .unregisterDevice deviceId now => t.unregisterDevice deviceId now
  | .purgeDevice deviceId => t.purgeDevice deviceId
  | .setCircuitBreakerConfig config => t.setCircuitBreakerConfig config
  | .reset => t.reset

end DevicePartitionTracker
end Morphling
