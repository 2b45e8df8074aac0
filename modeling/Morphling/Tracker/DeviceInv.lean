import Morphling.Tracker.Device
import Morphling.Lib.PartialMap
import Morphling.Lib.Assoc
import Morphling.Lib.Run

/-!
# The indexes of the device tracker agree

`IndexConsistent` says that the address maps are inverse to each other and agree with the records,
that every id in an index has a record, and that a device with a UUID is found by it and by no
other UUID. With what the next registrations rely on, it says that the records determine the indexes
(`tidy_iff`), and each call is an insertion, an erasure or a move in a map and its inverse.

Two kinds of registration break it: a reconnection by UUID from an address that another device holds
(or away from the empty address, which is never erased), and a reconnection from a known address
with a new UUID of a device that already has one. `RegisterOk` excludes exactly these
(`registerDevice_consistent_iff`).
-/

namespace Morphling.DevicePartitionTracker

open PartialMap Function

variable {t : DevicePartitionTracker} {d : Int} {dev dev' : DeviceLiveness} {uuid u : Nat}
  {addr : String}

/-- The indexes of the tracker agree. -/
structure IndexConsistent (t : DevicePartitionTracker) : Prop where
  /-- The address maps are inverse to each other. -/
  inverse : ∀ {a d}, t.addrToDeviceId a = some d ↔ t.deviceIdToAddr d = some a
  /-- They agree with the device's record. -/
  conn_addr : ∀ {d dev}, t.devicesMap.lookup d = some dev → t.deviceIdToAddr d = some dev.connAddr
  /-- Every id in an index has a record. -/
  addr_known : ∀ {a d}, t.addrToDeviceId a = some d → ∃ dev, t.devicesMap.lookup d = some dev
  uuid_known : ∀ {u d}, t.uuidToDeviceId u = some d → ∃ dev, t.devicesMap.lookup d = some dev
  /-- A device with a UUID is found by it, and by no other. -/
  uuid_self : ∀ {d dev}, t.devicesMap.lookup d = some dev → dev.stableUuid ≠ 0 →
    t.uuidToDeviceId dev.stableUuid = some d
  uuid_only : ∀ {d dev u}, t.devicesMap.lookup d = some dev → dev.stableUuid ≠ 0 →
    t.uuidToDeviceId u = some d → u = dev.stableUuid

/-- With what the next registrations rely on: a UUID leads to the device that has it, and the next
id is new. -/
structure Tidy (t : DevicePartitionTracker) : Prop extends IndexConsistent t where
  uuid_stable : ∀ {u d}, t.uuidToDeviceId u = some d →
    u ≠ 0 ∧ ∃ dev, t.devicesMap.lookup d = some dev ∧ dev.stableUuid = u
  fresh : ∀ {d dev}, t.devicesMap.lookup d = some dev → d < t.nextDeviceId

theorem lookup_insert_eq (m : AList fun _ : Int => DeviceLiveness) (k d : Int)
    (dev : DeviceLiveness) :
    (m.insert k dev).lookup d = if d = k then some dev else m.lookup d := by
  split
  next e => rw [e, AList.lookup_insert]
  next e => exact AList.lookup_insert_ne e

theorem lookup_erase_eq (m : AList fun _ : Int => DeviceLiveness) (k d : Int) :
    (m.erase k).lookup d = if d = k then none else m.lookup d := by
  split
  next e => rw [e, AList.lookup_erase]
  next e => exact AList.lookup_erase_ne e

/-! ## The indexes are determined by the records -/

def ownAddr (dev : DeviceLiveness) : Option String := some dev.connAddr

def ownUuid (dev : DeviceLiveness) : Option Nat :=
  if dev.stableUuid = 0 then none else some dev.stableUuid

theorem ownUuid_eq_some : ownUuid dev = some u ↔ u ≠ 0 ∧ dev.stableUuid = u := by
  unfold ownUuid
  split
  next hz => simp [hz, eq_comm]
  next hne =>
    rw [Option.some.injEq]
    exact ⟨fun e => ⟨e ▸ hne, e⟩, And.right⟩

/-- One address map lists the addresses of the records, the other one and the UUID map are the
inverses of what the records have. -/
structure Derived (t : DevicePartitionTracker) : Prop where
  ids : t.deviceIdToAddr = view ownAddr t.devicesMap
  addrs : Inverse t.addrToDeviceId (view ownAddr t.devicesMap)
  uuids : Inverse t.uuidToDeviceId (view ownUuid t.devicesMap)
  fresh : ∀ {d dev}, t.devicesMap.lookup d = some dev → d < t.nextDeviceId

theorem view_ownAddr {a : String} :
    view ownAddr t.devicesMap d = some a ↔
      ∃ dev, t.devicesMap.lookup d = some dev ∧ dev.connAddr = a := by
  simp only [view, ownAddr, Option.bind_eq_some_iff, Option.some.injEq]

theorem view_ownUuid :
    view ownUuid t.devicesMap d = some u ↔
      u ≠ 0 ∧ ∃ dev, t.devicesMap.lookup d = some dev ∧ dev.stableUuid = u := by
  simp only [view, Option.bind_eq_some_iff, ownUuid_eq_some]
  constructor
  · rintro ⟨dev, hl, hne, hu⟩
    exact ⟨hne, dev, hl, hu⟩
  · rintro ⟨hne, dev, hl, hu⟩
    exact ⟨dev, hl, hne, hu⟩

theorem Tidy.derived (h : Tidy t) : Derived t := by
  have hids : t.deviceIdToAddr = view ownAddr t.devicesMap := by
    funext d
    cases hl : t.devicesMap.lookup d with
    | some dev => rw [h.conn_addr hl, view_some hl, ownAddr]
    | none =>
      rw [view_none hl]
      refine Option.eq_none_iff_forall_ne_some.mpr fun a ha => ?_
      obtain ⟨dev, hdev⟩ := h.addr_known (h.inverse.mpr ha)
      rw [hl] at hdev
      cases hdev
  refine ⟨hids, fun a d => hids ▸ h.inverse, fun u d => ?_, h.fresh⟩
  rw [view_ownUuid]
  refine ⟨h.uuid_stable, ?_⟩
  rintro ⟨hne, dev, hl, rfl⟩
  exact h.uuid_self hl hne

theorem Derived.tidy (h : Derived t) : Tidy t := by
  have hstable : ∀ {u d}, t.uuidToDeviceId u = some d →
      u ≠ 0 ∧ ∃ dev, t.devicesMap.lookup d = some dev ∧ dev.stableUuid = u :=
    fun hu => view_ownUuid.mp ((h.uuids _ _).mp hu)
  refine ⟨⟨?_, ?_, ?_, ?_, ?_, ?_⟩, hstable, h.fresh⟩
  · intro a d
    rw [h.ids]
    exact h.addrs a d
  · intro d dev hl
    rw [h.ids, view_some hl, ownAddr]
  · intro a d ha
    obtain ⟨dev, hl, -⟩ := view_ownAddr.mp ((h.addrs a d).mp ha)
    exact ⟨dev, hl⟩
  · intro u d hu
    obtain ⟨-, dev, hl, -⟩ := hstable hu
    exact ⟨dev, hl⟩
  · intro d dev hl hne
    exact (h.uuids _ _).mpr (view_ownUuid.mpr ⟨hne, dev, hl, rfl⟩)
  · intro d dev u hl _ hu
    obtain ⟨-, dev', hl', rfl⟩ := hstable hu
    rw [hl] at hl'
    rw [Option.some.inj hl']

theorem tidy_iff : Tidy t ↔ Derived t := ⟨Tidy.derived, Derived.tidy⟩

/-- A UUID that finds no device is not in the index. -/
theorem Tidy.not_mem_uuid (h : Tidy t) (hf : t.findByUuid uuid = none) :
    t.uuidToDeviceId uuid = none := by
  refine Option.eq_none_iff_forall_ne_some.mpr fun d hu => ?_
  obtain ⟨hne, dev, hdev, -⟩ := h.uuid_stable hu
  rw [findByUuid_some.mpr ⟨hne, hu, hdev⟩] at hf
  cases hf

/-- A written record keeps the ids below the next one. -/
theorem Tidy.fresh_insert (h : Tidy t) {next : Int} (hd : d < next) (hle : t.nextDeviceId ≤ next)
    {d' : Int} {e : DeviceLiveness} (hl : (t.devicesMap.insert d dev).lookup d' = some e) :
    d' < next :=
  Assoc.key_of_lookup_insert (P := (· < next)) hd
    (fun hl => Int.lt_of_lt_of_le (h.fresh hl) hle) hl

@[simp] theorem release_stableUuid (dev : DeviceLiveness) :
    dev.release.stableUuid = dev.stableUuid := by
  unfold DeviceLiveness.release
  split <;> rfl

/-! ## Registration -/

/-- A reconnection by UUID that keeps the indexes together: no other device holds the address, and
the old address can be erased. -/
def ReconnectOk (t : DevicePartitionTracker) (deviceId : Int) (device : DeviceLiveness)
    (connAddr : String) : Prop :=
  (∀ d, t.addrToDeviceId connAddr = some d → d = deviceId) ∧
    (device.connAddr = "" → connAddr = "")

theorem Tidy.reconnectByUuid (h : Tidy t) (hf : t.findByUuid uuid = some (d, dev))
    (hok : ReconnectOk t d dev addr) : Tidy (t.reconnectByUuid d dev addr uuid) := by
  obtain ⟨hu, hmap, hdev⟩ := findByUuid_some.mp hf
  obtain ⟨hother, hempty⟩ := hok
  have hd := h.derived
  have hown : view ownUuid t.devicesMap d = some uuid := (hd.uuids _ _).mp hmap
  -- The address map loses the old address of the device and gets the new one.
  have haddr : (t.reconnectByUuid d dev addr uuid).addrToDeviceId =
      Function.update (Function.update t.addrToDeviceId dev.connAddr none) addr (some d) := by
    unfold DevicePartitionTracker.reconnectByUuid
    dsimp only
    split
    · rfl
    next hkeep =>
      have he : dev.connAddr = addr := by
        by_contra hne
        exact hkeep ⟨fun e => hne (e.trans (hempty e).symm), hne⟩
      rw [he, update_idem]
  have hmaps : (t.reconnectByUuid d dev addr uuid).devicesMap = t.devicesMap.insert d
      { dev.release with isConnected := true, connAddr := addr, stableUuid := uuid } := rfl
  have huuid : (t.reconnectByUuid d dev addr uuid).uuidToDeviceId = t.uuidToDeviceId := by
    refine Eq.trans ?_ (update_eq_self uuid _)
    rw [hmap]
    rfl
  refine tidy_iff.mpr ⟨?_, ?_, ?_, h.fresh_insert (h.fresh hdev) (Int.le_refl _)⟩
  · rw [hmaps, view_insert, ← hd.ids]
    rfl
  · rw [haddr, hmaps, view_insert]
    exact hd.addrs.move ((hd.addrs _ _).mpr (view_some hdev)) hother
  · rw [huuid, hmaps, view_insert_same hdev]
    · exact hd.uuids
    · rw [← view_some (p := ownUuid) hdev, hown]
      exact ownUuid_eq_some.mpr ⟨hu, rfl⟩

/-- A record replaced by one with the same address and the same UUID. -/
theorem Tidy.replaced (h : Tidy t) (hdev : t.devicesMap.lookup d = some dev)
    (haddr : dev'.connAddr = dev.connAddr) (huuid : dev'.stableUuid = dev.stableUuid)
    (conns : Int → Option Nat) :
    Tidy { t with devicesMap := t.devicesMap.insert d dev', deviceConn := conns } := by
  have hd := h.derived
  have ha : view ownAddr (t.devicesMap.insert d dev') = view ownAddr t.devicesMap :=
    view_insert_same hdev (congrArg some haddr)
  have hu : view ownUuid (t.devicesMap.insert d dev') = view ownUuid t.devicesMap :=
    view_insert_same hdev (by rw [ownUuid, ownUuid, huuid])
  exact tidy_iff.mpr ⟨hd.ids.trans ha.symm, ha ▸ hd.addrs, hu ▸ hd.uuids,
    h.fresh_insert (h.fresh hdev) (Int.le_refl _)⟩

/-- A record without a UUID replaced by one with the same address and a new UUID. -/
theorem Tidy.named (h : Tidy t) (hdev : t.devicesMap.lookup d = some dev)
    (hzero : dev.stableUuid = 0) (haddr : dev'.connAddr = dev.connAddr) (hne : dev'.stableUuid ≠ 0)
    (hnew : t.uuidToDeviceId dev'.stableUuid = none) :
    Tidy { t with
      devicesMap := t.devicesMap.insert d dev'
      uuidToDeviceId := Function.update t.uuidToDeviceId dev'.stableUuid (some d) } := by
  have hd := h.derived
  have ha : view ownAddr (t.devicesMap.insert d dev') = view ownAddr t.devicesMap :=
    view_insert_same hdev (congrArg some haddr)
  have hnone : view ownUuid t.devicesMap d = none := by
    rw [view_some hdev, ownUuid, if_pos hzero]
  refine tidy_iff.mpr ⟨hd.ids.trans ha.symm, ha ▸ hd.addrs, ?_,
    h.fresh_insert (h.fresh hdev) (Int.le_refl _)⟩
  have := hd.uuids.insert hnew hnone
  rwa [← ownUuid_eq_some.mpr ⟨hne, rfl⟩, ← view_insert] at this

theorem Tidy.reconnectByAddr (h : Tidy t) (ha : t.addrToDeviceId addr = some d)
    (hdev : t.devicesMap.lookup d = some dev) (hf : t.findByUuid uuid = none)
    (hok : uuid = 0 ∨ dev.stableUuid = 0) : Tidy (t.reconnectByAddr d dev addr uuid) := by
  have hconn : dev.connAddr = addr :=
    Option.some.inj ((h.conn_addr hdev).symm.trans (h.inverse.mp ha))
  unfold DevicePartitionTracker.reconnectByAddr
  split
  next hu => exact h.named hdev (hok.resolve_left hu) hconn.symm hu (h.not_mem_uuid hf)
  next =>
    refine h.replaced hdev hconn.symm ?_ t.deviceConn
    exact release_stableUuid dev

theorem Tidy.registerNew (h : Tidy t) (ha : t.addrToDeviceId addr = none)
    (hu : t.uuidToDeviceId uuid = none) : Tidy (t.registerNew addr uuid) := by
  have hd := h.derived
  have hnew : t.devicesMap.lookup t.nextDeviceId = none :=
    Option.eq_none_iff_forall_ne_some.mpr fun dev hl => Int.lt_irrefl _ (h.fresh hl)
  have hmaps : (t.registerNew addr uuid).devicesMap = t.devicesMap.insert t.nextDeviceId
      ⟨t.nextDeviceId, addr, true, uuid, 0, 0, false, 0⟩ := rfl
  refine tidy_iff.mpr ⟨?_, ?_, ?_, h.fresh_insert (Int.lt_succ _) (Int.le_add_one (Int.le_refl _))⟩
  · rw [hmaps, view_insert, ← hd.ids]
    rfl
  · rw [hmaps, view_insert]
    exact hd.addrs.insert ha (view_none hnew)
  · rw [hmaps, view_insert]
    unfold DevicePartitionTracker.registerNew
    dsimp only
    split
    next hne =>
      rw [ownUuid_eq_some.mpr ⟨hne, rfl⟩]
      exact hd.uuids.insert hu (view_none hnew)
    next hz =>
      rw [ownUuid, if_pos (not_not.mp hz), ← view_none (p := ownUuid) hnew,
        update_eq_self]
      exact hd.uuids

/-- The registrations that keep the indexes together: a reconnection by UUID that meets
`ReconnectOk`, a reconnection from a known address that does not replace a UUID, a new device, and
one that is rejected. -/
def RegisterOk (t : DevicePartitionTracker) (connAddr : String) (uuid : Nat) (now : Int) : Prop :=
  match t.findByUuid uuid with
  | some (deviceId, device) =>
    device.Rejected t.circuitBreakerConfig now ∨ ReconnectOk t deviceId device connAddr
  | none => ∀ deviceId device, t.addrToDeviceId connAddr = some deviceId →
    t.devicesMap.lookup deviceId = some device →
      device.Rejected t.circuitBreakerConfig now ∨ uuid = 0 ∨ device.stableUuid = 0

theorem Tidy.registerDevice (h : Tidy t) {now : Int} (hok : RegisterOk t addr uuid now) :
    Tidy (t.registerDevice addr uuid now).2 := by
  unfold RegisterOk at hok
  cases hf : t.findByUuid uuid with
  | some e =>
    obtain ⟨d, dev⟩ := e
    simp only [hf] at hok
    by_cases hr : dev.Rejected t.circuitBreakerConfig now
    · rw [registerDevice_uuid_rejected hf hr]
      exact h
    · rw [registerDevice_uuid hf hr]
      exact h.reconnectByUuid hf (hok.resolve_left hr)
  | none =>
    simp only [hf] at hok
    cases ha : t.addrToDeviceId addr with
    | none =>
      rw [registerDevice_new hf ha]
      exact h.registerNew ha (h.not_mem_uuid hf)
    | some d =>
      cases hl : t.devicesMap.lookup d with
      | none =>
        rw [registerDevice_gone hf ha hl]
        exact h
      | some dev =>
        by_cases hr : dev.Rejected t.circuitBreakerConfig now
        · rw [registerDevice_addr_rejected hf ha hl hr]
          exact h
        · rw [registerDevice_addr hf ha hl hr]
          exact h.reconnectByAddr ha hl hf ((hok d dev ha hl).resolve_left hr)

/-- **The exact condition of a registration.** -/
theorem registerDevice_consistent_iff (h : Tidy t) (addr : String) (uuid : Nat) (now : Int) :
    IndexConsistent (t.registerDevice addr uuid now).2 ↔ RegisterOk t addr uuid now := by
  refine ⟨fun hc => ?_, fun hok => (h.registerDevice hok).toIndexConsistent⟩
  unfold RegisterOk
  cases hf : t.findByUuid uuid with
  | some e =>
    obtain ⟨d, dev⟩ := e
    obtain ⟨-, hmap, hdev⟩ := findByUuid_some.mp hf
    refine or_iff_not_imp_left.mpr fun hr => ?_
    rw [registerDevice_uuid hf hr] at hc
    have hid : ∀ d', (t.reconnectByUuid d dev addr uuid).deviceIdToAddr d' =
        if d' = d then some addr else t.deviceIdToAddr d' := fun d' => update_apply ..
    refine ⟨fun d' ha => ?_, fun hold => ?_⟩
    · -- The other device still has the address in the reverse map.
      by_contra hne
      have h₁ := hc.inverse.mpr ((hid d').trans ((if_neg hne).trans (h.inverse.mp ha)))
      have h₂ : (t.reconnectByUuid d dev addr uuid).addrToDeviceId addr = some d :=
        update_self ..
      exact hne (Option.some.inj (h₁.symm.trans h₂))
    · by_contra hne
      have h₀ : t.addrToDeviceId "" = some d := h.inverse.mpr (hold ▸ h.conn_addr hdev)
      have h₁ : (t.reconnectByUuid d dev addr uuid).addrToDeviceId "" = some d := by
        simp only [DevicePartitionTracker.reconnectByUuid, update_apply, hold]
        simpa [Ne.symm hne] using h₀
      have h₂ := hc.inverse.mp h₁
      rw [hid, if_pos rfl] at h₂
      exact hne (Option.some.inj h₂)
  | none =>
    intro d dev ha hl
    refine or_iff_not_imp_left.mpr fun hr => ?_
    rw [registerDevice_addr hf ha hl hr] at hc
    by_contra hno
    obtain ⟨hu, hst⟩ := not_or.mp hno
    have hself := h.uuid_self hl hst
    have hne : dev.stableUuid ≠ uuid := by
      rintro rfl
      rw [h.not_mem_uuid hf] at hself
      cases hself
    simp only [DevicePartitionTracker.reconnectByAddr, hu, ne_eq, not_false_eq_true, if_true] at hc
    refine hne (hc.uuid_only (AList.lookup_insert _) hu ?_)
    exact (update_of_ne hne ..).trans hself

/-! ## Whole runs -/

/-- Counting a failure leaves the connection state, the address and the UUID. -/
theorem countFailure_fields (config : CircuitBreakerConfig) (dev : DeviceLiveness) (now : Int) :
    (dev.countFailure config now).isConnected = dev.isConnected ∧
      (dev.countFailure config now).connAddr = dev.connAddr ∧
      (dev.countFailure config now).stableUuid = dev.stableUuid := by
  unfold DeviceLiveness.countFailure
  split
  · dsimp only
    split <;> exact ⟨rfl, rfl, rfl⟩
  · exact ⟨rfl, rfl, rfl⟩

theorem Tidy.disconnectDevice (h : Tidy t) (d now : Int) : Tidy (t.disconnectDevice d now) := by
  unfold DevicePartitionTracker.disconnectDevice
  split
  · exact h
  next dev hdev =>
    obtain ⟨-, haddr, huuid⟩ := countFailure_fields t.circuitBreakerConfig
      { dev with isConnected := false } now
    exact h.replaced hdev haddr huuid _

/-- A purged device is in no index. -/
theorem Tidy.purgeDevice (h : Tidy t) (d : Int) : Tidy (t.purgeDevice d) := by
  unfold DevicePartitionTracker.purgeDevice
  cases hdev : t.devicesMap.lookup d with
  | none => exact h
  | some dev =>
    have hd := h.derived
    refine tidy_iff.mpr ⟨?_, ?_, ?_, fun {d' e} hl => ?_⟩
    · rw [view_erase, ← hd.ids]
    · rw [view_erase]
      exact hd.addrs.erase ((hd.addrs _ _).mpr (view_some hdev))
    · rw [view_erase]
      dsimp only
      split
      next hne => exact hd.uuids.erase (h.uuid_self hdev hne)
      next hz =>
        have hnone : view ownUuid t.devicesMap d = none := by
          rw [view_some hdev, ownUuid, if_pos (not_not.mp hz)]
        rw [← hnone, update_eq_self]
        exact hd.uuids
    · rw [lookup_erase_eq] at hl
      split at hl
      · cases hl
      · exact h.fresh hl

/-- The tracker without devices. -/
theorem tidy_empty (config : CircuitBreakerConfig) : Tidy { circuitBreakerConfig := config } := by
  constructor
  · constructor <;> simp [AList.lookup_empty]
  · simp
  · simp [AList.lookup_empty]

theorem Tidy.setCircuitBreakerConfig (h : Tidy t) (config : CircuitBreakerConfig) :
    Tidy (t.setCircuitBreakerConfig config) :=
  ⟨⟨h.inverse, h.conn_addr, h.addr_known, h.uuid_known, h.uuid_self, h.uuid_only⟩, h.uuid_stable,
    h.fresh⟩

/-- A call that keeps the indexes together. -/
def KeepsIndexes (t : DevicePartitionTracker) : Op → Prop
  | .registerDevice connAddr uuid now => RegisterOk t connAddr uuid now
  | _ => True

theorem Tidy.apply (h : Tidy t) {op : Op} (hok : KeepsIndexes t op) : Tidy (t.apply op) := by
  cases op with
  | registerDevice addr uuid now => exact h.registerDevice hok
  | disconnectDevice d now => exact h.disconnectDevice d now
  | unregisterDevice d now => exact h.disconnectDevice d now
  | purgeDevice d => exact h.purgeDevice d
  | setCircuitBreakerConfig config => exact h.setCircuitBreakerConfig config
  | reset => exact tidy_empty _

/-- **The indexes of the device tracker.** From the empty tracker, they agree after every call of a
run exactly when every registration of the run meets `RegisterOk`. -/
theorem indexConsistent_iff (config : CircuitBreakerConfig) (ops : List Op) :
    Run.Always apply IndexConsistent { circuitBreakerConfig := config } ops ↔
      Run.Along apply KeepsIndexes { circuitBreakerConfig := config } ops := by
  refine Run.always_iff_along (J := Tidy) (P := fun _ _ => True) (fun _ h => h.toIndexConsistent)
    (fun t op h _ hok => h.apply hok) ?_ (.of_forall fun _ _ => trivial) (tidy_empty config)
  intro t op h _ hc
  cases op with
  | registerDevice addr uuid now => exact (registerDevice_consistent_iff h addr uuid now).mp hc
  | _ => trivial

/-- Device 0 with UUID 7 moves to the address that device 1 holds. -/
theorem uuid_takes_address : ¬ IndexConsistent (Run.exec apply {}
    [.registerDevice "a" 7 0, .registerDevice "b" 8 0, .registerDevice "b" 7 0]) := by
  intro h
  have h₁ := (h.inverse (a := "b") (d := 1)).mpr (by decide)
  revert h₁
  decide

end Morphling.DevicePartitionTracker
