import Morphling.Matrix.Partition

/-!
# The partition tracker (`partition_tracker.cpp`)

The tracker keeps its partitions in four indexes that share `PartitionInfo` objects by pointer. The
objects are in a heap, a pointer is the object's place in it, and an object lives on after the last
index that held it. `std::unordered_set` is a list in some order; a `std::unordered_map` is a
function to `Option`.

Each operation holds the tracker's mutex from start to end, so it is one function of the state.
The tensor cache (`device_tensors_`) and the log lines are left out. Keys are of any type `K`: the
tracker only compares them.
-/

namespace Morphling

open Function

/-- `PartitionState`. -/
inductive PartitionState where
  | idle
  | running
  | finished
  deriving DecidableEq, Repr

/-- `PartitionInfo`. -/
structure PartitionInfo (K : Type*) where
  key : K
  oid : Int
  ownerDeviceId : Int
  state : PartitionState := .idle
  partition : MatrixPartition DataPtr

/-- The indexes of `PartitionTracker` and the objects they point to. -/
structure PartitionTracker (K : Type*) where
  heap : List (PartitionInfo K) := []
  partitionsSet : List Nat := []
  partitionMap : K → Option Nat := fun _ => none
  devicePartitions : Int → Option (List Nat) := fun _ => none
  partitionToDevice : K → Option Int := fun _ => none

namespace PartitionTracker

section Pointers
variable {K : Type*} (t : PartitionTracker K)

/-- `p->key`. -/
def keyOf (p : Nat) : Option K := t.heap[p]?.map (·.key)

/-- `p->state`. -/
def stateOf (p : Nat) : Option PartitionState := t.heap[p]?.map (·.state)

/-- A write through the pointer `p`. -/
def modify (p : Nat) (f : PartitionInfo K → PartitionInfo K) : PartitionTracker K :=
  { t with heap := t.heap.modify p f }

/-- `device_partitions_[d]`, empty where there is no entry. -/
def deviceList (d : Int) : List Nat := (t.devicePartitions d).getD []

/-- A device's list after a removal: the entry goes with the last element. -/
def nonEmpty (parts : List Nat) : Option (List Nat) := if parts = [] then none else some parts

@[simp] theorem keyOf_modify {f : PartitionInfo K → PartitionInfo K} (hf : ∀ i, (f i).key = i.key)
    (p : Nat) : (t.modify p f).keyOf = t.keyOf := by
  funext q
  simp only [keyOf, modify, List.getElem?_modify]
  split <;> cases t.heap[q]? <;> simp [hf]

end Pointers

/-! ## The operations -/

section Operations
variable {K : Type*} [DecidableEq K] (t : PartitionTracker K)

def addPartition (deviceId : Int) (partitionKey : K) (oid : Int)
    (partition : MatrixPartition DataPtr) : PartitionTracker K :=
  let info := t.heap.length
  { heap := t.heap ++ [{ key := partitionKey, oid, ownerDeviceId := deviceId, partition }]
    devicePartitions :=
      update t.devicePartitions deviceId (some (t.deviceList deviceId ++ [info]))
    partitionsSet := t.partitionsSet ++ [info]
    partitionMap := update t.partitionMap partitionKey (some info)
    partitionToDevice := update t.partitionToDevice partitionKey (some deviceId) }

def removePartition (deviceId : Int) (partitionKey : K) : PartitionTracker K :=
  match t.devicePartitions deviceId with
  | none => t
  | some parts =>
    match parts.find? (t.keyOf · = some partitionKey) with
    | none => t
    | some p =>
      { t with
        partitionsSet := t.partitionsSet.erase p
        partitionMap := update t.partitionMap partitionKey none
        partitionToDevice := update t.partitionToDevice partitionKey none
        devicePartitions := update t.devicePartitions deviceId
          (nonEmpty (parts.eraseP (t.keyOf · = some partitionKey))) }

def removePartitionByKey (partitionKey : K) : PartitionTracker K :=
  match t.partitionToDevice partitionKey with
  | none => t
  | some deviceId =>
    let t₁ := { t with
      partitionToDevice := update t.partitionToDevice partitionKey none }
    let t₂ := match t₁.partitionMap partitionKey with
      | none => t₁
      | some p => { t₁ with
        partitionsSet := t₁.partitionsSet.erase p
        partitionMap := update t₁.partitionMap partitionKey none }
    match t₂.devicePartitions deviceId with
    | none => t₂
    | some parts =>
      if parts.any (t₂.keyOf · = some partitionKey) then
        { t₂ with
          devicePartitions := update t₂.devicePartitions deviceId
            (nonEmpty (parts.eraseP (t₂.keyOf · = some partitionKey))) }
      else t₂

/-- The first half of `ReassignPartitionToDevice`: the key leaves the list of its device. -/
def detach (partitionKey : K) : PartitionTracker K :=
  match t.partitionToDevice partitionKey with
  | none => t
  | some owner =>
    match t.devicePartitions owner with
    | none => t
    | some parts =>
      { t with
        devicePartitions := update t.devicePartitions owner
          (nonEmpty (parts.filter (t.keyOf · ≠ some partitionKey))) }

/-- `ReassignPartitionToDevice`: `false` where the key is not tracked. -/
def reassignPartitionToDevice (partitionKey : K) (targetDeviceId : Int) :
    Bool × PartitionTracker K :=
  match t.partitionMap partitionKey with
  | none => (false, t)
  | some p =>
    let t₁ := t.detach partitionKey
    let targetPartitions :=
      (t₁.deviceList targetDeviceId).filter (t₁.keyOf · ≠ some partitionKey) ++ [p]
    let t₂ := { t₁ with
      devicePartitions := update t₁.devicePartitions targetDeviceId (some targetPartitions)
      partitionToDevice := update t₁.partitionToDevice partitionKey (some targetDeviceId) }
    (true, t₂.modify p fun info => { info with
      ownerDeviceId := targetDeviceId
      partition := { info.partition with devId := targetDeviceId } })

def markDevicePartitionsFailed (deviceId : Int) : PartitionTracker K :=
  (t.deviceList deviceId).foldl (fun t p => t.modify p fun info =>
    if info.state = .running then { info with state := .idle, ownerDeviceId := -1 } else info) t

/-- The body of the `MarkPartition…` operations: a key that is not tracked is only logged. -/
def markPartition (state : PartitionState) (partitionKey : K) : PartitionTracker K :=
  match t.partitionMap partitionKey with
  | none => t
  | some p => t.modify p fun info => { info with state }

def markPartitionRunning : K → PartitionTracker K := t.markPartition .running

def markPartitionFinished : K → PartitionTracker K := t.markPartition .finished

def markPartitionFailed : K → PartitionTracker K := t.markPartition .idle

def markPartitionIdle : K → PartitionTracker K := t.markPartition .idle

def markDevicePartitionsRunning (deviceId : Int) : PartitionTracker K :=
  (t.deviceList deviceId).foldl (fun t p => t.modify p fun info =>
    if info.state = .idle then { info with state := .running } else info) t

/-- One iteration of the loop of `ClaimIdlePartitions`. -/
def claimOne (s : List Nat × PartitionTracker K) (p : Nat) : List Nat × PartitionTracker K :=
  if s.2.stateOf p = some .idle then
    (s.1 ++ [p], s.2.modify p fun info => { info with state := .running })
  else s

/-- `ClaimIdlePartitions`: the pointers to the partitions that were idle. -/
def claimIdlePartitions : List Nat × PartitionTracker K := t.partitionsSet.foldl claimOne ([], t)

/-- One iteration of the loop of `RedistributeFailedDevicePartitions` that applies the policy. -/
def redistributeOne (redistributionMap : K → Option Int) (p : Nat) : PartitionTracker K :=
  match t.keyOf p with
  | none => t
  | some key =>
    match redistributionMap key with
    | none => t
    | some target =>
      { t with
        devicePartitions :=
          update t.devicePartitions target (some (t.deviceList target ++ [p]))
        partitionToDevice := update t.partitionToDevice key (some target)
        }.modify p fun info => { info with ownerDeviceId := target, state := .idle }

/-- `RedistributeFailedDevicePartitions`, with the map that the policy returned. -/
def redistributeFailedDevicePartitions (failedDeviceId : Int)
    (redistributionMap : K → Option Int) : PartitionTracker K :=
  let partitionsToRedistribute :=
    (t.deviceList failedDeviceId).filter (t.stateOf · = some .idle)
  if partitionsToRedistribute = [] then t else
    let t' := partitionsToRedistribute.foldl (redistributeOne · redistributionMap) t
    { t' with devicePartitions := update t'.devicePartitions failedDeviceId none }

/-- One iteration of the loop of `ClearDevicePartitions`. -/
def clearOne (p : Nat) : PartitionTracker K :=
  match t.keyOf p with
  | none => t
  | some key =>
    { t with
      partitionsSet := t.partitionsSet.erase p
      partitionMap := update t.partitionMap key none
      partitionToDevice := update t.partitionToDevice key none }

def clearDevicePartitions (deviceId : Int) : PartitionTracker K :=
  match t.devicePartitions deviceId with
  | none => t
  | some parts =>
    let t' := parts.foldl (fun t p => t.clearOne p) t
    { t' with devicePartitions := update t'.devicePartitions deviceId none }

/-- `Reset`. Objects that others still point to live on. -/
def reset : PartitionTracker K := { heap := t.heap }

/-! ## Operations as data -/

/-- A call of the tracker. -/
inductive Op (K : Type*) where
  | addPartition (deviceId : Int) (key : K) (oid : Int) (partition : MatrixPartition DataPtr)
  | removePartition (deviceId : Int) (key : K)
  | removePartitionByKey (key : K)
  | reassignPartitionToDevice (key : K) (targetDeviceId : Int)
  | markDevicePartitionsFailed (deviceId : Int)
  | markPartitionRunning (key : K)
  | markPartitionFinished (key : K)
  | markPartitionFailed (key : K)
  | markPartitionIdle (key : K)
  | markDevicePartitionsRunning (deviceId : Int)
  | claimIdlePartitions
  | redistributeFailedDevicePartitions (failedDeviceId : Int) (redistributionMap : K → Option Int)
  | clearDevicePartitions (deviceId : Int)
  | reset

/-- The tracker after a call. -/
def apply : Op K → PartitionTracker K
  | .addPartition d k oid part => t.addPartition d k oid part
  | .removePartition d k => t.removePartition d k
  | .removePartitionByKey k => t.removePartitionByKey k
  | .reassignPartitionToDevice k d => (t.reassignPartitionToDevice k d).2
  | .markDevicePartitionsFailed d => t.markDevicePartitionsFailed d
  | .markPartitionRunning k => t.markPartitionRunning k
  | .markPartitionFinished k => t.markPartitionFinished k
  | .markPartitionFailed k => t.markPartitionFailed k
  | .markPartitionIdle k => t.markPartitionIdle k
  | .markDevicePartitionsRunning d => t.markDevicePartitionsRunning d
  | .claimIdlePartitions => t.claimIdlePartitions.2
  | .redistributeFailedDevicePartitions d m => t.redistributeFailedDevicePartitions d m
  | .clearDevicePartitions d => t.clearDevicePartitions d
  | .reset => t.reset

end Operations

end PartitionTracker
end Morphling
