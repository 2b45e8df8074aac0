import Morphling.Lib.Pool
import Morphling.Lib.Run
import Morphling.Tracker.Partition
import Morphling.Tracker.Device

/-!
# The server (`proxy_svr.cpp`)

The server cuts a product into partitions, sends them to the devices and puts the answers together.
Its functions run on several threads at once (the caller's, the main loop, one loop for each group
of connections) and share the two trackers, the outputs and the counters, each under its own mutex.
What a thread does under one lock is one step; between two steps any other thread may run.

* **Calls in progress** (`Call`): for each call of `DispatchMatMulAsync`, `SendIdlePartitions`,
  `SendInLoop`, `HandleMatMul`, `ConnectionClosedCb` and `HandleRegisterResponse`, the operation
  that comes next and the local variables that it needs. `run` does that operation.
* **The wire**: partitions that were sent and not answered (`toDevice`), and answers that were not
  read (`toServer`). Nothing is delivered on a closed connection. A device answers a message at most
  once, with the key and the operation of the message.
* **Events** (`Event`): a device connects, registers or is cut off, an operation is dispatched, a
  thread enters `SendIdlePartitions`, a message is answered or read, or a call does its next step.

An answer is put into the output by its key, which names its block: the version is the same for all
partitions of an operation. Which loop a call runs on is left open, so the model has the
interleavings of the server and more.
-/

namespace Morphling

open Function

/-- `GetPartitionKey`: the text `[version:pivot:row:col]`. -/
structure PartitionKey where
  version : Nat
  pivot : Nat
  row : Nat
  col : Nat
  deriving DecidableEq, Repr

def MatrixPartition.getPartitionKey {P : Type*} (part : MatrixPartition P) : PartitionKey :=
  ⟨part.version, part.pivot, part.row, part.col⟩

structure Connection where
  addr : String
  closed : Bool := false
  deriving DecidableEq, Repr

/-- A partition on its way to a device, or the answer on its way back. -/
structure Message where
  conn : Nat
  key : PartitionKey
  oid : Int
  deriving DecidableEq, Repr

/-- `outputs_[oid]`: its blocks, and those that `WriteResultBlock` wrote. -/
structure Output where
  blocks : List PartitionKey
  written : List PartitionKey := []
  deriving DecidableEq, Repr

/-- The next operation of `HandleMatMul`. -/
inductive HandleStep where
  /-- `WriteResultBlock`. -/
  | write
  /-- `MarkPartitionFinished`. -/
  | finish
  /-- `RemovePartitionByKey`. -/
  | remove
  /-- `IncRspCbCount`. -/
  | count
  deriving DecidableEq, Repr

/-- A call in progress: what comes next, and its local variables. Pointers to partitions are places
in the heap of the tracker. -/
inductive Call where
  /-- `DispatchMatMulAsync`: `AddPartition` of each partition of `rest`. -/
  | dispatch (oid : Int) (rest : List (MatrixPartition DataPtr))
  /-- `SendIdlePartitions`: `RedistributePartitions` of the claimed partitions. -/
  | redistribute (idle : List Nat)
  /-- There is no device: `MarkPartitionIdle` of each partition of `rest`. -/
  | release (rest : List Nat)
  /-- `ReassignPartitionToDevice` of each partition of `rest`; `ready` has theirs. -/
  | assign (redistributed : List (PartitionKey × Int)) (rest ready : List Nat)
  /-- `part` could not be reassigned: `MarkPartitionIdle`. -/
  | unassigned (redistributed : List (PartitionKey × Int)) (part : Nat) (rest ready : List Nat)
  /-- `GetDeviceConnection` for each partition of `rest`. -/
  | send (rest : List Nat)
  /-- The owner of `part` has no connection: `MarkPartitionIdle`. -/
  | unsent (part : Nat) (rest : List Nat)
  /-- A queued `SendInLoop`. -/
  | sendInLoop (msg : Message)
  /-- `DecodeAndDispatch` of an answer: `GetDeviceIdByAddr`. -/
  | decode (msg : Message)
  /-- `IsDeviceConnected`. -/
  | checkConnected (msg : Message) (deviceId : Int)
  | handleMatMul (msg : Message) (next : HandleStep)
  /-- `ConnectionClosedCb` of the handle: `GetDeviceIdByAddr`. -/
  | connectionClosed (conn : Nat)
  /-- `MarkDevicePartitionsFailed`. -/
  | markFailed (conn : Nat) (deviceId : Int)
  /-- `RemoveDeviceConnection`. -/
  | removeConnection (conn : Nat) (deviceId : Int)
  /-- `UnregisterDevice`. -/
  | unregister (conn : Nat) (deviceId : Int)
  /-- `ConnectionClosedCb` of the server, after that of the handle: `GetDeviceIdByAddr`. -/
  | closedAgain (conn : Nat)
  /-- `UnregisterDevice`. -/
  | unregisterAgain (deviceId : Int)
  /-- `HandleRegisterResponse`: `SetDeviceConnection`. -/
  | setConnection (conn : Nat) (deviceId : Int)

/-- What a step reads from outside: the clock, and the map that the scheduling policy returns. -/
structure Input where
  now : Int := 0
  redistributed : List (PartitionKey × Int) := []
  deriving DecidableEq

structure Server where
  partitions : PartitionTracker PartitionKey := {}
  devices : DevicePartitionTracker := {}
  /-- The connections, by their number. -/
  conns : List Connection := []
  outputs : Int → Option Output := fun _ => none
  rspCbCounts : Int → Nat := fun _ => 0
  calls : List Call := []
  toDevice : List Message := []
  toServer : List Message := []
  /-- The versions that `GenUUID64` has returned. -/
  versions : List Nat := []
  /-- The calls of `IncRspCbCount` so far. -/
  counted : List (Int × PartitionKey) := []

namespace Server

variable (s : Server)

/-- `!conn->IsClosed()`. -/
def isOpen (conn : Nat) : Bool := s.conns[conn]?.any (!·.closed)

/-- `conn->GetPeerAddress()`. -/
def addrOf (conn : Nat) : String := (s.conns[conn]?.map (·.addr)).getD ""

/-! ## The steps of a call -/

/-- The writes of `RedistributePartitions` to the claimed partitions. It holds no lock. -/
def assignOwner (redistributed : List (PartitionKey × Int)) (t : PartitionTracker PartitionKey)
    (p : Nat) : PartitionTracker PartitionKey :=
  match (t.keyOf p).bind fun key => redistributed.lookup key with
  | none => t
  | some target => t.modify p fun info => { info with ownerDeviceId := target }

/-- `MarkPartitionIdle(part->key)`. -/
def markIdle (t : PartitionTracker PartitionKey) (p : Nat) : PartitionTracker PartitionKey :=
  match t.keyOf p with
  | none => t
  | some key => t.markPartitionIdle key

/-- `WriteResultBlock`. -/
def writeResultBlock (oid : Int) (key : PartitionKey) : Server :=
  match s.outputs oid with
  | none => s
  | some out =>
    { s with
      outputs := update s.outputs oid
        (some { out with written := out.written ++ [key] }) }

/-- `IncRspCbCount(oid, 1)`: the counter stays at zero. -/
def incRspCbCount (oid : Int) (key : PartitionKey) : Server :=
  { s with
    rspCbCounts := update s.rspCbCounts oid (s.rspCbCounts oid - 1)
    counted := s.counted ++ [(oid, key)] }

/-- The next step of a call: the state after it, and what is left of the call. -/
def run (input : Input) : Call → Server × List Call
  | .dispatch _ [] => (s, [])
  | .dispatch oid (part :: rest) =>
    ({ s with partitions := s.partitions.addPartition (-1) part.getPartitionKey oid part },
      [.dispatch oid rest])
  | .redistribute idle =>
    if input.redistributed = [] then (s, [.release idle])
    else
      ({ s with partitions := idle.foldl (assignOwner input.redistributed) s.partitions },
        [.assign input.redistributed idle []])
  | .release [] => (s, [])
  | .release (p :: rest) => ({ s with partitions := markIdle s.partitions p }, [.release rest])
  | .assign _ [] ready => (s, [.send ready])
  | .assign redistributed (p :: rest) ready =>
    match s.partitions.keyOf p with
    | none => (s, [.assign redistributed rest ready])
    | some key =>
      match redistributed.lookup key with
      | none => (s, [.unassigned redistributed p rest ready])
      | some target =>
        let result := s.partitions.reassignPartitionToDevice key target
        if result.1 then
          ({ s with partitions := result.2 }, [.assign redistributed rest (ready ++ [p])])
        else (s, [.unassigned redistributed p rest ready])
  | .unassigned redistributed p rest ready =>
    ({ s with partitions := markIdle s.partitions p }, [.assign redistributed rest ready])
  | .send [] => (s, [])
  | .send (p :: rest) =>
    match s.partitions.heap[p]? with
    | none => (s, [.send rest])
    | some info =>
      match s.devices.getDeviceConnection info.ownerDeviceId with
      | none => (s, [.unsent p rest])
      | some conn => (s, [.send rest, .sendInLoop ⟨conn, info.key, info.oid⟩])
  | .unsent p rest => ({ s with partitions := markIdle s.partitions p }, [.send rest])
  | .sendInLoop msg =>
    -- On a closed connection the partition is dropped.
    if s.isOpen msg.conn then ({ s with toDevice := s.toDevice ++ [msg] }, []) else (s, [])
  | .decode msg =>
    let deviceId := s.devices.getDeviceIdByAddr (s.addrOf msg.conn)
    -- The answer of an unknown device is dropped, and its connection closed.
    if deviceId = -1 then (s, []) else (s, [.checkConnected msg deviceId])
  | .checkConnected msg deviceId =>
    if s.devices.isDeviceConnected deviceId then (s, [.handleMatMul msg .write]) else (s, [])
  | .handleMatMul msg .write => (s.writeResultBlock msg.oid msg.key, [.handleMatMul msg .finish])
  | .handleMatMul msg .finish =>
    ({ s with partitions := s.partitions.markPartitionFinished msg.key },
      [.handleMatMul msg .remove])
  | .handleMatMul msg .remove =>
    ({ s with partitions := s.partitions.removePartitionByKey msg.key },
      [.handleMatMul msg .count])
  | .handleMatMul msg .count => (s.incRspCbCount msg.oid msg.key, [])
  | .connectionClosed conn =>
    (s, [.markFailed conn (s.devices.getDeviceIdByAddr (s.addrOf conn))])
  | .markFailed conn deviceId =>
    ({ s with partitions := s.partitions.markDevicePartitionsFailed deviceId },
      [if deviceId = -1 then .closedAgain conn else .removeConnection conn deviceId])
  | .removeConnection conn deviceId =>
    ({ s with devices := s.devices.removeDeviceConnection deviceId }, [.unregister conn deviceId])
  | .unregister conn deviceId =>
    ({ s with devices := s.devices.unregisterDevice deviceId input.now }, [.closedAgain conn])
  | .closedAgain conn =>
    let deviceId := s.devices.getDeviceIdByAddr (s.addrOf conn)
    if deviceId = -1 then (s, []) else (s, [.unregisterAgain deviceId])
  | .unregisterAgain deviceId =>
    ({ s with devices := s.devices.unregisterDevice deviceId input.now }, [])
  | .setConnection conn deviceId =>
    ({ s with devices := s.devices.setDeviceConnection deviceId conn }, [])

/-! ## Events -/

inductive Event where
  /-- A connection is accepted. -/
  | connect (addr : String)
  /-- `HandleRegisterResponse`: `RegisterDevice`. -/
  | register (conn uuid : Nat) (now : Int)
  /-- `ForceCloseInLoop`: the connection is closed, and its callback begins. -/
  | close (conn : Nat)
  /-- `DispatchMatMulAsync`: the output and the counter are set. -/
  | dispatch (oid : Int) (parts : List (MatrixPartition DataPtr))
  /-- `SendIdlePartitions`: `ClaimIdlePartitions`. -/
  | sendIdle
  /-- A device answers the message at place `i` of `toDevice`. -/
  | answer (i : Nat)
  /-- The server reads the answer at place `i` of `toServer`. -/
  | receive (i : Nat)
  /-- The call at place `i` does its next step. -/
  | step (i : Nat) (input : Input)

/-- The server after an event. What cannot happen changes nothing. -/
def next : Event → Server
  | .connect addr => { s with conns := s.conns ++ [{ addr }] }
  | .register conn uuid now =>
    if s.isOpen conn then
      let r := s.devices.registerDevice (s.addrOf conn) uuid now
      { s with devices := r.2, calls := s.calls ++ [.setConnection conn r.1.deviceId] }
    else s
  | .close conn =>
    if s.isOpen conn then
      { s with
        conns := s.conns.modify conn fun c => { c with closed := true }
        calls := s.calls ++ [.connectionClosed conn] }
    else s
  | .dispatch oid parts =>
    { s with
      outputs := update s.outputs oid (some { blocks := parts.map (·.getPartitionKey) })
      rspCbCounts := update s.rspCbCounts oid (s.rspCbCounts oid + parts.length)
      versions := s.versions ++ parts.map (·.version)
      calls := s.calls ++ [.dispatch oid parts] }
  | .sendIdle =>
    let claimed := s.partitions.claimIdlePartitions
    if claimed.1 = [] then s
    else { s with partitions := claimed.2, calls := s.calls ++ [.redistribute claimed.1] }
  | .answer i =>
    match s.toDevice[i]? with
    | none => s
    | some msg =>
      if s.isOpen msg.conn then
        { s with toDevice := Pool.replace s.toDevice i [], toServer := s.toServer ++ [msg] }
      else s
  | .receive i =>
    match s.toServer[i]? with
    | none => s
    | some msg =>
      if s.isOpen msg.conn then
        { s with toServer := Pool.replace s.toServer i [], calls := s.calls ++ [.decode msg] }
      else s
  | .step i input =>
    match s.calls[i]? with
    | none => s
    | some call =>
      let r := s.run input call
      { r.1 with calls := Pool.replace s.calls i r.2 }

/-! ## What the environment promises -/

/-- A scheduling policy gives every claimed partition to a connected device, and gives nothing where
there is none. -/
def PolicyOk (idle : List Nat) (redistributed : List (PartitionKey × Int)) : Prop :=
  (s.devices.getConnectedDevices = [] → redistributed = []) ∧
    (s.devices.getConnectedDevices ≠ [] →
      redistributed.map (fun e => some e.1) = idle.map s.partitions.keyOf ∧
        ∀ e ∈ redistributed, e.2 ∈ s.devices.getConnectedDevices)

instance (idle : List Nat) (redistributed : List (PartitionKey × Int)) :
    Decidable (s.PolicyOk idle redistributed) :=
  inferInstanceAs (Decidable ((_ → _) ∧ (_ → _ ∧ _)))

/-- The partitions of a new operation: `ReserveOperationId` gives every id once, `GenUUID64` a new
version, and `PartitionMatrices` every block once. -/
def DispatchOk (oid : Int) (parts : List (MatrixPartition DataPtr)) : Prop :=
  s.outputs oid = none ∧ (parts.map (·.getPartitionKey)).Nodup ∧
    ∀ part ∈ parts, part.version ∉ s.versions

instance (oid : Int) (parts : List (MatrixPartition DataPtr)) :
    Decidable (s.DispatchOk oid parts) :=
  inferInstanceAs (Decidable (_ ∧ _ ∧ _))

/-- The event keeps the promise about new operations. -/
def Fresh : Event → Prop
  | .dispatch oid parts => s.DispatchOk oid parts
  | _ => True

instance : ∀ e, Decidable (s.Fresh e)
  | .dispatch oid parts => inferInstanceAs (Decidable (s.DispatchOk oid parts))
  | .step .. | .connect _ | .register .. | .close _ | .sendIdle | .answer _ | .receive _ =>
    inferInstanceAs (Decidable True)

/-- The step of a call keeps the promise of the policy. -/
def CallEnabled (input : Input) : Call → Prop
  | .redistribute idle => s.PolicyOk idle input.redistributed
  | _ => True

instance (input : Input) : ∀ call, Decidable (s.CallEnabled input call)
  | .redistribute idle => inferInstanceAs (Decidable (s.PolicyOk idle input.redistributed))
  | .dispatch .. | .release _ | .assign .. | .unassigned .. | .send _ | .unsent .. | .sendInLoop _
  | .decode _ | .checkConnected .. | .handleMatMul .. | .connectionClosed _ | .markFailed ..
  | .removeConnection .. | .unregister .. | .closedAgain _ | .unregisterAgain _
  | .setConnection .. => inferInstanceAs (Decidable True)

/-- The event keeps both promises. -/
def Enabled : Event → Prop
  | .dispatch oid parts => s.DispatchOk oid parts
  | .step i input => ∀ call ∈ s.calls[i]?, s.CallEnabled input call
  | _ => True

instance : ∀ e, Decidable (s.Enabled e)
  | .dispatch oid parts => inferInstanceAs (Decidable (s.DispatchOk oid parts))
  | .step i input => inferInstanceAs (Decidable (∀ call ∈ s.calls[i]?, s.CallEnabled input call))
  | .connect _ | .register .. | .close _ | .sendIdle | .answer _ | .receive _ =>
    inferInstanceAs (Decidable True)

/-! ## A run -/

/-- The block in row `row` of a product of two rows. -/
def part (row : Nat) : MatrixPartition DataPtr :=
  { version := 7, row, col := 0, pivot := 0, hDim := 1, mat := [] }

def go (i : Nat) : Event := .step i {}

/-- The policy gives both blocks to a device. -/
def assignBoth (deviceId : Int) : Input :=
  { redistributed := [((part 0).getPartitionKey, deviceId), ((part 1).getPartitionKey, deviceId)] }

/-- The steps of `SendIdlePartitions` as call 0, and of the two calls of `SendInLoop` in their
order. -/
def sendBoth (deviceId : Int) : List Event :=
  .step 0 (assignBoth deviceId) :: List.replicate 6 (go 0) ++ [go 1, go 0]

/-- Two devices register, and a product of two blocks is dispatched and claimed. -/
def claimBoth : List Event :=
  [.connect "a", .register 0 1 0, go 0, .connect "b", .register 1 2 0, go 0,
    .dispatch 0 [part 0, part 1], go 0, go 0, go 0, .sendIdle]

/-- Both partitions are sent to device 0, which is cut off, and then to device 1. -/
def resent : List Event :=
  claimBoth ++ sendBoth 0 ++ [.close 0] ++ List.replicate 6 (go 0) ++ [.sendIdle] ++ sendBoth 1 ++
    [.answer 2, .answer 2, .receive 0, .receive 0] ++ List.replicate 12 (go 0)

end Server
end Morphling
