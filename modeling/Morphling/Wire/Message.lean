import Mathlib.Algebra.Ring.Int.Defs
import Morphling.Lib.Bytes

/-!
# Messages on the wire (`matrix_partition.cpp`, `proto_base.cpp`, `device_measurement.cpp`)

A message is a header (the length of what follows, big-endian; the length of the protobuf message;
the length of the tensors), the protobuf message, and the tensors. This module has the decoders.

* A decoder is given a pointer and the size of the frame that it points to. The bytes after the
  frame are there as well, and are whatever is in memory.
* Protobuf is a partial function `parse` on byte strings; it reads the range that it is given.
* `Run.reads` are the ranges that a decoder has read.
* `LOG_FATAL` ends the process: `Failure.fatal`.
-/

namespace Morphling.Wire

open Bytes

/-! ## Protobuf messages -/

/-- `morphling::Payload`. -/
structure Payload where
  offset : Int
  size : Int
  deriving DecidableEq, Repr

/-- `morphling::global_api::ComputeGemmData`. -/
structure ComputeGemmData where
  version : Nat
  row : Int
  col : Int
  pivot : Int
  hDim : Int
  devId : Int
  oid : Int
  gemmId : Int
  timestamp : Nat
  matrices : List Payload
  deriving DecidableEq, Repr

/-- `morphling::global_api::DeviceProfileData`; the measured fields are optional. -/
structure DeviceProfileMessage where
  uuid : Nat
  flops : Nat
  memory : Nat
  ulBw : Nat
  dlBw : Nat
  ulLat : Nat
  dlLat : Nat
  measuredFlops : Option Nat
  measuredFlopsVerified : Option Bool
  measuredLatNs : Option Nat
  measuredUlBwBps : Option Nat
  measuredDlBwBps : Option Nat
  deriving DecidableEq, Repr

/-- `morphling::UMessage`: the type in its head and the extensions of its body that are read. -/
structure UMessage where
  messageType : Int
  computeGemmData : Option ComputeGemmData := none
  deviceProfileData : Option DeviceProfileMessage := none
  deviceRegisterRequest : Option Unit := none
  deriving DecidableEq, Repr

/-! ## Reading -/

/-- `SerializationBuffer` over a received frame; `reads` records the ranges that were read. -/
structure SerializationBuffer where
  data : Nat → UInt8
  size : Nat
  offset : Nat := 0
  reads : List (Nat × Nat) := []

namespace SerializationBuffer

variable (b : SerializationBuffer)

/-- A read of `n` bytes at the offset. -/
def readBytes (n : Nat) : List UInt8 × SerializationBuffer :=
  (peek b.data b.offset n,
    { b with offset := b.offset + n, reads := b.reads ++ [(b.offset, n)] })

def readUInt32 (networkOrder : Bool) : Nat × SerializationBuffer :=
  let (bytes, b) := b.readBytes 4
  (if networkOrder then ofBE bytes else ofLE bytes, b)

def readUInt64 : Nat × SerializationBuffer :=
  let (bytes, b) := b.readBytes 8
  (ofLE bytes, b)

end SerializationBuffer

/-- The three lengths in front of a message. -/
structure Header where
  payloadSize : Nat
  protoSize : Nat
  tensorSize : Nat
  deriving DecidableEq, Repr

/-- The reads that every decoder starts with. -/
def readHeader (b : SerializationBuffer) : Header × SerializationBuffer :=
  let (payloadSize, b) := b.readUInt32 true
  let (protoSize, b) := b.readUInt32 false
  let (tensorSize, b) := b.readUInt64
  (⟨payloadSize, protoSize, tensorSize⟩, b)

/-- The header at the start of a frame. -/
def headerOf (data : Nat → UInt8) : Header :=
  { payloadSize := ofBE (peek data 0 4)
    protoSize := ofLE (peek data 4 4)
    tensorSize := ofLE (peek data 8 8) }

theorem readHeader_eq (data : Nat → UInt8) (size : Nat) :
    readHeader { data := data, size := size } =
      (headerOf data,
        { data := data, size := size, offset := 16, reads := [(0, 4), (4, 4), (8, 8)] }) := by
  simp [readHeader, headerOf, SerializationBuffer.readUInt32, SerializationBuffer.readUInt64,
    SerializationBuffer.readBytes]

/-! ## Decoders -/

/-- How a decoder fails: an exception, or the end of the process. -/
inductive Failure where
  | throw (what : String)
  | fatal (what : String)
  deriving DecidableEq, Repr

/-- The result of a decoder and what it has read. -/
structure Run (α : Type*) where
  result : Except Failure α
  reads : List (Nat × Nat)

/-- `100 * 1024 * 1024`. -/
def maxProtoSize : Nat := 100 * 1024 * 1024

/-- `1ull * 1024 * 1024 * 1024`. -/
def maxTensorSize : Nat := 1024 * 1024 * 1024

/-- `proto_size == 0 || proto_size > 100 * 1024 * 1024`. -/
def Header.BadProto (h : Header) : Prop := h.protoSize = 0 ∨ h.protoSize > maxProtoSize

instance (h : Header) : Decidable h.BadProto := inferInstanceAs (Decidable (_ ∨ _))

section Decoders
variable (parse : List UInt8 → Option UMessage) (data : Option (Nat → UInt8)) (size : Nat)

/-- `ParseFromArray(buffer.GetCurrentPtr(), proto_size)`. -/
def parseFromArray (b : SerializationBuffer) (protoSize : Nat) :
    Option UMessage × SerializationBuffer :=
  let (bytes, b) := b.readBytes protoSize
  (parse bytes, b)

theorem parseFromArray_eq (data : Nat → UInt8) (off protoSize : Nat) (reads : List (Nat × Nat)) :
    parseFromArray parse { data := data, size := size, offset := off, reads := reads } protoSize =
      (parse (peek data off protoSize),
        { data := data, size := size, offset := off + protoSize
          reads := reads ++ [(off, protoSize)] }) := by
  simp [parseFromArray, SerializationBuffer.readBytes]

/-- `GetMessageType`. -/
def getMessageType : Run Int :=
  match data with
  | none => ⟨.ok (-1), []⟩
  | some data =>
    if size < 16 then ⟨.ok (-1), []⟩ else
    let (h, b) := readHeader { data := data, size := size }
    if h.BadProto then ⟨.ok (-1), b.reads⟩ else
    let (umsg, b) := parseFromArray parse b h.protoSize
    match umsg with
    | none => ⟨.ok (-1), b.reads⟩
    | some umsg => ⟨.ok umsg.messageType, b.reads⟩

/-- `ExtractUMessage`; `none` where it returns false. -/
def extractUMessage : Run (Option UMessage) :=
  match data with
  | none => ⟨.ok none, []⟩
  | some data =>
    if size < 16 then ⟨.ok none, []⟩ else
    let (h, b) := readHeader { data := data, size := size }
    if h.BadProto then ⟨.ok none, b.reads⟩ else
    let (umsg, b) := parseFromArray parse b h.protoSize
    ⟨.ok umsg, b.reads⟩

/-- The `DeserializeProto` of a message without tensors; `get` is its extension. -/
def deserializeMessage {α : Type*} (name extension : String) (get : UMessage → Option α) : Run α :=
  match data with
  | none => ⟨.error (.throw (name ++ "::DeserializeProto: invalid input")), []⟩
  | some data =>
    if size < 16 then ⟨.error (.throw (name ++ "::DeserializeProto: invalid input")), []⟩ else
    let (h, b) := readHeader { data := data, size := size }
    if h.BadProto then
      ⟨.error (.fatal ("Invalid proto_size=" ++ toString h.protoSize)), b.reads⟩ else
    let (umsg, b) := parseFromArray parse b h.protoSize
    match umsg with
    | none => ⟨.error (.throw "Failed to parse UMessage"), b.reads⟩
    | some umsg =>
      match get umsg with
      | none => ⟨.error (.throw ("UMessage does not contain " ++ extension)), b.reads⟩
      | some a => ⟨.ok a, b.reads⟩

/-- `DeviceRegisterRequest::DeserializeProto`; the request has no fields. -/
def deserializeRegisterRequest : Run Unit :=
  deserializeMessage parse data size "DeviceRegisterRequest" "device_resgister_request"
    UMessage.deviceRegisterRequest

/-- `DeviceProfileData`. -/
structure DeviceProfileData where
  uuid : Nat := 0
  flops : Nat := 0
  memory : Nat := 0
  ulBw : Nat := 0
  dlBw : Nat := 0
  ulLat : Nat := 0
  dlLat : Nat := 0
  measuredFlops : Nat := 0
  measuredFlopsVerified : Bool := false
  measuredLatNs : Nat := 0
  measuredUlBwBps : Nat := 0
  measuredDlBwBps : Nat := 0
  deriving DecidableEq, Repr

/-- The fields of a profile, with 0 for what was not measured. -/
def DeviceProfileMessage.toData (m : DeviceProfileMessage) : DeviceProfileData :=
  { uuid := m.uuid
    flops := m.flops
    memory := m.memory
    ulBw := m.ulBw
    dlBw := m.dlBw
    ulLat := m.ulLat
    dlLat := m.dlLat
    measuredFlops := m.measuredFlops.getD 0
    measuredFlopsVerified := m.measuredFlopsVerified.getD false
    measuredLatNs := m.measuredLatNs.getD 0
    measuredUlBwBps := m.measuredUlBwBps.getD 0
    measuredDlBwBps := m.measuredDlBwBps.getD 0 }

/-- `DeviceProfileData::DeserializeProto`. -/
def deserializeProfile : Run DeviceProfileData :=
  deserializeMessage parse data size "DeviceProfileData" "device_profile_data" fun umsg =>
    umsg.deviceProfileData.map DeviceProfileMessage.toData

/-- `MatrixPartition` with the integers of the wire. `mat` has a pointer and a size in bytes for
each matrix. -/
structure WirePartition (P : Type*) where
  version : Nat
  row : Int
  col : Int
  pivot : Int
  hDim : Int
  devId : Int
  oid : Int
  gemmId : Int
  timestamp : Nat
  mat : List (P × Int)
  deriving DecidableEq, Repr

/-- The matrices one after the other; a pointer is the offset in the frame, a `size_t`. -/
def placeMatrices : Nat → List Payload → List (Nat × Int)
  | _, [] => []
  | off, p :: ps => (off, p.size) :: placeMatrices (((off + p.size) % 2 ^ 64).toNat) ps

/-- The fields of a partition whose tensors start at `off`. -/
def ComputeGemmData.toPartition (m : ComputeGemmData) (off : Nat) : WirePartition Nat :=
  { version := m.version
    row := m.row
    col := m.col
    pivot := m.pivot
    hDim := m.hDim
    devId := m.devId
    oid := m.oid
    gemmId := m.gemmId
    timestamp := m.timestamp
    mat := placeMatrices off m.matrices }

/-- `MatrixPartition::DeserializeProto`. -/
def deserializePartition : Run (WirePartition Nat) :=
  match data with
  | none => ⟨.error (.throw "DeserializeProto: data pointer is nullptr"), []⟩
  | some data =>
    if size < 16 then ⟨.error (.throw "DeserializeProto: size too small"), []⟩ else
    let (h, b) := readHeader { data := data, size := size }
    if h.BadProto then
      ⟨.error (.fatal ("Invalid proto_size=" ++ toString h.protoSize)), b.reads⟩ else
    if h.tensorSize > maxTensorSize then
      ⟨.error (.fatal ("Invalid tensor_size=" ++ toString h.tensorSize)), b.reads⟩ else
    if b.offset + h.protoSize + h.tensorSize > size then
      ⟨.error (.throw "Total size exceeds provided buffer"), b.reads⟩ else
    let (umsg, b) := parseFromArray parse b h.protoSize
    match umsg with
    | none => ⟨.error (.throw "Failed to parse UMessage from proto"), b.reads⟩
    | some umsg =>
      match umsg.computeGemmData with
      | none => ⟨.error (.throw "UMessage does not contain compute_gemm_data"), b.reads⟩
      | some m => ⟨.ok (m.toPartition b.offset), b.reads⟩

variable {parse size}

/-- A partition that passes all checks. -/
theorem deserializePartition_eq_ok {data : Nat → UInt8} {umsg : UMessage} {m : ComputeGemmData}
    (hsize : ¬ size < 16) (hproto : ¬ (headerOf data).BadProto)
    (htensor : ¬ (headerOf data).tensorSize > maxTensorSize)
    (hfits : ¬ 16 + (headerOf data).protoSize + (headerOf data).tensorSize > size)
    (hparse : parse (peek data 16 (headerOf data).protoSize) = some umsg)
    (hgemm : umsg.computeGemmData = some m) :
    (deserializePartition parse (some data) size).result =
      .ok (m.toPartition (16 + (headerOf data).protoSize)) := by
  simp only [deserializePartition, readHeader_eq, parseFromArray_eq, hsize, hproto, htensor, hfits,
    if_false, hparse, hgemm]

end Decoders

end Morphling.Wire
