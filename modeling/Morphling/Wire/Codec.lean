import Mathlib.Algebra.Order.BigOperators.Group.List
import Mathlib.Algebra.Order.Ring.Int
import Morphling.Lib.Buffer
import Morphling.Wire.Message

/-!
# Encoding a partition (`matrix_partition.cpp`)

`SerializeProto` copies a partition into one buffer; `SerializeZeroCopy` copies the header and the
protobuf message and only refers to the matrices, and drops the empty ones. Both must put the same
bytes on the wire, the prefix must be the length of the rest, and `DeserializeProto` must give the
partition back. `wireBytes` is what the two meet at.

Sizes are reduced to the width of their C++ type where it is written down; for a partition of at
most 1 GiB and a protobuf message of at most 100 MiB nothing is lost (`lengths_eq`).
-/

namespace Morphling.Wire

open Bytes List

/-- `COMPUTE_GEMM_DATA`. -/
def computeGemmDataType : Int := 103

/-- A pointer to a matrix, or `nullptr`. -/
abbrev MatrixPtr := Option (Nat → UInt8)

/-- The `UMessage` of a partition: `CreateMessageHeader` and the fields. -/
def WirePartition.toMessage {P : Type*} (p : WirePartition P) : UMessage :=
  { messageType := computeGemmDataType
    computeGemmData := some
      { version := p.version
        row := p.row
        col := p.col
        pivot := p.pivot
        hDim := p.hDim
        devId := p.devId
        oid := p.oid
        gemmId := p.gemmId
        timestamp := p.timestamp
        matrices := p.mat.map fun m => ⟨0, m.2⟩ } }

/-! ## Encoders -/

section Encoders
variable (serialize : UMessage → List UInt8) (p : WirePartition MatrixPtr)

/-- `proto_size`, a `uint32_t`. -/
def protoSize : Nat := (serialize p.toMessage).length % 2 ^ 32

/-- `tensor_size`, a `uint64_t` to which the sizes are added. -/
def tensorSize : Nat := ((p.mat.map Prod.snd).sum % (2 ^ 64 : Int)).toNat

/-- `payload_size`, a `uint32_t`. -/
def payloadSize : Nat := (4 + 8 + protoSize serialize p + tensorSize p) % 2 ^ 32

/-- `SerializationBuffer` while it is written: `total_size` bytes and an offset. -/
structure OutBuffer where
  bytes : List UInt8
  offset : Nat := 0

/-- A write at the offset; it fails where it would leave the buffer. -/
def OutBuffer.write (b : OutBuffer) (bs : List UInt8) : Option OutBuffer :=
  if b.offset + bs.length ≤ b.bytes.length then
    some { bytes := Buffer.splice b.bytes b.offset bs, offset := b.offset + bs.length }
  else none

/-- The copy of one matrix, where `size > 0 && src != nullptr`; the size is a `size_t`. -/
def OutBuffer.writeMatrix (b : OutBuffer) (m : MatrixPtr × Int) : Option OutBuffer :=
  match m.1 with
  | none => some b
  | some src =>
    let size := (m.2 % 2 ^ 64).toNat
    if size > 0 then b.write (peek src 0 size) else some b

/-- `MatrixPartition::SerializeProto`; `junk` is what the allocated buffer holds before. -/
def serializeProto (junk : Nat → UInt8) : Option (List UInt8) := do
  let totalSize := 4 + payloadSize serialize p
  let b : OutBuffer := { bytes := peek junk 0 totalSize }
  let b ← b.write (toBE 4 (payloadSize serialize p))
  let b ← b.write (toLE 4 (protoSize serialize p))
  let b ← b.write (toLE 8 (tensorSize p))
  let b ← b.write ((serialize p.toMessage).take (protoSize serialize p))
  let b ← p.mat.foldlM OutBuffer.writeMatrix b
  return b.bytes

/-- The reference segment of a matrix, where `ptr && sz > 0`. -/
def segment (m : MatrixPtr × Int) : Option (List UInt8) :=
  match m.1 with
  | none => none
  | some ptr => if m.2 > 0 then some (peek ptr 0 m.2.toNat) else none

/-- `MatrixPartition::SerializeZeroCopy`: the bytes of the segments. -/
def serializeZeroCopy : List (List UInt8) :=
  (toBE 4 (payloadSize serialize p) ++ toLE 4 (protoSize serialize p) ++ toLE 8 (tensorSize p) ++
    (serialize p.toMessage).take (protoSize serialize p)) :: p.mat.filterMap segment

end Encoders

/-! ## What is written -/

/-- The bytes of a matrix that is sent. -/
def content (m : MatrixPtr × Int) : List UInt8 :=
  match m.1 with
  | none => []
  | some ptr => peek ptr 0 m.2.toNat

/-- A partition that can be sent. -/
structure WirePartition.Sendable (p : WirePartition MatrixPtr) : Prop where
  size_nonneg : ∀ m ∈ p.mat, 0 ≤ m.2
  sum_le : (p.mat.map Prod.snd).sum ≤ 2 ^ 30
  not_null : ∀ m ∈ p.mat, 0 < m.2 → m.1 ≠ none

/-- A protobuf message that can be sent, and comes back. -/
structure ProtoOk (serialize : UMessage → List UInt8) (parse : List UInt8 → Option UMessage)
    (umsg : UMessage) : Prop where
  nonempty : 1 ≤ (serialize umsg).length
  length_le : (serialize umsg).length ≤ maxProtoSize
  parse_serialize : parse (serialize umsg) = some umsg

/-- The message on the wire. -/
def wireBytes (serialize : UMessage → List UInt8) (p : WirePartition MatrixPtr) : List UInt8 :=
  toBE 4 (payloadSize serialize p) ++ toLE 4 (protoSize serialize p) ++ toLE 8 (tensorSize p) ++
    serialize p.toMessage ++ (p.mat.map content).flatten

section Written
variable {serialize : UMessage → List UInt8} {parse : List UInt8 → Option UMessage}
  {p : WirePartition MatrixPtr} {m : MatrixPtr × Int}

theorem length_content (hnonneg : 0 ≤ m.2) (hnull : 0 < m.2 → m.1 ≠ none) :
    ((content m).length : Int) = m.2 := by
  obtain ⟨ptr, size⟩ := m
  cases ptr with
  | none =>
    have : size = 0 := by
      by_contra hne
      exact hnull (by dsimp only at hnonneg ⊢; omega) rfl
    simp [content, this]
  | some ptr =>
    rw [content, length_peek]
    exact Int.toNat_of_nonneg hnonneg

/-- The sizes of the matrices are the lengths of their contents. -/
theorem sum_content (hmat : ∀ m ∈ p.mat, 0 ≤ m.2 ∧ (0 < m.2 → m.1 ≠ none)) :
    (((p.mat.map content).flatten.length : Nat) : Int) = (p.mat.map Prod.snd).sum := by
  generalize p.mat = mat at hmat
  induction mat with
  | nil => rfl
  | cons m mat ih =>
    have hm := hmat m mem_cons_self
    have hrest := ih fun m' hm' => hmat m' (mem_cons_of_mem _ hm')
    rw [map_cons, flatten_cons, length_append, map_cons, sum_cons,
      Int.natCast_add, length_content hm.1 hm.2, hrest]

/-- Nothing is lost in the fixed widths. -/
theorem lengths_eq (hp : p.Sendable) (hproto : ProtoOk serialize parse p.toMessage) :
    protoSize serialize p = (serialize p.toMessage).length ∧
      tensorSize p = (p.mat.map content).flatten.length ∧
      payloadSize serialize p = 12 + (serialize p.toMessage).length +
        (p.mat.map content).flatten.length := by
  have hlen := hproto.length_le
  have hsum := sum_content fun m hm => ⟨hp.size_nonneg m hm, hp.not_null m hm⟩
  have hle := hp.sum_le
  unfold maxProtoSize at hlen
  have hproto : protoSize serialize p = (serialize p.toMessage).length :=
    Nat.mod_eq_of_lt (by omega)
  have htensor : tensorSize p = (p.mat.map content).flatten.length := by
    unfold tensorSize
    rw [← hsum]
    omega
  refine ⟨hproto, htensor, ?_⟩
  rw [payloadSize, hproto, htensor, Nat.mod_eq_of_lt (by omega)]

/-- A write behind `done` that fits the rest of the buffer. -/
theorem OutBuffer.write_eq (done rest bs : List UInt8) (h : bs.length ≤ rest.length) :
    OutBuffer.write ⟨done ++ rest, done.length⟩ bs =
      some ⟨(done ++ bs) ++ rest.drop bs.length, (done ++ bs).length⟩ := by
  rw [write, if_pos (by simpa using h)]
  simp [Buffer.splice_append]

theorem OutBuffer.writeMatrix_eq (hnonneg : 0 ≤ m.2) (hsize : m.2 ≤ 2 ^ 30) (done rest : List UInt8)
    (h : (content m).length ≤ rest.length) :
    OutBuffer.writeMatrix ⟨done ++ rest, done.length⟩ m =
      some ⟨(done ++ content m) ++ rest.drop (content m).length, (done ++ content m).length⟩ := by
  obtain ⟨ptr, size⟩ := m
  cases ptr with
  | none => simp [writeMatrix, content]
  | some ptr =>
    dsimp only at hnonneg hsize
    have hmod : (size % 2 ^ 64).toNat = size.toNat := by omega
    simp only [writeMatrix, content, hmod]
    split
    · exact write_eq done rest _ h
    next hzero =>
      have : size.toNat = 0 := by omega
      simp [this, peek]

/-- The matrices one after the other; those without bytes write nothing. -/
theorem OutBuffer.foldlM_writeMatrix {mat : List (MatrixPtr × Int)}
    (hmat : ∀ m ∈ mat, 0 ≤ m.2 ∧ m.2 ≤ 2 ^ 30) (done rest : List UInt8)
    (h : (mat.map content).flatten.length ≤ rest.length) :
    mat.foldlM OutBuffer.writeMatrix ⟨done ++ rest, done.length⟩ =
      some ⟨(done ++ (mat.map content).flatten) ++ rest.drop (mat.map content).flatten.length,
        (done ++ (mat.map content).flatten).length⟩ := by
  induction mat generalizing done rest with
  | nil => simp
  | cons m mat ih =>
    simp only [map_cons, flatten_cons, length_append] at h ⊢
    obtain ⟨hnonneg, hsize⟩ := hmat m mem_cons_self
    rw [foldlM_cons, writeMatrix_eq hnonneg hsize done rest (by omega)]
    refine (ih (fun m' hm' => hmat m' (mem_cons_of_mem _ hm')) _ _ ?_).trans ?_
    · rw [length_drop]
      omega
    · simp

/-- One matrix is not larger than all of them. -/
theorem WirePartition.Sendable.size_le (hp : p.Sendable) :
    ∀ m ∈ p.mat, 0 ≤ m.2 ∧ m.2 ≤ 2 ^ 30 := by
  intro m hm
  refine ⟨hp.size_nonneg m hm, le_trans ?_ hp.sum_le⟩
  exact single_le_sum (by simpa using fun b a hab => hp.size_nonneg (a, b) hab) _
    (mem_map_of_mem hm)

theorem serializeProto_eq (hp : p.Sendable) (hproto : ProtoOk serialize parse p.toMessage)
    (junk : Nat → UInt8) : serializeProto serialize p junk = some (wireBytes serialize p) := by
  obtain ⟨hps, hts, hpay⟩ := lengths_eq hp hproto
  have hrest : (peek junk 0 (4 + payloadSize serialize p)).length =
      16 + (serialize p.toMessage).length + (p.mat.map content).flatten.length := by
    rw [length_peek, hpay]
    omega
  have hproto : (serialize p.toMessage).take (protoSize serialize p) = serialize p.toMessage := by
    rw [hps, take_length]
  simp only [serializeProto, hproto, Option.bind_eq_bind]
  generalize peek junk 0 (4 + payloadSize serialize p) = rest at hrest
  have hstart : ({ bytes := rest } : OutBuffer) = ⟨[] ++ rest, ([] : List UInt8).length⟩ := rfl
  rw [hstart, OutBuffer.write_eq _ _ _ (by simp; omega), Option.bind_some,
    OutBuffer.write_eq _ _ _ (by simp; omega), Option.bind_some,
    OutBuffer.write_eq _ _ _ (by simp; omega), Option.bind_some,
    OutBuffer.write_eq _ _ _ (by simp; omega), Option.bind_some,
    OutBuffer.foldlM_writeMatrix hp.size_le _ _
      (by simp only [length_drop, length_toBE, length_toLE]; omega), Option.bind_some]
  -- the buffer is full
  simp only [drop_drop, length_toBE, length_toLE]
  rw [drop_eq_nil_of_le (by omega)]
  simp [wireBytes]

/-- Segments that are dropped have no bytes. -/
theorem flatten_filterMap_segment {mat : List (MatrixPtr × Int)} (hmat : ∀ m ∈ mat, 0 ≤ m.2) :
    (mat.filterMap segment).flatten = (mat.map content).flatten := by
  induction mat with
  | nil => rfl
  | cons m mat ih =>
    have hrest := ih fun m' hm' => hmat m' (mem_cons_of_mem _ hm')
    obtain ⟨ptr, size⟩ := m
    cases ptr with
    | none =>
      rw [filterMap_cons_none rfl]
      simpa [content] using hrest
    | some ptr =>
      by_cases hsize : size > 0
      · simpa [segment, content, hsize] using hrest
      · have hzero : size = 0 := by
          have := hmat (some ptr, size) mem_cons_self
          dsimp only at this
          omega
        simpa [segment, content, hzero, peek] using hrest

theorem flatten_serializeZeroCopy (hp : p.Sendable)
    (hproto : ProtoOk serialize parse p.toMessage) :
    (serializeZeroCopy serialize p).flatten = wireBytes serialize p := by
  obtain ⟨hps, -, -⟩ := lengths_eq hp hproto
  rw [serializeZeroCopy, flatten_cons, flatten_filterMap_segment hp.size_nonneg, hps,
    take_length, wireBytes, hps]

theorem length_wireBytes (hp : p.Sendable) (hproto : ProtoOk serialize parse p.toMessage) :
    (wireBytes serialize p).length = 4 + payloadSize serialize p := by
  obtain ⟨-, -, hpay⟩ := lengths_eq hp hproto
  simp only [wireBytes, length_append, length_toBE, length_toLE, hpay]
  omega

end Written

/-! ## Decoding -/

section Decode
variable {serialize : UMessage → List UInt8} {parse : List UInt8 → Option UMessage}
  {p : WirePartition MatrixPtr} {data : Nat → UInt8}

/-- The matrices of a received partition are found where they were put. -/
theorem map_peek_placeMatrices {mat : List (MatrixPtr × Int)} {off : Nat}
    (hmat : ∀ m ∈ mat, 0 ≤ m.2 ∧ (0 < m.2 → m.1 ≠ none))
    (hpeek : peek data off (mat.map content).flatten.length = (mat.map content).flatten)
    (hoff : off + (mat.map content).flatten.length < 2 ^ 64) :
    (placeMatrices off (mat.map fun m => ⟨0, m.2⟩)).map (fun e => peek data e.1 e.2.toNat) =
      mat.map content := by
  induction mat generalizing off with
  | nil => rfl
  | cons m mat ih =>
    have hm := hmat m mem_cons_self
    have hlen := length_content hm.1 hm.2
    simp only [map_cons, flatten_cons, length_append] at hpeek hoff ⊢
    rw [peek_add] at hpeek
    obtain ⟨hfirst, hrest⟩ := append_inj hpeek (by simp)
    have hnext : ((off + m.2) % 2 ^ 64).toNat = off + (content m).length := by omega
    have htoNat : m.2.toNat = (content m).length := by omega
    rw [placeMatrices, map_cons, hnext, htoNat, hfirst,
      ih (fun m' hm' => hmat m' (mem_cons_of_mem _ hm')) hrest (by omega)]

/-- The header of a message that arrived. -/
theorem headerOf_wireBytes (hp : p.Sendable) (hproto : ProtoOk serialize parse p.toMessage)
    (hdata : peek data 0 (wireBytes serialize p).length = wireBytes serialize p) :
    headerOf data = ⟨payloadSize serialize p, protoSize serialize p, tensorSize p⟩ ∧
      peek data 16 (serialize p.toMessage).length = serialize p.toMessage ∧
      peek data (16 + (serialize p.toMessage).length) (p.mat.map content).flatten.length =
        (p.mat.map content).flatten := by
  obtain ⟨hps, hts, hpay⟩ := lengths_eq hp hproto
  have hlen := hproto.length_le
  have hsum := sum_content fun m hm => ⟨hp.size_nonneg m hm, hp.not_null m hm⟩
  have hle := hp.sum_le
  unfold maxProtoSize at hlen
  -- the five parts of the message, each behind the ones before
  simp only [wireBytes, peek_append_iff] at hdata
  simp only [length_append, length_toBE, length_toLE, Nat.zero_add] at hdata
  obtain ⟨⟨⟨⟨hA, hB⟩, hC⟩, hD⟩, hE⟩ := hdata
  refine ⟨?_, hD, by rwa [show 16 + (serialize p.toMessage).length =
    4 + 4 + 8 + (serialize p.toMessage).length by omega]⟩
  rw [headerOf, hA, hB, hC, ofBE_toBE (by omega), ofLE_toLE (by omega), ofLE_toLE (by omega)]

/-- The fields of a partition without its matrices. -/
def WirePartition.scalars {P : Type*} (p : WirePartition P) : WirePartition Empty :=
  { p with mat := [] }

/-- The codec. Both encoders put the same bytes on the wire; the prefix is the length of the rest;
and wherever these bytes arrive, the decoder gives the fields and the contents of the matrices
back, those without bytes included. -/
theorem codec_roundtrip (serialize : UMessage → List UInt8) (parse : List UInt8 → Option UMessage)
    (p : WirePartition MatrixPtr) (junk : Nat → UInt8) (hp : p.Sendable)
    (hproto : ProtoOk serialize parse p.toMessage) :
    ∃ bytes, serializeProto serialize p junk = some bytes ∧
      (serializeZeroCopy serialize p).flatten = bytes ∧
      ofBE (bytes.take 4) + 4 = bytes.length ∧
      ∀ data, peek data 0 bytes.length = bytes →
        ∃ q, (deserializePartition parse (some data) bytes.length).result = .ok q ∧
          q.scalars = p.scalars ∧
          q.mat.map (fun e => peek data e.1 e.2.toNat) = p.mat.map content := by
  obtain ⟨hps, hts, hpay⟩ := lengths_eq hp hproto
  have hlen := length_wireBytes hp hproto
  refine ⟨wireBytes serialize p, serializeProto_eq hp hproto junk,
    flatten_serializeZeroCopy hp hproto, ?_, fun data hdata => ?_⟩
  · have hfirst : (wireBytes serialize p).take 4 = toBE 4 (payloadSize serialize p) := by
      simp only [wireBytes, append_assoc]
      exact take_left' (length_toBE ..)
    have hlt : payloadSize serialize p < 256 ^ 4 := Nat.mod_lt _ (by decide)
    rw [hfirst, ofBE_toBE hlt, hlen, Nat.add_comm]
  · obtain ⟨hhead, hmsg, htensors⟩ := headerOf_wireBytes hp hproto hdata
    have hmax := hproto.length_le
    have hmin := hproto.nonempty
    have hbad : ¬ (headerOf data).BadProto := by
      rw [hhead, hps, Header.BadProto]
      dsimp only
      omega
    have hsum := sum_content fun m hm => ⟨hp.size_nonneg m hm, hp.not_null m hm⟩
    have hle := hp.sum_le
    have htensor : ¬ (headerOf data).tensorSize > maxTensorSize := by
      rw [hhead, hts, maxTensorSize]
      dsimp only
      omega
    have hfits : ¬ 16 + (headerOf data).protoSize + (headerOf data).tensorSize >
        (wireBytes serialize p).length := by
      rw [hhead, hps, hts, hlen, hpay]
      dsimp only
      omega
    have hsize : ¬ (wireBytes serialize p).length < 16 := by
      rw [hlen, hpay]
      omega
    have hparse : parse (peek data 16 (headerOf data).protoSize) = some p.toMessage := by
      rw [hhead, hps, hmsg, hproto.parse_serialize]
    refine ⟨_, deserializePartition_eq_ok hsize hbad htensor hfits hparse rfl, rfl, ?_⟩
    have hoff : (headerOf data).protoSize = (serialize p.toMessage).length := by rw [hhead, hps]
    refine map_peek_placeMatrices (fun m hm => ⟨hp.size_nonneg m hm, hp.not_null m hm⟩) ?_ ?_
    · rw [hoff]
      exact htensors
    · rw [hoff]
      unfold maxProtoSize at hmax
      omega

/-- Three matrices, of which only the second has bytes. -/
def sparsePartition : WirePartition MatrixPtr :=
  { version := 5, row := -1, col := 2, pivot := 0, hDim := 1, devId := 3, oid := 4, gemmId := 6
    timestamp := 7
    mat := [(none, 0), (some fun i => UInt8.ofNat i, 3), (some fun _ => 0, 0)] }

/-- What protobuf writes for its message. -/
def sparseProto : List UInt8 :=
  [0x0a, 0x10, 0x08, 0x01, 0x10, 0x87, 0x93, 0xd0, 0x91, 0x01, 0x18, 0x00, 0x20, 0x00, 0x2a, 0x00,
    0x30, 0x67, 0x12, 0x30, 0xba, 0x06, 0x2d, 0x08, 0x05, 0x10, 0xff, 0xff, 0xff, 0xff, 0xff, 0xff,
    0xff, 0xff, 0xff, 0x01, 0x18, 0x02, 0x20, 0x00, 0x28, 0x01, 0x30, 0x03, 0x38, 0x04, 0x40, 0x07,
    0x48, 0x06, 0x52, 0x04, 0x08, 0x00, 0x10, 0x00, 0x52, 0x04, 0x08, 0x00, 0x10, 0x03, 0x52, 0x04,
    0x08, 0x00, 0x10, 0x00]

/-- `ParseFromArray`, of these bytes. -/
def parseSparse (bytes : List UInt8) : Option UMessage :=
  if bytes = sparseProto then some sparsePartition.toMessage else none

theorem codec_roundtrip_sparse : sparsePartition.Sendable ∧ ∃ bytes,
    serializeProto (fun _ => sparseProto) sparsePartition (fun _ => 255) = some bytes ∧
    (serializeZeroCopy (fun _ => sparseProto) sparsePartition).flatten = bytes ∧
    ∀ data, peek data 0 bytes.length = bytes →
      ∃ q, (deserializePartition parseSparse (some data) bytes.length).result = .ok q ∧
        q.mat.map (fun e => peek data e.1 e.2.toNat) = [[], [0, 1, 2], []] := by
  have hp : sparsePartition.Sendable := by
    refine ⟨?_, by decide, ?_⟩ <;> simp [sparsePartition]
  obtain ⟨bytes, hproto, hzero, -, hdecode⟩ := codec_roundtrip (fun _ => sparseProto) parseSparse
    sparsePartition (fun _ => 255) hp ⟨by decide, by decide, if_pos rfl⟩
  refine ⟨hp, bytes, hproto, hzero, fun data hdata => ?_⟩
  obtain ⟨q, hq, -, hmat⟩ := hdecode data hdata
  exact ⟨q, hq, hmat.trans (by decide)⟩

end Decode

end Morphling.Wire
