import Mathlib.Algebra.Order.BigOperators.Group.List
import Mathlib.Algebra.Order.Ring.Int
import Morphling.Wire.Message

/-!
# What the decoders read

A decoder must not read outside the frame it is given nor end the process, and the matrices of a
decoded partition must lie one after the other in the tensors of the frame. The decoders check some
of the lengths in a message and not others:

* only `MatrixPartition::DeserializeProto` compares the length of the protobuf message with the size
  of the frame; the others parse whatever is behind the frame;
* the `DeserializeProto` functions call `LOG_FATAL` on lengths that a sender may choose;
* the sizes of the single matrices, which are in the protobuf message, are compared with nothing.

`Decoder.safe_iff` says for every decoder which frames it treats safely.
-/

namespace Morphling.Wire

open Bytes List

/-- The decoders. -/
inductive Decoder where
  | getMessageType
  | matrixPartition
  | deviceProfileData
  | deviceRegisterRequest
  | extractUMessage
  deriving DecidableEq, Repr

/-- The process is not ended, and all reads are inside the frame. -/
structure Run.Contained {α : Type*} (run : Run α) (size : Nat) : Prop where
  alive : ∀ what, run.result ≠ .error (.fatal what)
  inside : ∀ range ∈ run.reads, range.1 + range.2 ≤ size

/-- The matrices are inside `[lo, hi)`, each begins where the one before ends, no two overlap. -/
structure Tiles (lo hi : Nat) (mat : List (Nat × Int)) : Prop where
  inside : ∀ e ∈ mat, 0 ≤ e.2 ∧ lo ≤ e.1 ∧ e.1 + e.2 ≤ hi
  consecutive : mat.IsChain fun a b => (b.1 : Int) = a.1 + a.2
  disjoint : mat.Pairwise fun a b => (a.1 : Int) + a.2 ≤ b.1

/-! ## Placing the matrices -/

section Place
variable {lo hi : Nat} {p : Payload} {ps : List Payload}

/-- A matrix and the ones behind it. -/
theorem tiles_cons_iff (hlo : lo ≤ hi) :
    Tiles lo hi ((lo, p.size) :: placeMatrices (lo + p.size.toNat) ps) ↔
      0 ≤ p.size ∧ lo + p.size.toNat ≤ hi ∧
        Tiles (lo + p.size.toNat) hi (placeMatrices (lo + p.size.toNat) ps) := by
  constructor
  · rintro ⟨hin, hchain, hdisj⟩
    obtain ⟨hpos, -, hend⟩ := hin _ mem_cons_self
    obtain ⟨hfirst, hdisj⟩ := pairwise_cons.mp hdisj
    dsimp only at hpos hend
    refine ⟨hpos, by omega, fun e he => ?_, hchain.of_cons, hdisj⟩
    have := hin e (mem_cons_of_mem _ he)
    have := hfirst e he
    dsimp only at this
    omega
  · rintro ⟨hpos, hend, hin, hchain, hdisj⟩
    refine ⟨fun e he => ?_, ?_, pairwise_cons.mpr ⟨fun e he => ?_, hdisj⟩⟩
    · rcases mem_cons.mp he with rfl | he
      · dsimp only
        omega
      · have := hin e he
        omega
    · cases ps with
      | nil => exact .singleton _
      | cons q qs =>
        refine isChain_cons_cons.mpr ⟨?_, hchain⟩
        dsimp only
        omega
    · have := (hin e he).2.1
      dsimp only
      omega

/-- The placed matrices tile the area exactly when their sizes fit it. -/
theorem tiles_placeMatrices_iff (ps : List Payload) (hlo : lo ≤ hi) (hhi : hi < 2 ^ 64) :
    Tiles lo hi (placeMatrices lo ps) ↔
      (∀ p ∈ ps, 0 ≤ p.size) ∧ (ps.map (·.size)).sum ≤ (hi - lo : Int) := by
  induction ps generalizing lo with
  | nil =>
    refine ⟨fun _ => ⟨by simp, by simp; omega⟩, fun _ => ⟨by simp [placeMatrices], ?_, ?_⟩⟩
    · exact .nil
    · exact .nil
  | cons p ps ih =>
    have hsum : ((p :: ps).map (·.size)).sum = p.size + (ps.map (·.size)).sum := sum_cons
    -- without overflow the next matrix begins where this one ends
    have hnext : 0 ≤ p.size → lo + p.size.toNat ≤ hi →
        placeMatrices lo (p :: ps) = (lo, p.size) :: placeMatrices (lo + p.size.toNat) ps := by
      intro hpos hend
      rw [placeMatrices, Int.emod_eq_of_lt (by omega) (by omega)]
      congr 2
      omega
    constructor
    · intro htiles
      obtain ⟨hpos, -, hend⟩ := htiles.inside _ mem_cons_self
      dsimp only at hpos hend
      rw [hnext hpos (by omega), tiles_cons_iff hlo, ih (by omega)] at htiles
      obtain ⟨-, -, hall, hle⟩ := htiles
      refine ⟨fun q hq => ?_, by rw [hsum]; omega⟩
      rcases mem_cons.mp hq with rfl | hq
      · exact hpos
      · exact hall q hq
    · rintro ⟨hall, hle⟩
      have hpos := hall p mem_cons_self
      have hrest : ∀ q ∈ ps, 0 ≤ q.size := fun q hq => hall q (mem_cons_of_mem _ hq)
      have hnonneg : 0 ≤ (ps.map (·.size)).sum :=
        sum_nonneg (by simpa using hrest)
      rw [hsum] at hle
      rw [hnext hpos (by omega), tiles_cons_iff hlo, ih (by omega)]
      exact ⟨hpos, by omega, hrest, by omega⟩

end Place

/-! ## Decoders -/

section Decoders
variable (parse : List UInt8 → Option UMessage) (data : Nat → UInt8) (size : Nat)

/-- What is asked of a decoder on the frame of `size` bytes at `data`. -/
def Decoder.Safe : Decoder → Prop
  | .getMessageType => (Wire.getMessageType parse (some data) size).Contained size
  | .matrixPartition =>
    (deserializePartition parse (some data) size).Contained size ∧
      ∀ p, (deserializePartition parse (some data) size).result = .ok p →
        Tiles (16 + (headerOf data).protoSize)
          (16 + (headerOf data).protoSize + (headerOf data).tensorSize) p.mat
  | .deviceProfileData => (deserializeProfile parse (some data) size).Contained size
  | .deviceRegisterRequest => (deserializeRegisterRequest parse (some data) size).Contained size
  | .extractUMessage => (Wire.extractUMessage parse (some data) size).Contained size

/-- The matrices that the protobuf message of the frame declares fit the tensors. -/
def MatricesFit : Prop :=
  ∀ umsg ∈ parse (peek data 16 (headerOf data).protoSize), ∀ m ∈ umsg.computeGemmData,
    (∀ p ∈ m.matrices, 0 ≤ p.size) ∧ (m.matrices.map (·.size)).sum ≤ (headerOf data).tensorSize

/-- The frames on which a decoder is safe. -/
def Decoder.Bounded : Decoder → Prop
  | .getMessageType | .extractUMessage =>
    size < 16 ∨ (headerOf data).BadProto ∨ 16 + (headerOf data).protoSize ≤ size
  | .deviceProfileData | .deviceRegisterRequest =>
    size < 16 ∨ ¬ (headerOf data).BadProto ∧ 16 + (headerOf data).protoSize ≤ size
  | .matrixPartition =>
    size < 16 ∨ ¬ (headerOf data).BadProto ∧ (headerOf data).tensorSize ≤ maxTensorSize ∧
      (size < 16 + (headerOf data).protoSize + (headerOf data).tensorSize ∨ MatricesFit parse data)

variable {parse data size}

section Contained
variable {α : Type*} {reads : List (Nat × Nat)} {what : String}

@[simp] theorem contained_ok_iff {a : α} : Run.Contained ⟨.ok a, reads⟩ size ↔
    ∀ range ∈ reads, range.1 + range.2 ≤ size :=
  ⟨fun h => h.inside, fun h => ⟨nofun, h⟩⟩

@[simp] theorem contained_throw_iff :
    Run.Contained ⟨(.error (.throw what) : Except Failure α), reads⟩ size ↔
      ∀ range ∈ reads, range.1 + range.2 ≤ size :=
  ⟨fun h => h.inside, fun h => ⟨nofun, h⟩⟩

@[simp] theorem not_contained_fatal :
    ¬ Run.Contained ⟨(.error (.fatal what) : Except Failure α), reads⟩ size :=
  fun h => h.alive what rfl

end Contained

/-- The reads of the header and of the protobuf message. -/
theorem inside_header (h : ¬ size < 16) :
    ∀ range ∈ [(0, 4), (4, 4), (8, 8)], range.1 + range.2 ≤ size := by
  simp
  omega

theorem inside_parse_iff (h : ¬ size < 16) {n : Nat} :
    (∀ range ∈ [(0, 4), (4, 4), (8, 8)] ++ [(16, n)], range.1 + range.2 ≤ size) ↔
      16 + n ≤ size := by
  simp
  omega

theorem getMessageType_contained_iff : (getMessageType parse (some data) size).Contained size ↔
    Decoder.getMessageType.Bounded parse data size := by
  unfold getMessageType Decoder.Bounded
  simp only [readHeader_eq, parseFromArray_eq]
  by_cases hsmall : size < 16
  · simp [hsmall]
  by_cases hbad : (headerOf data).BadProto
  · simpa [hsmall, hbad] using inside_header hsmall
  cases parse (peek data 16 (headerOf data).protoSize) with
  | none => simp only [hsmall, hbad, if_false, contained_ok_iff, inside_parse_iff hsmall, false_or]
  | some umsg =>
    simp only [hsmall, hbad, if_false, contained_ok_iff, inside_parse_iff hsmall, false_or]

theorem extractUMessage_contained_iff : (extractUMessage parse (some data) size).Contained size ↔
    Decoder.extractUMessage.Bounded parse data size := by
  unfold extractUMessage Decoder.Bounded
  simp only [readHeader_eq, parseFromArray_eq]
  by_cases hsmall : size < 16
  · simp [hsmall]
  by_cases hbad : (headerOf data).BadProto
  · simpa [hsmall, hbad] using inside_header hsmall
  simp only [hsmall, hbad, if_false, contained_ok_iff, inside_parse_iff hsmall, false_or]

/-- The decoders of messages without tensors end the process on a bad length. -/
theorem deserializeMessage_contained_iff {α : Type*} {name extension : String}
    {get : UMessage → Option α} :
    (deserializeMessage parse (some data) size name extension get).Contained size ↔
      size < 16 ∨ ¬ (headerOf data).BadProto ∧ 16 + (headerOf data).protoSize ≤ size := by
  unfold deserializeMessage
  simp only [readHeader_eq, parseFromArray_eq]
  by_cases hsmall : size < 16
  · simp [hsmall]
  by_cases hbad : (headerOf data).BadProto
  · simp [hsmall, hbad]
  simp only [hsmall, hbad, if_false, false_or, not_false_eq_true, true_and]
  cases parse (peek data 16 (headerOf data).protoSize) with
  | none => exact contained_throw_iff.trans (inside_parse_iff hsmall)
  | some umsg =>
    dsimp only
    cases get umsg with
    | none => exact contained_throw_iff.trans (inside_parse_iff hsmall)
    | some a => exact contained_ok_iff.trans (inside_parse_iff hsmall)

/-- The checks of `MatrixPartition::DeserializeProto` leave only the sizes of the matrices. -/
theorem deserializePartition_safe_iff : Decoder.matrixPartition.Safe parse data size ↔
    Decoder.matrixPartition.Bounded parse data size := by
  unfold Decoder.Safe deserializePartition Decoder.Bounded
  simp only [readHeader_eq, parseFromArray_eq]
  by_cases hsmall : size < 16
  · simp [hsmall]
  by_cases hbad : (headerOf data).BadProto
  · simp [hsmall, hbad]
  by_cases htensor : (headerOf data).tensorSize > maxTensorSize
  · simp [hsmall, hbad, htensor]
  have htensor' : (headerOf data).tensorSize ≤ maxTensorSize := Nat.le_of_not_lt htensor
  by_cases hlong : 16 + (headerOf data).protoSize + (headerOf data).tensorSize > size
  · simp only [hsmall, hbad, htensor, htensor', hlong, if_false, if_true, not_false_eq_true,
      true_and, true_or, or_true, iff_true]
    exact ⟨contained_throw_iff.mpr (inside_header hsmall), by simp⟩
  have hinside := (inside_parse_iff hsmall (n := (headerOf data).protoSize)).mpr (by omega)
  simp only [hsmall, hbad, htensor, htensor', hlong, if_false, not_false_eq_true, true_and,
    false_or]
  unfold MatricesFit
  cases parse (peek data 16 (headerOf data).protoSize) with
  | none => exact iff_of_true ⟨contained_throw_iff.mpr hinside, by simp⟩ (by simp)
  | some umsg =>
    simp only [Option.mem_some_iff, forall_eq']
    cases umsg.computeGemmData with
    | none => exact iff_of_true ⟨contained_throw_iff.mpr hinside, by simp⟩ (by simp)
    | some m =>
      have hproto : (headerOf data).protoSize ≤ maxProtoSize := by
        unfold Header.BadProto at hbad
        omega
      have htiles := tiles_placeMatrices_iff m.matrices
        (show 16 + (headerOf data).protoSize ≤
          16 + (headerOf data).protoSize + (headerOf data).tensorSize by omega)
        (by unfold maxProtoSize at hproto; unfold maxTensorSize at htensor'; omega)
      simp only [contained_ok_iff, Option.mem_some_iff, forall_eq', Except.ok.injEq]
      rw [and_iff_right hinside]
      refine htiles.trans ?_
      have harea : ((16 + (headerOf data).protoSize + (headerOf data).tensorSize : Nat) -
          (16 + (headerOf data).protoSize : Nat) : Int) = (headerOf data).tensorSize := by omega
      rw [harea]

/-- Which frames each decoder treats safely. -/
theorem Decoder.safe_iff (dec : Decoder) (parse : List UInt8 → Option UMessage)
    (data : Nat → UInt8) (size : Nat) :
    dec.Safe parse data size ↔ dec.Bounded parse data size := by
  cases dec with
  | getMessageType => exact getMessageType_contained_iff
  | matrixPartition => exact deserializePartition_safe_iff
  | deviceProfileData => exact deserializeMessage_contained_iff
  | deviceRegisterRequest => exact deserializeMessage_contained_iff
  | extractUMessage => exact extractUMessage_contained_iff

/-- A frame of 16 bytes: its prefix is 12, the length of its protobuf message `n`. -/
def shortFrame (n : UInt8) (i : Nat) : UInt8 := [0, 0, 0, 12, n].getD i 0

theorem headerOf_shortFrame :
    headerOf (shortFrame 1) = ⟨12, 1, 0⟩ ∧ headerOf (shortFrame 0) = ⟨12, 0, 0⟩ := by decide

/-- A protobuf message of one byte is read behind the frame, and its type returned; a length of 0
ends the process. -/
theorem shortFrame_unsafe :
    (16 = 4 + (headerOf (shortFrame 1)).payloadSize ∧
      (Wire.getMessageType (fun _ => some { messageType := 7 }) (some (shortFrame 1)) 16).result =
        .ok 7 ∧
      (16, 1) ∈
        (Wire.getMessageType (fun _ => some { messageType := 7 }) (some (shortFrame 1)) 16).reads ∧
      ¬ Decoder.getMessageType.Safe (fun _ => some { messageType := 7 }) (shortFrame 1) 16) ∧
    (16 = 4 + (headerOf (shortFrame 0)).payloadSize ∧
      (deserializePartition (fun _ => none) (some (shortFrame 0)) 16).result =
        .error (.fatal "Invalid proto_size=0") ∧
      ¬ Decoder.matrixPartition.Safe (fun _ => none) (shortFrame 0) 16) := by
  obtain ⟨h₁, h₀⟩ := headerOf_shortFrame
  have hgood : ¬ (⟨12, 1, 0⟩ : Header).BadProto := by decide
  have hbad : (⟨12, 0, 0⟩ : Header).BadProto := by decide
  refine ⟨⟨by simp [h₁], ?_, ?_, fun h => ?_⟩, by simp [h₀], ?_, fun h => ?_⟩
  · simp [Wire.getMessageType, readHeader_eq, parseFromArray_eq, h₁, hgood]
  · simp [Wire.getMessageType, readHeader_eq, parseFromArray_eq, h₁, hgood]
  · have hinside := h.inside (16, 1)
    simp [Wire.getMessageType, readHeader_eq, parseFromArray_eq, h₁, hgood] at hinside
  · simp [deserializePartition, readHeader_eq, h₀, hbad]
    rfl
  · have halive := h.1.alive "Invalid proto_size=0"
    simp [deserializePartition, readHeader_eq, h₀, hbad] at halive
    exact halive rfl

end Decoders

end Morphling.Wire
