import Morphling.Lib.Dict
import Morphling.Lib.Fields

/-!
# The index file (`archer_tensor_index.cpp`, `archer_tensor_handle.cpp`)

`OffloadTensor` writes the whole index again, over the old file, and the constructor of a handle
reads it back. The reader does not look at the state of the stream: where the file ends early, the
variables keep what they had. Those of a shape are zero before, the options have their defaults, and
the others are not initialised.

* `serialize`, `deserialize`: the writer and the reader. `Memory` is what the variables have before
  they are read.
* `deserialize_serialize`: a whole file is read back, whatever was in the variables, and in whatever
  order the map gave its items (`exists_deserialize_serialize`).
* `kept_iff`: which interrupted writes a handle survives that is opened on them. Nearly none: the
  file has to be whole, or to lack only bytes of the last tensor that are as the reader presets them,
  and then the call must have been for a tensor that was in the index before.

`id` is not written; `tensor` and `device` are not, either. They are left out.
-/

namespace Morphling.Checkpoint.IndexFile

open Fields List

/-! ## The variables -/

def uint32 : Fields.Field UInt32 :=
  .ofNat 4 UInt32.toNat UInt32.ofNat UInt32.toNat_lt (fun _ => UInt32.ofNat_toNat)
    fun _ h => UInt32.toNat_ofNat_of_lt' h

/-- `std::size_t` -/
def uint64 : Fields.Field UInt64 :=
  .ofNat 8 UInt64.toNat UInt64.ofNat UInt64.toNat_lt (fun _ => UInt64.ofNat_toNat)
    fun _ h => UInt64.toNat_ofNat_of_lt' h

def int64 : Fields.Field Int64 :=
  .ofNat 8 (fun a => a.toUInt64.toNat) (fun n => (UInt64.ofNat n).toInt64)
    (fun a => a.toUInt64.toNat_lt)
    (fun a => by rw [UInt64.ofNat_toNat, Int64.toInt64_toUInt64])
    fun n h => by rw [UInt64.toUInt64_toInt64, UInt64.toNat_ofNat_of_lt' h]

def int8 : Fields.Field Int8 :=
  .ofNat 1 (fun a => a.toUInt8.toNat) (fun n => (UInt8.ofNat n).toInt8)
    (fun a => a.toUInt8.toNat_lt)
    (fun a => by rw [UInt8.ofNat_toNat, Int8.toInt8_toUInt8])
    fun n h => by rw [UInt8.toUInt8_toInt8, UInt8.toNat_ofNat_of_lt' h]

def bool : Fields.Field Bool where
  width := 1
  toBytes b := [if b then 1 else 0]
  ofBytes bs := bs.head? ≠ some 0
  length_toBytes _ := rfl
  ofBytes_toBytes b := by cases b <;> decide
  mixed k a b h := by
    cases k with
    | zero => cases a <;> cases b <;> simp_all
    | succ k => simp

/-! ## The writer -/

/-- `torch::TensorOptions` -/
structure TensorOptions where
  pinnedMemory : Bool
  requiresGrad : Bool
  dtype : Int8
  deviceIndex : Int8
  deviceType : Int8
  layout : Int8
  deriving DecidableEq

structure TensorStorageMeta where
  fileId : UInt32
  offset : Int64
  size : UInt64
  shape : List Int64
  options : TensorOptions
  deriving DecidableEq

def writeOptions (obj : TensorOptions) : List UInt8 :=
  bool.toBytes obj.pinnedMemory ++ (bool.toBytes obj.requiresGrad ++ (int8.toBytes obj.dtype ++
    (int8.toBytes obj.deviceIndex ++ (int8.toBytes obj.deviceType ++ int8.toBytes obj.layout))))

/-- The dimensions and the options of a tensor. -/
def payload (obj : TensorStorageMeta) : List UInt8 :=
  obj.shape.flatMap int64.toBytes ++ writeOptions obj.options

/-- `operator<<` -/
def writeMeta (obj : TensorStorageMeta) : List UInt8 :=
  uint32.toBytes obj.fileId ++ (int64.toBytes obj.offset ++ (uint64.toBytes obj.size ++
    (int64.toBytes (Int64.ofNat obj.shape.length) ++ payload obj)))

def writeEntry (item : UInt32 × TensorStorageMeta) : List UInt8 :=
  uint32.toBytes item.1 ++ writeMeta item.2

/-- The map, in the order in which it gives its items. -/
abbrev ArcherTensorIndex := List (UInt32 × TensorStorageMeta)

/-- `Serialize` -/
def serialize (items : ArcherTensorIndex) : List UInt8 :=
  uint32.toBytes (UInt32.ofNat items.length) ++ items.flatMap writeEntry

/-! ## The reader -/

/-- What the reader takes from its process. -/
structure Host where
  /-- The longest shape that `resize` has room for. -/
  room : Nat
  room_lt : room < 2 ^ 63
  /-- `torch::TensorOptions()` -/
  defaults : TensorOptions

/-- The variables of one round of the loop that nothing initialises. -/
structure Locals where
  key : UInt32
  fileId : UInt32
  offset : Int64
  size : UInt64
  shapeSize : Int64
  deriving Inhabited

/-- What the variables of `Deserialize` have before they are read. -/
structure Memory where
  size : UInt32
  locals : Nat → Locals

def readOptions (obj : TensorOptions) (rest : List UInt8) : TensorOptions × List UInt8 :=
  let (pinnedMemory, rest) := bool.read obj.pinnedMemory rest
  let (requiresGrad, rest) := bool.read obj.requiresGrad rest
  let (dtype, rest) := int8.read obj.dtype rest
  let (deviceIndex, rest) := int8.read obj.deviceIndex rest
  let (deviceType, rest) := int8.read obj.deviceType rest
  let (layout, rest) := int8.read obj.layout rest
  (⟨pinnedMemory, requiresGrad, dtype, deviceIndex, deviceType, layout⟩, rest)

variable (host : Host)

/-- `operator>>`, `none` where `resize` throws. -/
def readMeta (l : Locals) (rest : List UInt8) : Option (TensorStorageMeta × List UInt8) :=
  let (fileId, rest) := uint32.read l.fileId rest
  let (offset, rest) := int64.read l.offset rest
  let (size, rest) := uint64.read l.size rest
  let (shapeSize, rest) := int64.read l.shapeSize rest
  let dims := shapeSize.toUInt64.toNat
  if host.room < dims then none
  else
    let (shape, rest) := int64.readList (List.replicate dims 0) rest
    let (options, rest) := readOptions host.defaults rest
    some (⟨fileId, offset, size, shape, options⟩, rest)

/-- `insert` keeps the value of a key that is there. -/
def insert (key : UInt32) (value : TensorStorageMeta) (index : ArcherTensorIndex) :
    ArcherTensorIndex :=
  if key ∈ Dict.keys index then index else index ++ [(key, value)]

/-- The loop of `Deserialize`. -/
def readEntries : Nat → (Nat → Locals) → ArcherTensorIndex → List UInt8 →
    Option ArcherTensorIndex
  | 0, _, index, _ => some index
  | n + 1, locals, index, rest =>
    let (key, rest) := uint32.read (locals 0).key rest
    match readMeta host (locals 0) rest with
    | none => none
    | some (value, rest) => readEntries n (fun i => locals (i + 1)) (insert key value index) rest

/-- `Deserialize`, `none` where an exception leaves it. -/
def deserialize (mem : Memory) (bytes : List UInt8) : Option ArcherTensorIndex :=
  let (size, rest) := uint32.read mem.size bytes
  readEntries host size.toNat mem.locals [] rest

/-! ## The handle -/

/-- How the constructor ends. -/
inductive Opened where
  /-- "Index file … does not exist, creating" -/
  | noIndex
  | threw
  | loaded (index : ArcherTensorIndex)
  deriving DecidableEq

/-- The constructor, on the bytes of the index file. -/
def openHandle (mem : Memory) : Option (List UInt8) → Opened
  | none => .noIndex
  | some bytes =>
    match deserialize host mem bytes with
    | none => .threw
    | some index => .loaded index

/-- The index that `StoreTensor` leaves; `none` where a size mismatch ends the process. -/
def storeTensor (index : ArcherTensorIndex) (tensorId : UInt32)
    (tensorMeta : TensorStorageMeta) : Option ArcherTensorIndex :=
  match index.lookup tensorId with
  | some found => if found.size ≠ tensorMeta.size then none else some index
  | none => some (insert tensorId tensorMeta index)

/-- All entries of the index that is loaded, if one is, were stored by completed calls, and nothing
that those stored is lost. -/
inductive Kept (completed : ArcherTensorIndex) : Opened → Prop
  | noIndex (h : completed = []) : Kept completed .noIndex
  | threw (h : completed = []) : Kept completed .threw
  | loaded {index : ArcherTensorIndex} (h : ∀ e, e ∈ index ↔ e ∈ completed) :
    Kept completed (.loaded index)

variable {index completed : ArcherTensorIndex}

theorem Kept.mem_iff (h : Kept completed (.loaded index)) (e : UInt32 × TensorStorageMeta) :
    e ∈ index ↔ e ∈ completed := by
  cases h with
  | loaded h => exact h e

/-- The bytes of the dimensions and the options before the reader reads them. -/
def preset (obj : TensorStorageMeta) : List UInt8 :=
  (List.replicate obj.shape.length 0).flatMap int64.toBytes ++ writeOptions host.defaults

/-! ## A cut stream -/

@[simp] theorem width_uint32 : uint32.width = 4 := rfl

@[simp] theorem width_uint64 : uint64.width = 8 := rfl

@[simp] theorem width_int64 : int64.width = 8 := rfl

theorem toBytes_int64 (a : Int64) : int64.toBytes a = Bytes.toLE 8 a.toUInt64.toNat := rfl

@[simp] theorem width_int8 : int8.width = 1 := rfl

@[simp] theorem width_bool : bool.width = 1 := rfl

@[simp] theorem length_writeOptions (obj : TensorOptions) : (writeOptions obj).length = 6 := by
  simp [writeOptions]

@[simp] theorem length_payload (obj : TensorStorageMeta) :
    (payload obj).length = 8 * obj.shape.length + 6 := by
  rw [payload, length_append, int64.length_flatMap_toBytes, length_writeOptions, width_int64]

@[simp] theorem length_preset (obj : TensorStorageMeta) :
    (preset host obj).length = 8 * obj.shape.length + 6 := by
  rw [preset, length_append, int64.length_flatMap_toBytes, length_writeOptions, width_int64,
    length_replicate]

@[simp] theorem length_writeMeta (obj : TensorStorageMeta) :
    (writeMeta obj).length = 28 + (8 * obj.shape.length + 6) := by
  simp [writeMeta]
  omega

theorem length_writeEntry (item : UInt32 × TensorStorageMeta) :
    (writeEntry item).length = 32 + (8 * item.2.shape.length + 6) := by
  simp [writeEntry]
  omega

theorem readOptions_take (old obj : TensorOptions) (more : List UInt8) (k : Nat) :
    (readOptions old ((writeOptions obj ++ more).take k)).2 = more.take (k - 6) ∧
      ((readOptions old ((writeOptions obj ++ more).take k)).1 = obj ↔
        (writeOptions old).drop k = (writeOptions obj).drop k) := by
  simp only [writeOptions, append_assoc, readOptions, Field.read_take, width_bool, width_int8,
    Nat.sub_sub, true_and]
  rw [TensorOptions.mk.injEq]
  simp only [Field.ofBytes_mixed_iff]
  rw [drop_append_eq_iff (by simp), drop_append_eq_iff (by simp), drop_append_eq_iff (by simp),
    drop_append_eq_iff (by simp), drop_append_eq_iff (by simp)]
  simp only [Field.length_toBytes, width_bool, width_int8, Nat.sub_sub]

/-- The variables that already have what will be read. -/
def Locals.of (item : UInt32 × TensorStorageMeta) : Locals :=
  ⟨item.1, item.2.fileId, item.2.offset, item.2.size, Int64.ofNat item.2.shape.length⟩

theorem toNat_dims {n : Nat} (h : n ≤ host.room) : (Int64.ofNat n).toUInt64.toNat = n := by
  have hroom := host.room_lt
  exact UInt64.toNat_ofNat_of_lt' (by simp only [UInt64.size]; omega)

variable {k : Nat} {obj : TensorStorageMeta}

/-- The shape and the options of a tensor come back exactly where those that are cut off are as they
were preset. -/
theorem readMeta_take (hfit : obj.shape.length ≤ host.room) {key : UInt32} {l : Locals}
    (h : l = Locals.of (key, obj) ∨ 28 ≤ k) (more : List UInt8) :
    ∃ value, readMeta host l ((writeMeta obj ++ more).take k) =
        some (value, more.take (k - (writeMeta obj).length)) ∧
      (value = obj ↔ (preset host obj).drop (k - 28) = (payload obj).drop (k - 28)) := by
  have hfileId : l.fileId = obj.fileId ∨ uint32.width ≤ k :=
    h.imp (fun h => by rw [h]; rfl) fun h => by simp; omega
  have hoffset : l.offset = obj.offset ∨ int64.width ≤ k - 4 :=
    h.imp (fun h => by rw [h]; rfl) fun h => by simp; omega
  have hsize : l.size = obj.size ∨ uint64.width ≤ k - 12 :=
    h.imp (fun h => by rw [h]; rfl) fun h => by simp; omega
  have hshape : l.shapeSize = Int64.ofNat obj.shape.length ∨ int64.width ≤ k - 20 :=
    h.imp (fun h => by rw [h]; rfl) fun h => by simp; omega
  have hlen : (List.replicate obj.shape.length (0 : Int64)).length = obj.shape.length :=
    length_replicate
  obtain ⟨hdimsRest, hdimsEq⟩ :=
    int64.readList_take hlen (writeOptions obj.options ++ more) (k - 28)
  obtain ⟨hoptRest, hoptEq⟩ :=
    readOptions_take host.defaults obj.options more (k - 28 - 8 * obj.shape.length)
  rw [length_writeMeta]
  simp only [readMeta, writeMeta, payload, append_assoc, uint32.read_take_of hfileId,
    int64.read_take_of hoffset, uint64.read_take_of hsize, int64.read_take_of hshape, width_uint32,
    width_uint64, width_int64, Nat.sub_sub, toNat_dims host hfit, if_neg (Nat.not_lt.mpr hfit)]
  simp only [width_int64] at hdimsRest
  have hpos : k - 28 - 8 * obj.shape.length - 6 = k - (28 + (8 * obj.shape.length + 6)) := by omega
  rw [hdimsRest, hoptRest, hpos]
  refine ⟨_, rfl, ?_⟩
  rw [TensorStorageMeta.mk.injEq, preset, drop_append_eq_iff (by simp), hdimsEq, hoptEq,
    int64.length_flatMap_toBytes, hlen, width_int64]
  simp only [true_and]

/-- A number of dimensions that no memory has room for, and that differs from the right one in its
last byte only. -/
def tooMany (obj : TensorStorageMeta) : Int64 :=
  (UInt64.ofNat (obj.shape.length + 2 ^ 63)).toInt64

/-- Where the number of dimensions is cut, its last byte can be anything. -/
theorem readMeta_take_none (hfit : obj.shape.length ≤ host.room) (key : UInt32) (hk : k < 28)
    (more : List UInt8) :
    readMeta host { Locals.of (key, obj) with shapeSize := tooMany obj }
      ((writeMeta obj ++ more).take k) = none := by
  have hroom := host.room_lt
  have hmany : (tooMany obj).toUInt64.toNat = obj.shape.length + 2 ^ 63 := by
    rw [tooMany, UInt64.toUInt64_toInt64,
      UInt64.toNat_ofNat_of_lt' (by simp only [UInt64.size]; omega)]
  have hlow : (int64.toBytes (Int64.ofNat obj.shape.length)).take (k - 20) =
      (int64.toBytes (tooMany obj)).take (k - 20) := by
    have hpow : 2 ^ 63 = 256 ^ (k - 20) * (256 ^ (7 - (k - 20)) * 128) := by
      rw [← Nat.mul_assoc, ← Nat.pow_add, Nat.add_sub_cancel' (by omega)]
      decide
    rw [toBytes_int64, toBytes_int64, Bytes.take_toLE (by omega), Bytes.take_toLE (by omega), hmany,
      toNat_dims host hfit, hpow, Bytes.toLE_add_mul]
  have hread : int64.read (tooMany obj)
      ((int64.toBytes (Int64.ofNat obj.shape.length) ++ (payload obj ++ more)).take (k - 20)) =
      (tooMany obj, (payload obj ++ more).take (k - 20 - 8)) := by
    rw [Field.read_take, hlow, take_append_drop, Field.ofBytes_toBytes, width_int64]
  simp only [readMeta, writeMeta, Locals.of, append_assoc, uint32.read_take_of (.inl rfl),
    int64.read_take_of (.inl rfl), uint64.read_take_of (.inl rfl), width_uint32, width_uint64,
    width_int64, Nat.sub_sub, hread, hmany]
  exact if_pos (by omega)

/-- One round of the loop, over an item that is read whole up to its shape, or into variables that had
it before. -/
theorem readEntries_cons {e : UInt32 × TensorStorageMeta} (hfit : e.2.shape.length ≤ host.room)
    (locals : Nat → Locals) (h : locals 0 = Locals.of e ∨ 32 ≤ k) (hnew : e.1 ∉ Dict.keys index)
    (n : Nat) (more : List UInt8) :
    ∃ value, readEntries host (n + 1) locals index ((writeEntry e ++ more).take k) =
        readEntries host n (fun i => locals (i + 1)) (index ++ [(e.1, value)])
          (more.take (k - (writeEntry e).length)) ∧
      (value = e.2 ↔ (preset host e.2).drop (k - 32) = (payload e.2).drop (k - 32)) := by
  have hpos : k - 4 - (writeMeta e.2).length = k - (writeEntry e).length := by
    rw [length_writeMeta, length_writeEntry]
    omega
  have hkey : (locals 0).key = e.1 ∨ uint32.width ≤ k :=
    h.imp (fun h => by rw [h]; rfl) fun h => by rw [width_uint32]; omega
  have hmeta : locals 0 = Locals.of e ∨ 28 ≤ k - 4 := h.imp_right fun h => by omega
  obtain ⟨value, hread, hvalue⟩ := readMeta_take host hfit hmeta more
  rw [Nat.sub_sub] at hvalue
  refine ⟨value, ?_, hvalue⟩
  rw [readEntries]
  simp only [writeEntry, append_assoc, uint32.read_take_of hkey, width_uint32, hread, hpos,
    insert, if_neg hnew]

variable {items : ArcherTensorIndex}

/-- The loop over items that are read whole, or into variables that had them before. -/
theorem readEntries_append (hfit : ∀ e ∈ items, e.2.shape.length ≤ host.room)
    (locals : Nat → Locals)
    (h : (∀ i e, items[i]? = some e → locals i = Locals.of e) ∨
      (items.flatMap writeEntry).length ≤ k) (index : ArcherTensorIndex)
    (hnodup : (Dict.keys index ++ Dict.keys items).Nodup) (n : Nat) (more : List UInt8) :
    ∃ loaded, Dict.keys loaded = Dict.keys items ∧
      ((items.flatMap writeEntry).length ≤ k → loaded = items) ∧
      readEntries host (items.length + n) locals index ((items.flatMap writeEntry ++ more).take k) =
        readEntries host n (fun i => locals (i + items.length)) (index ++ loaded)
          (more.take (k - (items.flatMap writeEntry).length)) := by
  induction items generalizing locals k index with
  | nil => exact ⟨[], rfl, fun _ => rfl, by simp⟩
  | cons e items ih =>
    have hlen := length_writeEntry e
    rw [flatMap_cons, length_append] at h ⊢
    have hnew : e.1 ∉ Dict.keys index := fun hmem =>
      (List.nodup_append.mp hnodup).2.2 e.1 hmem e.1 (by simp [Dict.keys]) rfl
    obtain ⟨value, hround, hvalue⟩ := readEntries_cons host (hfit e mem_cons_self)
      locals (h.imp (fun h => h 0 e rfl) (fun h => (by omega : 32 ≤ k))) hnew (items.length + n)
      (items.flatMap writeEntry ++ more)
    have hnodup' : (Dict.keys (index ++ [(e.1, value)]) ++ Dict.keys items).Nodup := by
      simpa [Dict.keys] using hnodup
    obtain ⟨loaded, hkeys, hwhole, hloop⟩ := ih (fun e he => hfit e (mem_cons_of_mem _ he)) _
      (h.imp (fun h i e' hi => h (i + 1) e' hi)
        (fun h => (by omega : (items.flatMap writeEntry).length ≤ k - (writeEntry e).length)))
      _ hnodup'
    refine ⟨(e.1, value) :: loaded, congrArg (e.1 :: ·) hkeys, fun hk => ?_, ?_⟩
    · have hall : value = e.2 := hvalue.mpr (by
        rw [drop_eq_nil_of_le (by rw [length_preset]; omega),
          drop_eq_nil_of_le (by rw [length_payload]; omega)])
      rw [hwhole (by omega), hall]
    · have hn : (e :: items).length + n = items.length + n + 1 := by
        rw [length_cons]
        omega
      rw [hn, append_assoc, hround, hloop, append_assoc, Nat.sub_sub]
      rfl

/-! ## Opening a file -/

/-- The number of items is read, and then the items. -/
theorem deserialize_take {mem : Memory} (h : mem.size = UInt32.ofNat items.length ∨ 4 ≤ k) :
    deserialize host mem ((serialize items).take k) =
      readEntries host (items.length % 2 ^ 32) mem.locals []
        ((items.flatMap writeEntry).take (k - 4)) := by
  have hsize := uint32.read_take_of h (items.flatMap writeEntry)
  simp only [deserialize, serialize, hsize, width_uint32, UInt32.toNat_ofNat']

/-- An index that a file can hold, and that the reader has room for. -/
structure Writable (items : ArcherTensorIndex) : Prop where
  nodup : (Dict.keys items).Nodup
  fit : ∀ e ∈ items, e.2.shape.length ≤ host.room
  count : items.length < 2 ^ 32

/-- A whole file is read back, whatever was in the variables. -/
theorem deserialize_serialize (h : Writable host items) (mem : Memory) :
    deserialize host mem (serialize items) = some items := by
  have hwhole : serialize items = (serialize items).take (4 + (items.flatMap writeEntry).length) := by
    rw [take_of_length_le]
    simp [serialize]
  rw [hwhole, deserialize_take host (.inr (by omega)), Nat.mod_eq_of_lt h.count]
  obtain ⟨loaded, -, hall, hloop⟩ := readEntries_append host h.fit mem.locals
    (.inr (Nat.le_refl _)) [] h.nodup 0 []
  rw [append_nil, Nat.add_zero] at hloop
  rw [Nat.add_sub_cancel_left, hloop, hall (Nat.le_refl _)]
  rfl

/-- The variables already have what will be read. -/
def Memory.Has (mem : Memory) (items : ArcherTensorIndex) : Prop :=
  mem.size = UInt32.ofNat items.length ∧ ∀ i e, items[i]? = some e → mem.locals i = Locals.of e

def Memory.of (items : ArcherTensorIndex) : Memory :=
  ⟨UInt32.ofNat items.length, fun i => (items[i]?.map Locals.of).getD default⟩

theorem Memory.of_has (items : ArcherTensorIndex) : (Memory.of items).Has items :=
  ⟨rfl, fun i e h => by simp only [Memory.of, h, Option.map_some, Option.getD_some]⟩

/-- Where the dimensions begin of the item after `items`. -/
def payloadStart (items : ArcherTensorIndex) : Nat := 4 + (items.flatMap writeEntry).length + 32

section LastItem

variable {host} {items : ArcherTensorIndex} {e : UInt32 × TensorStorageMeta}
  (hw : Writable host (items ++ [e]))
include hw

theorem Writable.nodup_append : (Dict.keys items ++ [e.1]).Nodup := by
  simpa [Dict.keys] using hw.nodup

theorem Writable.fit_left (e' : UInt32 × TensorStorageMeta) (h : e' ∈ items) :
    e'.2.shape.length ≤ host.room :=
  hw.fit e' (mem_append_left _ h)

theorem Writable.fit_last : e.2.shape.length ≤ host.room := hw.fit e (by simp)

/-- The whole file, and at most the last item cut, behind the number of its dimensions. -/
theorem Writable.deserialize_concat (mem : Memory)
    (h : mem.Has (items ++ [e]) ∨ payloadStart items ≤ k) :
    ∃ loaded value, Dict.keys loaded = Dict.keys items ∧
      (payloadStart items ≤ k → loaded = items) ∧
      (value = e.2 ↔ (preset host e.2).drop (k - payloadStart items) =
        (payload e.2).drop (k - payloadStart items)) ∧
      deserialize host mem ((serialize (items ++ [e])).take k) = some (loaded ++ [(e.1, value)]) := by
  obtain ⟨hitems, -, hlast⟩ := List.nodup_append.mp hw.nodup_append
  simp only [payloadStart] at h ⊢
  have hsize : mem.size = UInt32.ofNat (items ++ [e]).length ∨ 4 ≤ k :=
    h.imp (fun h => h.1) fun h => by omega
  have hbefore : (∀ i e', items[i]? = some e' → mem.locals i = Locals.of e') ∨
      (items.flatMap writeEntry).length ≤ k - 4 :=
    h.imp (fun h i e' hi => h.2 i e' (hi ▸ getElem?_append_left (List.getElem?_eq_some_iff.mp hi).1))
      fun h => by omega
  rw [deserialize_take host hsize, Nat.mod_eq_of_lt hw.count]
  obtain ⟨loaded, hkeys, hall, hloop⟩ :=
    readEntries_append host hw.fit_left mem.locals hbefore [] hitems 1 (writeEntry e)
  have hnew : e.1 ∉ Dict.keys loaded := fun hmem =>
    hlast e.1 (hkeys ▸ hmem) e.1 mem_cons_self rfl
  have hround : mem.locals (0 + items.length) = Locals.of e ∨
      32 ≤ k - 4 - (items.flatMap writeEntry).length :=
    h.imp (fun h => h.2 _ e (by simp)) fun h => by omega
  obtain ⟨value, hread, hvalue⟩ := readEntries_cons host hw.fit_last
    (fun i => mem.locals (i + items.length)) hround hnew 0 []
  rw [Nat.sub_sub, Nat.sub_sub] at hvalue
  refine ⟨loaded, value, hkeys, fun hk => hall (by omega), hvalue, ?_⟩
  rw [append_nil] at hread
  rw [length_append, flatMap_append, flatMap_singleton]
  exact hloop.trans hread

/-- A file that is cut before the last number of dimensions can make the reader throw. -/
theorem Writable.exists_deserialize_none (hk : k < payloadStart items) :
    ∃ mem, deserialize host mem ((serialize (items ++ [e])).take k) = none := by
  rw [payloadStart] at hk
  let locals : Nat → Locals := fun i =>
    if i = items.length then { Locals.of e with shapeSize := tooMany e.2 }
    else (Memory.of items).locals i
  have hitems : ∀ i e', items[i]? = some e' → locals i = Locals.of e' := fun i e' hi => by
    have hlt : i < items.length := (List.getElem?_eq_some_iff.mp hi).1
    simp only [locals, if_neg (Nat.ne_of_lt hlt), (Memory.of_has items).2 i e' hi]
  obtain ⟨loaded, -, -, hloop⟩ := readEntries_append host hw.fit_left locals (.inl hitems) []
    (List.nodup_append.mp hw.nodup_append).1 1 (writeEntry e) (k := k - 4)
  refine ⟨⟨UInt32.ofNat (items ++ [e]).length, locals⟩, ?_⟩
  rw [deserialize_take host (.inl rfl), Nat.mod_eq_of_lt hw.count, length_append,
    flatMap_append, flatMap_singleton]
  refine hloop.trans ?_
  -- the last round: the key is right, and there is no room for the shape
  have hlast : locals (0 + items.length) = { Locals.of e with shapeSize := tooMany e.2 } := by
    simp only [locals, Nat.zero_add, if_true]
  have hnone := readMeta_take_none host hw.fit_last e.1
    (k := k - 4 - (items.flatMap writeEntry).length - 4) (by omega) []
  rw [append_nil] at hnone
  rw [readEntries, hlast]
  simp only [writeEntry, uint32.read_take_of (.inl rfl), width_uint32, Locals.of] at hnone ⊢
  rw [hnone]

end LastItem

/-! ## Interrupted calls -/

theorem storeTensor_cases {index' : ArcherTensorIndex} {tensorId : UInt32}
    {tensorMeta : TensorStorageMeta} (h : storeTensor index tensorId tensorMeta = some index') :
    tensorId ∈ Dict.keys index ∧ index' = index ∨
      tensorId ∉ Dict.keys index ∧ index' = index ++ [(tensorId, tensorMeta)] := by
  rw [storeTensor] at h
  split at h
  · rename_i found hfound
    refine .inl ⟨Dict.lookup_isSome_iff.mp (by simp [hfound]), ?_⟩
    split at h
    · cases h
    · exact (Option.some.inj h).symm
  · rename_i hnone
    have hnew : tensorId ∉ Dict.keys index := fun hmem => by
      simpa [hnone] using Dict.lookup_isSome_iff.mpr hmem
    rw [insert, if_neg hnew] at h
    exact .inr ⟨hnew, (Option.some.inj h).symm⟩

theorem storeTensor_spec {index' : ArcherTensorIndex} {tensorId : UInt32}
    {tensorMeta : TensorStorageMeta} (hnodup : (Dict.keys index).Nodup)
    (h : storeTensor index tensorId tensorMeta = some index') :
    tensorId ∈ Dict.keys index' ∧ (Dict.keys index').Nodup ∧ index'.length ≤ index.length + 1 ∧
      (tensorId ∈ Dict.keys index → index' = index) := by
  rcases storeTensor_cases h with ⟨hold, rfl⟩ | ⟨hnew, rfl⟩
  · exact ⟨hold, hnodup, Nat.le_succ _, fun _ => rfl⟩
  · have hkeys : Dict.keys (index ++ [(tensorId, tensorMeta)]) = Dict.keys index ++ [tensorId] := by
      simp [Dict.keys]
    refine ⟨by simp [hkeys], ?_, by simp, fun hold => absurd hold hnew⟩
    rw [hkeys, ← concat_eq_append]
    exact List.Nodup.concat hnew hnodup

/-- There are only so many keys. -/
theorem length_le_of_nodup (h : (Dict.keys index).Nodup) : index.length ≤ 2 ^ 32 := by
  have hmap : ((Dict.keys index).map UInt32.toNat).Nodup :=
    h.map fun _ _ => UInt32.toNat_inj.mp
  have hsub : (Dict.keys index).map UInt32.toNat ⊆ List.range (2 ^ 32) := fun n hn => by
    obtain ⟨key, -, rfl⟩ := mem_map.mp hn
    exact mem_range.mpr key.toNat_lt
  simpa [Dict.keys] using (subperm_of_subset hmap hsub).length_le

theorem openHandle_some {mem : Memory} {bytes : List UInt8}
    (h : deserialize host mem bytes = some index) :
    openHandle host mem (some bytes) = .loaded index := by
  rw [openHandle, h]

section Interrupted

variable {index index' : ArcherTensorIndex} {tensorId : UInt32} {tensorMeta : TensorStorageMeta}
  {items order : ArcherTensorIndex} {e : UInt32 × TensorStorageMeta} {written tail : List UInt8}

theorem written_eq (hcrash : serialize order = written ++ tail) :
    written = (serialize order).take written.length := by
  rw [hcrash, take_left]

/-- The dimensions and the options of the last item end the file. -/
theorem exists_serialize_concat (items : ArcherTensorIndex) (e : UInt32 × TensorStorageMeta) :
    ∃ front : List UInt8, front.length = payloadStart items ∧
      serialize (items ++ [e]) = front ++ payload e.2 := by
  refine ⟨uint32.toBytes (UInt32.ofNat (items ++ [e]).length) ++ (items.flatMap writeEntry ++
    (uint32.toBytes e.1 ++ (uint32.toBytes e.2.fileId ++ (int64.toBytes e.2.offset ++
      (uint64.toBytes e.2.size ++ int64.toBytes (Int64.ofNat e.2.shape.length)))))), ?_, ?_⟩
  · simp only [length_append, Field.length_toBytes, width_uint32, width_uint64, width_int64,
      payloadStart]
    omega
  · simp only [serialize, flatMap_append, flatMap_singleton, writeEntry, writeMeta,
      append_assoc]

/-- What is missing of a file that was written up to the last number of dimensions. -/
theorem tail_eq (hcrash : serialize (items ++ [e]) = written ++ tail)
    (hk : payloadStart items ≤ written.length) :
    tail = (payload e.2).drop (written.length - payloadStart items) := by
  obtain ⟨front, hlen, heq⟩ := exists_serialize_concat items e
  have htail : tail = (front ++ payload e.2).drop written.length := by
    rw [← heq, hcrash, drop_left]
  rw [htail, drop_append, drop_eq_nil_of_le (by omega), nil_append, hlen]

/-- A number of items that wrapped is zero, and all tensors are lost. -/
theorem count_lt_of_kept (horder : (Dict.keys order).Nodup)
    (hle : order.length ≤ completed.length + 1) (hcrash : serialize order = written ++ tail)
    (h : ∀ mem, Kept completed (openHandle host mem (some written))) : order.length < 2 ^ 32 := by
  have hmax := length_le_of_nodup horder
  by_contra hcount
  have hwrap : order.length % 2 ^ 32 = 0 := by
    rw [show order.length = 2 ^ 32 by omega, Nat.mod_self]
  have hempty : deserialize host (Memory.of order) written = some [] := by
    rw [written_eq hcrash, deserialize_take host (.inl rfl), hwrap]
    rfl
  have hkept := h (Memory.of order)
  rw [openHandle_some host hempty] at hkept
  have hnil : completed = [] := eq_nil_iff_forall_not_mem.mpr fun e he => by
    simpa using (hkept.mem_iff e).mpr he
  rw [hnil, length_nil] at hle
  omega

variable {host}

/-- Whatever the reader finds is kept only where the file goes beyond the last number of dimensions,
if anything was stored before. -/
theorem Writable.payloadStart_le (hw : Writable host (items ++ [e]))
    (hcrash : serialize (items ++ [e]) = written ++ tail) (hindex : index ≠ [])
    (h : ∀ mem, Kept index (openHandle host mem (some written))) :
    payloadStart items ≤ written.length := by
  by_contra hk
  obtain ⟨mem, hnone⟩ := hw.exists_deserialize_none (Nat.lt_of_not_le hk)
  have hthrew := h mem
  rw [← written_eq hcrash] at hnone
  simp only [openHandle, hnone] at hthrew
  cases hthrew with
  | threw hnil => exact hindex hnil

/-- A call that was interrupted while it wrote stored a tensor that was there before, and the missing
bytes are as they are preset: the variables can have had the right values, and a number of dimensions
for which there is no room. -/
theorem Writable.suffix_of_kept (hw : Writable host (items ++ [e]))
    (hcrash : serialize (items ++ [e]) = written ++ tail)
    (hindex : (Dict.keys index).Nodup) (hid : tensorId ∈ Dict.keys (items ++ [e]))
    (hsame : tensorId ∈ Dict.keys index → e ∈ index)
    (h : ∀ mem, Kept index (openHandle host mem (some written))) :
    tensorId ∈ Dict.keys index ∧ tail <:+ preset host e.2 := by
  obtain ⟨loaded, value, hkeys, -, hvalue, hread⟩ :=
    hw.deserialize_concat _ (.inl (Memory.of_has _)) (k := written.length)
  rw [← written_eq hcrash] at hread
  have hkept := h (Memory.of (items ++ [e]))
  rw [openHandle_some host hread] at hkept
  have hold : tensorId ∈ Dict.keys index := by
    have hloaded : Dict.keys (loaded ++ [(e.1, value)]) = Dict.keys (items ++ [e]) := by
      rw [Dict.keys, map_append, Dict.keys, map_append]
      exact congrArg (· ++ [e.1]) hkeys
    rw [← hloaded] at hid
    obtain ⟨entry, hentry, hkey⟩ := mem_map.mp hid
    exact mem_map.mpr ⟨entry, (hkept.mem_iff entry).mp hentry, hkey⟩
  have hk := hw.payloadStart_le hcrash (ne_nil_of_mem (hsame hold)) h
  have heq : value = e.2 := by
    have hvalueMem : (e.1, value) ∈ index := (hkept.mem_iff _).mp (by simp)
    have hsome := (Dict.mem_iff_lookup hindex).mp hvalueMem
    rw [(Dict.mem_iff_lookup hindex).mp (hsame hold)] at hsome
    exact (Option.some.inj hsome).symm
  refine ⟨hold, ?_⟩
  rw [tail_eq hcrash hk, ← hvalue.mp heq]
  exact drop_suffix _ _

/-- Bytes that are missing, but preset, do no harm. -/
theorem Writable.deserialize_of_suffix (hw : Writable host (items ++ [e]))
    (hcrash : serialize (items ++ [e]) = written ++ tail) (hsuffix : tail <:+ preset host e.2)
    (mem : Memory) : deserialize host mem written = some (items ++ [e]) := by
  obtain ⟨front, hfront, heq⟩ := exists_serialize_concat items e
  have hlen : (written ++ tail).length = payloadStart items + (preset host e.2).length := by
    rw [← hcrash, heq, length_append, hfront, length_payload, length_preset]
  have htail := hsuffix.length_le
  rw [length_append] at hlen
  have hk : payloadStart items ≤ written.length := by omega
  have hpreset : tail = (preset host e.2).drop (written.length - payloadStart items) := by
    have hdrop := suffix_iff_eq_drop.mp hsuffix
    rw [hdrop]
    congr 1
    omega
  obtain ⟨loaded, value, -, hall, hvalue, hread⟩ := hw.deserialize_concat mem (.inr hk)
  have hwhole : value = e.2 := hvalue.mpr (hpreset.symm.trans (tail_eq hcrash hk))
  rw [hcrash, take_left, hall hk, hwhole] at hread
  exact hread

variable (host)

/-- A handle that is opened on an interrupted write has the tensors of the completed calls, and no
others, exactly where the file is whole and its number of items did not wrap, or where the call was
for a tensor that was in the index and what is missing is as the reader presets it. -/
theorem kept_iff (hnodup : (Dict.keys index).Nodup)
    (hstore : storeTensor index tensorId tensorMeta = some index') (horder : order.Perm index')
    (hfit : ∀ e ∈ order, e.2.shape.length ≤ host.room) (hcrash : serialize order = written ++ tail) :
    (∀ mem, Kept (if tail = [] then index' else index) (openHandle host mem (some written))) ↔
      order.length < 2 ^ 32 ∧
        (tail = [] ∨
          tensorId ∈ Dict.keys index ∧ ∃ e, order.getLast? = some e ∧ tail <:+ preset host e.2) := by
  obtain ⟨hid', hnodup', hlen', hsame⟩ := storeTensor_spec hnodup hstore
  have hkeys : (Dict.keys order).Perm (Dict.keys index') := horder.map Prod.fst
  have hid : tensorId ∈ Dict.keys order := hkeys.mem_iff.mpr hid'
  have hitems : (Dict.keys order).Nodup := hkeys.nodup_iff.mpr hnodup'
  rcases eq_nil_or_concat' order with rfl | ⟨items, e, rfl⟩
  · cases hid
  have hlast : (items ++ [e]).getLast? = some e := getLast?_concat
  constructor
  · intro h
    have hcount : (items ++ [e]).length < 2 ^ 32 := by
      refine count_lt_of_kept host hitems ?_ hcrash h
      rw [horder.length_eq]
      split
      · exact Nat.le_succ _
      · exact hlen'
    refine ⟨hcount, or_iff_not_imp_left.mpr fun htail => ?_⟩
    rw [if_neg htail] at h
    have hw : Writable host (items ++ [e]) := ⟨hitems, hfit, hcount⟩
    obtain ⟨hold, hsuffix⟩ := hw.suffix_of_kept hcrash hnodup hid
      (fun hold => hsame hold ▸ horder.mem_iff.mp (by simp)) h
    exact ⟨hold, e, hlast, hsuffix⟩
  · rintro ⟨hcount, hwritten⟩ mem
    have hread : deserialize host mem written = some (items ++ [e]) := by
      have hw : Writable host (items ++ [e]) := ⟨hitems, hfit, hcount⟩
      refine hw.deserialize_of_suffix hcrash ?_ mem
      rcases hwritten with rfl | ⟨-, e', he', hsuffix⟩
      · exact nil_suffix
      · obtain rfl := Option.some.inj (hlast.symm.trans he')
        exact hsuffix
    rw [openHandle_some host hread]
    split
    · exact .loaded fun e => horder.mem_iff
    · rename_i htail
      rw [← hsame (hwritten.resolve_left htail).1]
      exact .loaded fun e => horder.mem_iff

end Interrupted

section Example

/-- A tensor of six floats on the CPU, and the options that a reader begins with. -/
def cpuFloat : TensorOptions := ⟨false, false, 6, -1, 0, 0⟩

def sixFloats (offset : Int64) : TensorStorageMeta := ⟨0, offset, 24, [2, 3], cpuFloat⟩

def smallHost : Host := ⟨1024, by decide, cpuFloat⟩

/-- The variables of a reader whose memory is zero. -/
def zeros : Memory := ⟨0, fun _ => ⟨0, 0, 0, 0, 0⟩⟩

/-- Tensor 1 is stored again, and the write stops before its options, which are as the reader presets
them. -/
theorem firstTensor_kept :
    Kept [(1, sixFloats 0)]
      (openHandle smallHost zeros (some ((serialize [(1, sixFloats 0)]).take 52))) := by
  have hstore : storeTensor [(1, sixFloats 0)] 1 (sixFloats 0) = some [(1, sixFloats 0)] := by
    decide +kernel
  have hfit : ∀ e ∈ [((1 : UInt32), sixFloats 0)], e.2.shape.length ≤ smallHost.room := by decide
  have hcrash : serialize [(1, sixFloats 0)] =
      (serialize [(1, sixFloats 0)]).take 52 ++ writeOptions cpuFloat := by decide +kernel
  have hkept := (kept_iff smallHost (by decide) hstore (.refl _) hfit hcrash).mpr
    ⟨by decide, .inr ⟨by decide, _, rfl, by decide +kernel⟩⟩ zeros
  rwa [if_neg (by decide)] at hkept

/-- The entry that is made of these variables. -/
def madeUp : UInt32 × TensorStorageMeta := (2, ⟨0, 0, 0, [], cpuFloat⟩)

/-- A second call, interrupted after the truncation and after the second key: the first tensor is
lost, or the index has a tensor that was never stored. -/
theorem secondTensor_lost :
    storeTensor [(1, sixFloats 0)] 2 (sixFloats 4096) =
        some [(1, sixFloats 0), (2, sixFloats 4096)] ∧
      openHandle smallHost zeros (some []) = .loaded [] ∧
      ¬ Kept [(1, sixFloats 0)] (.loaded []) ∧
      openHandle smallHost zeros
          (some ((serialize [(1, sixFloats 0), (2, sixFloats 4096)]).take 62)) =
        .loaded [(1, sixFloats 0), madeUp] ∧
      ¬ Kept [(1, sixFloats 0)] (.loaded [(1, sixFloats 0), madeUp]) := by
  refine ⟨by decide +kernel, by decide +kernel, ?_, by decide +kernel, ?_⟩
  · intro h
    exact absurd ((h.mem_iff (1, sixFloats 0)).mpr mem_cons_self) not_mem_nil
  · intro h
    exact absurd ((h.mem_iff madeUp).mp (by simp)) (by decide +kernel)

/-! ## The round trip -/

/-- The items of a map, in one of the orders in which an iteration can give them. -/
structure Lists (index : UInt32 → Option TensorStorageMeta) (items : ArcherTensorIndex) : Prop where
  nodup : (Dict.keys items).Nodup
  lookup : ∀ key, items.lookup key = index key

/-- What `Serialize` wrote in any order is read back, on a host that has room for the shapes: the
same keys, and for each the same value. -/
theorem exists_deserialize_serialize {index : UInt32 → Option TensorStorageMeta}
    {items : ArcherTensorIndex} (hitems : Lists index items) (hcount : items.length < 2 ^ 32)
    (hfit : ∀ key value, index key = some value → value.shape.length ≤ host.room) (mem : Memory) :
    ∃ loaded, deserialize host mem (serialize items) = some loaded ∧ Lists index loaded := by
  have hw : Writable host items := by
    refine ⟨hitems.nodup, ?_, hcount⟩
    rintro ⟨key, value⟩ he
    exact hfit key value (hitems.lookup key ▸ (Dict.mem_iff_lookup hitems.nodup).mp he)
  exact ⟨items, deserialize_serialize host hw mem, hitems⟩

/-- A map of two tensors, which the iteration gives in the other order. -/
def twoTensors (key : UInt32) : Option TensorStorageMeta :=
  if key = 1 then some (sixFloats 0) else if key = 2 then some (sixFloats 4096) else none

theorem twoTensors_read :
    ∃ loaded, deserialize smallHost zeros
      (serialize [(2, sixFloats 4096), (1, sixFloats 0)]) = some loaded ∧ Lists twoTensors loaded := by
  refine exists_deserialize_serialize smallHost ⟨by decide, fun key => ?_⟩ (by decide) ?_ zeros
  · rw [Dict.lookup_cons, Dict.lookup_cons, twoTensors]
    grind
  · intro key value hvalue
    have hshape : value.shape = [2, 3] := by grind [twoTensors, sixFloats]
    rw [hshape]
    decide

end Example

end Morphling.Checkpoint.IndexFile
