import Morphling.Lib.Bytes
import Morphling.Lib.Run

/-!
# The checkpoint store (`archer_tensor_handle.cpp`, `archer_prio_aio_handle.cpp`)

Tensors are written to a parameter file at offsets that the index records; the index is written to
its own file after every tensor. A handle takes the index from that file, and the place for the next
new tensor (`file_offset_`) from nowhere: it starts at zero.

* A file is a function from offsets to bytes. Transfers are cut into blocks (`prepIocbs`), which a
  request of low priority makes from the last to the first.
* `Save`: the handle, the directory and, for the specification, what was offloaded last.
* `intact_iff`: the extents stay disjoint and the tensors readable exactly as long as no new tensor
  is offloaded through a handle that was opened on tensors.

Shapes, options and the log are left out. `file_offset_` does not overflow.
-/

namespace Morphling.Checkpoint

open Bytes List Function

/-! ## Transfers -/

def kAioAlignment : Nat := 4096

def kBlockSize : Nat := 1024 * 1024

/-- `(num_bytes + kAioAlignment - 1) & ~(kAioAlignment - 1)`: the mask clears the low bits. -/
def alignUp (numBytes : Nat) : Nat :=
  (numBytes + kAioAlignment - 1) / kAioAlignment * kAioAlignment

/-- `PrepIocbs`: where each block starts, and its bytes. -/
def prepIocbs (blockSize totalSize : Nat) : List (Nat × Nat) :=
  let nBlocks := totalSize / blockSize
  let lastBlockSize := totalSize % blockSize
  let nIocbs := nBlocks + if lastBlockSize > 0 then 1 else 0
  (List.range nIocbs).map fun i =>
    let shift := i * blockSize
    (shift, if shift + blockSize > totalSize then totalSize - shift else blockSize)

/-- `ArcherPrioAioHandle::Write`. What follows the tensor in the aligned buffer is not
initialised. -/
def write (file : Nat → UInt8) (buffer : List UInt8) (uninit : Nat → UInt8) (highPrio : Bool)
    (offset : Nat) : Nat → UInt8 :=
  let numBytesAligned := alignUp buffer.length
  let writeBuffer := buffer ++ peek uninit 0 (numBytesAligned - buffer.length)
  let callbacks := prepIocbs kBlockSize numBytesAligned
  (if highPrio then callbacks else callbacks.reverse).foldl
    (fun file cb => poke file (offset + cb.1) ((writeBuffer.drop cb.1).take cb.2)) file

/-- `ArcherPrioAioHandle::Read`: what it puts into the caller's memory. -/
def read (file : Nat → UInt8) (numBytes offset : Nat) : List UInt8 :=
  (prepIocbs kBlockSize (alignUp numBytes)).flatMap fun cb => peek file (offset + cb.1) cb.2

/-! ## The handle -/

structure TensorStorageMeta where
  fileId : Nat
  offset : Nat
  size : Nat
  deriving DecidableEq, Repr

/-- `ArcherTensorIndex`. -/
abbrev TensorIndex := UInt32 → Option TensorStorageMeta

structure ArcherTensorHandle where
  fileId : Nat := 0
  fileOffset : Nat := 0
  tensorIndex : TensorIndex := fun _ => none

/-- The files of the directory: the index and, by their number, the parameter files. -/
structure Directory where
  archerIndex : Option TensorIndex := none
  archerParam : Nat → Nat → UInt8 := fun _ _ => 0

/-- The constructor: the index is loaded where there is one. -/
def ArcherTensorHandle.open (dir : Directory) : ArcherTensorHandle :=
  match dir.archerIndex with
  | some index => { tensorIndex := index }
  | none => {}

namespace ArcherTensorHandle

variable (h : ArcherTensorHandle) (dir : Directory)

/-- `StoreTensor`; `none` where a size mismatch ends the process. -/
def storeTensor (tensorId : UInt32) (buffer : List UInt8) (uninit : Nat → UInt8) :
    Option (ArcherTensorHandle × Directory) :=
  let found := h.tensorIndex tensorId
  if found.any (·.size != buffer.length) then none
  else
    let tensorMeta := found.getD ⟨h.fileId, h.fileOffset, buffer.length⟩
    let h' := { h with
      fileOffset := h.fileOffset + if found.isSome then 0 else alignUp buffer.length
      tensorIndex := update h.tensorIndex tensorId (some tensorMeta) }
    let file := write (dir.archerParam tensorMeta.fileId) buffer uninit false tensorMeta.offset
    some (h', { dir with archerParam := update dir.archerParam tensorMeta.fileId file })

/-- `OffloadTensor`: the index is written after the tensor. -/
def offloadTensor (tensorId : UInt32) (buffer : List UInt8) (uninit : Nat → UInt8) :
    Option (ArcherTensorHandle × Directory) :=
  (h.storeTensor dir tensorId buffer uninit).map fun r =>
    (r.1, { r.2 with archerIndex := some r.1.tensorIndex })

/-- `ReadTensor`; `none` where an unknown id ends the process. -/
def readTensor (tensorId : UInt32) : Option (List UInt8) :=
  (h.tensorIndex tensorId).map fun m => read (dir.archerParam m.fileId) m.size m.offset

end ArcherTensorHandle

/-! ## Saves -/

/-- A save: the handle, the directory, and the bytes that were last offloaded under each id. -/
structure Save where
  handle : ArcherTensorHandle := {}
  dir : Directory := {}
  offloaded : UInt32 → Option (List UInt8) := fun _ => none

inductive Event where
  | offload (tensorId : UInt32) (buffer : List UInt8) (uninit : Nat → UInt8)
  /-- The handle is destroyed, and another one constructed on the directory. -/
  | reopen

namespace Save

variable (s : Save)

def next : Event → Save
  | .offload tensorId buffer uninit =>
    match s.handle.offloadTensor s.dir tensorId buffer uninit with
    | some (handle, dir) =>
      { handle, dir, offloaded := update s.offloaded tensorId (some buffer) }
    | none => s
  | .reopen => { s with handle := .open s.dir }

/-- Tensors are not empty, and an id keeps its size. -/
def Enabled : Event → Prop
  | .offload tensorId buffer _ =>
    buffer ≠ [] ∧ ∀ m ∈ s.handle.tensorIndex tensorId, m.size = buffer.length
  | .reopen => True

/-- The extents of two tensors do not overlap. -/
def Apart (m m' : TensorStorageMeta) : Prop :=
  m.fileId = m'.fileId →
    m.offset + alignUp m.size ≤ m'.offset ∨ m'.offset + alignUp m'.size ≤ m.offset

/-- The extents of different ids are disjoint, and every id reads back what was offloaded last. -/
structure Intact (s : Save) : Prop where
  disjoint : ∀ {id id' m m'}, id ≠ id' → s.handle.tensorIndex id = some m →
    s.handle.tensorIndex id' = some m' → Apart m m'
  reads : ∀ {id bytes}, s.offloaded id = some bytes →
    ∃ out, s.handle.readTensor s.dir id = some out ∧ out.take bytes.length = bytes

/-- A new tensor needs a place behind the others: there are none, or the handle placed them. -/
def Behind : Event → Prop
  | .offload tensorId .. => s.handle.tensorIndex tensorId ≠ none ∨ s.handle.fileOffset ≠ 0 ∨
      ∀ id, s.handle.tensorIndex id = none
  | .reopen => True

end Save

/-! ## Blocks -/

theorem le_alignUp (n : Nat) : n ≤ alignUp n := by
  unfold alignUp kAioAlignment
  omega

/-- The blocks of a transfer, by their number. -/
theorem prepIocbs_eq {b : Nat} (hb : 0 < b) (total : Nat) : ∃ n, total ≤ n * b ∧
    prepIocbs b total = (List.range n).map fun i => (i * b, min b (total - i * b)) := by
  refine ⟨total / b + if total % b > 0 then 1 else 0, ?_, ?_⟩
  · have hdm := Nat.div_add_mod' total b
    have hlt := Nat.mod_lt total hb
    rw [Nat.add_mul]
    split <;> omega
  · refine map_congr_left fun i _ => ?_
    dsimp only
    split <;> congr 1 <;> omega

/-- The next block continues the blocks before it. -/
theorem take_min_append {buf : List UInt8} (k b : Nat) :
    buf.take (k * b) ++ (buf.drop (k * b)).take (min b (buf.length - k * b)) =
      buf.take ((k + 1) * b) := by
  rw [Nat.succ_mul, take_add]
  congr 1
  rw [← length_drop, take_eq_take_iff]
  omega

section Blocks
variable {file : Nat → UInt8} {buf : List UInt8} {off b : Nat}

/-- A block starts where the blocks before it end, or is empty. -/
theorem length_take_or_nil (buf : List UInt8) (k n : Nat) :
    (buf.take k).length = k ∨ (buf.drop k).take n = [] := by
  rcases Nat.le_total k buf.length with h | h
  · exact .inl (length_take_of_le h)
  · exact .inr (by rw [drop_eq_nil_of_le h, take_nil])

/-- From the first block to the last. -/
theorem foldl_blocks (n : Nat) :
    ((List.range n).map fun i => (i * b, min b (buf.length - i * b))).foldl
      (fun file cb => poke file (off + cb.1) ((buf.drop cb.1).take cb.2)) file =
      poke file off (buf.take (n * b)) := by
  induction n with
  | zero => simp
  | succ n ih =>
    rw [range_succ, map_append, foldl_append, ih, ← take_min_append]
    rcases length_take_or_nil buf (n * b) (min b (buf.length - n * b)) with h | h
    · rw [poke_append, h]
      rfl
    · simp [h]

/-- From the last block to the first. -/
theorem foldl_blocks_reverse (n : Nat) (file : Nat → UInt8) :
    ((List.range n).map fun i => (i * b, min b (buf.length - i * b))).reverse.foldl
      (fun file cb => poke file (off + cb.1) ((buf.drop cb.1).take cb.2)) file =
      poke file off (buf.take (n * b)) := by
  induction n generalizing file with
  | zero => simp
  | succ n ih =>
    rw [range_succ, map_append, reverse_append, foldl_append, ih,
      ← take_min_append]
    rcases length_take_or_nil buf (n * b) (min b (buf.length - n * b)) with h | h
    · rw [poke_append_rev, h]
      rfl
    · simp [h]

/-- A write of any priority writes the whole buffer. -/
theorem write_eq (file : Nat → UInt8) (buffer : List UInt8) (uninit : Nat → UInt8)
    (highPrio : Bool) (offset : Nat) :
    ∃ rest, (buffer ++ rest).length = alignUp buffer.length ∧
      write file buffer uninit highPrio offset = poke file offset (buffer ++ rest) := by
  refine ⟨peek uninit 0 (alignUp buffer.length - buffer.length), ?_, ?_⟩
  · have := le_alignUp buffer.length
    simp only [length_append, length_peek]
    omega
  · simp only [write]
    generalize hbuf : buffer ++ peek uninit 0 (alignUp buffer.length - buffer.length) = buf
    have hlen : buf.length = alignUp buffer.length := by
      have := le_alignUp buffer.length
      rw [← hbuf, length_append, length_peek]
      omega
    obtain ⟨n, hn, hblocks⟩ := prepIocbs_eq (b := kBlockSize) (by decide) buf.length
    simp only [← hlen, hblocks]
    cases highPrio
    · simp only [Bool.false_eq_true, if_false, foldl_blocks_reverse, take_of_length_le hn]
    · simp only [if_true, foldl_blocks, take_of_length_le hn]

theorem read_eq (file : Nat → UInt8) (numBytes offset : Nat) :
    read file numBytes offset = peek file offset (alignUp numBytes) := by
  obtain ⟨n, hn, hblocks⟩ := prepIocbs_eq (b := kBlockSize) (by decide) (alignUp numBytes)
  have hprefix : ∀ k, ((List.range k).map fun i =>
      (i * kBlockSize, min kBlockSize (alignUp numBytes - i * kBlockSize))).flatMap
        (fun cb => peek file (offset + cb.1) cb.2) =
      peek file offset (min (alignUp numBytes) (k * kBlockSize)) := by
    intro k
    induction k with
    | zero => simp [peek]
    | succ k ih =>
      rw [range_succ, map_append, flatMap_append, ih]
      simp only [map_cons, map_nil, flatMap_cons, flatMap_nil, append_nil]
      rcases Nat.le_total (k * kBlockSize) (alignUp numBytes) with h | h
      · rw [Nat.min_eq_right h, ← peek_add]
        congr 1
        rw [Nat.succ_mul]
        omega
      · rw [Nat.sub_eq_zero_of_le h, Nat.min_zero, Nat.min_eq_left h,
          Nat.min_eq_left (Nat.le_trans h (Nat.mul_le_mul_right _ (Nat.le_succ k)))]
        simp [peek]
  rw [read, hblocks, hprefix, Nat.min_eq_left hn]

end Blocks

/-! ## What a save keeps -/

namespace Save

variable {s : Save} {tensorId : UInt32} {buffer : List UInt8} {uninit : Nat → UInt8}
  {m : TensorStorageMeta} {e : Event}

/-- The place of a tensor: its own, or the next one. -/
def placeOf (s : Save) (tensorId : UInt32) (size : Nat) : TensorStorageMeta :=
  (s.handle.tensorIndex tensorId).getD ⟨s.handle.fileId, s.handle.fileOffset, size⟩

/-- What an offload does: the tensor is written at its place, and the place is recorded. -/
theorem next_offload (hen : s.Enabled (.offload tensorId buffer uninit)) :
    ∃ rest, (buffer ++ rest).length = alignUp buffer.length ∧
      s.next (.offload tensorId buffer uninit) =
        let m := s.placeOf tensorId buffer.length
        let index := update s.handle.tensorIndex tensorId (some m)
        { handle :=
            { s.handle with
              fileOffset := s.handle.fileOffset +
                if (s.handle.tensorIndex tensorId).isSome then 0 else alignUp buffer.length
              tensorIndex := index }
          dir :=
            { archerIndex := some index
              archerParam := update s.dir.archerParam m.fileId
                (poke (s.dir.archerParam m.fileId) m.offset (buffer ++ rest)) }
          offloaded := update s.offloaded tensorId (some buffer) } := by
  obtain ⟨rest, hlen, hwrite⟩ := write_eq
    (s.dir.archerParam (s.placeOf tensorId buffer.length).fileId) buffer uninit false
    (s.placeOf tensorId buffer.length).offset
  refine ⟨rest, hlen, ?_⟩
  have hsize : ¬ (s.handle.tensorIndex tensorId).any (·.size != buffer.length) = true := by
    cases hf : s.handle.tensorIndex tensorId with
    | none => simp
    | some m => simp [hen.2 m hf]
  simp only [next, ArcherTensorHandle.offloadTensor, ArcherTensorHandle.storeTensor, hsize,
    if_false, Option.map_some, Bool.false_eq_true]
  simp only [placeOf] at hwrite ⊢
  rw [hwrite]

/-- What holds as long as new tensors are placed behind the others. -/
structure Inv (s : Save) : Prop where
  /-- The index is on disk. -/
  saved : (ArcherTensorHandle.open s.dir).tensorIndex = s.handle.tensorIndex
  file_zero : s.handle.fileId = 0
  placed : ∀ {id m}, s.handle.tensorIndex id = some m → m.fileId = 0 ∧ 0 < m.size ∧
    (s.handle.fileOffset = 0 ∨ m.offset + alignUp m.size ≤ s.handle.fileOffset)
  empty : (∀ id, s.handle.tensorIndex id = none) → s.handle.fileOffset = 0
  /-- Where there are tensors, one of them is at the start of the file. -/
  start : ∀ {id m}, s.handle.tensorIndex id = some m →
    ∃ id₀ m₀, s.handle.tensorIndex id₀ = some m₀ ∧ m₀.offset = 0
  disjoint : ∀ {id id' m m'}, id ≠ id' → s.handle.tensorIndex id = some m →
    s.handle.tensorIndex id' = some m' → Apart m m'
  contents : ∀ {id bytes}, s.offloaded id = some bytes → ∃ m, s.handle.tensorIndex id = some m ∧
    m.size = bytes.length ∧ peek (s.dir.archerParam m.fileId) m.offset bytes.length = bytes

theorem inv_init : Inv {} where
  saved := rfl
  file_zero := rfl
  placed := nofun
  empty _ := rfl
  start := nofun
  disjoint _ := nofun
  contents := nofun

theorem Inv.intact (h : s.Inv) : s.Intact where
  disjoint := h.disjoint
  reads hb := by
    obtain ⟨m, hm, hsize, hpeek⟩ := h.contents hb
    refine ⟨_, by rw [ArcherTensorHandle.readTensor, hm, Option.map_some], ?_⟩
    rw [read_eq, take_peek _ _ (hsize ▸ le_alignUp m.size), hpeek]

theorem Inv.reopen (h : s.Inv) : (s.next .reopen).Inv := by
  have hsaved := h.saved
  have hopen : (ArcherTensorHandle.open s.dir).fileId = 0 ∧
      (ArcherTensorHandle.open s.dir).fileOffset = 0 := by
    unfold ArcherTensorHandle.open
    split <;> exact ⟨rfl, rfl⟩
  exact {
    saved := rfl
    file_zero := hopen.1
    placed := fun hm => by
      obtain ⟨hfile, hsize, -⟩ := h.placed (hsaved ▸ hm)
      exact ⟨hfile, hsize, .inl hopen.2⟩
    empty := fun _ => hopen.2
    start := fun hm => by
      have := h.start (hsaved ▸ hm)
      rwa [← hsaved] at this
    disjoint := fun hne hm hm' => h.disjoint hne (hsaved ▸ hm) (hsaved ▸ hm')
    contents := fun hb => by
      have := h.contents hb
      rwa [← hsaved] at this }

/-- The place of a tensor is apart from those of the others. -/
theorem Inv.placeOf_apart (h : s.Inv) (hbehind : s.Behind (.offload tensorId buffer uninit))
    {id : UInt32} (hne : id ≠ tensorId) (hm : s.handle.tensorIndex id = some m) :
    Apart m (s.placeOf tensorId buffer.length) := by
  unfold placeOf
  cases hf : s.handle.tensorIndex tensorId with
  | some m' => exact h.disjoint hne hm hf
  | none =>
    intro _
    rcases hbehind with hb | hb | hb
    · exact absurd hf hb
    · exact .inl ((h.placed hm).2.2.resolve_left hb)
    · simp [hb id] at hm

theorem Apart.symm {m' : TensorStorageMeta} (h : Apart m m') : Apart m' m :=
  fun hfile => (h hfile.symm).symm

theorem Inv.placeOf_fileId (h : s.Inv) (size : Nat) : (s.placeOf tensorId size).fileId = 0 := by
  unfold placeOf
  cases hf : s.handle.tensorIndex tensorId with
  | some m => exact (h.placed hf).1
  | none => exact h.file_zero

theorem placeOf_size (hen : s.Enabled (.offload tensorId buffer uninit)) :
    (s.placeOf tensorId buffer.length).size = buffer.length := by
  unfold placeOf
  cases hf : s.handle.tensorIndex tensorId with
  | some m => exact hen.2 m hf
  | none => rfl

theorem Inv.offload (h : s.Inv) (hen : s.Enabled (.offload tensorId buffer uninit))
    (hbehind : s.Behind (.offload tensorId buffer uninit)) :
    (s.next (.offload tensorId buffer uninit)).Inv := by
  obtain ⟨rest, hlen, hnext⟩ := next_offload hen
  rw [hnext]
  refine
    { saved := rfl
      file_zero := h.file_zero
      placed := fun {id m} hm => ?_
      empty := fun hnone => by simpa using hnone tensorId
      start := fun {id m} _ => ?_
      disjoint := fun {id id' m m'} hne hm hm' => ?_
      contents := fun {id bytes} hb => ?_ } <;> dsimp only at *
  · by_cases hid : id = tensorId
    · -- The tensor itself: its old place, or the one that the cursor moves over.
      obtain rfl : s.placeOf tensorId buffer.length = m := by simpa [hid] using hm
      refine ⟨h.placeOf_fileId _, by rw [placeOf_size hen]; exact length_pos_iff.mpr hen.1, ?_⟩
      unfold placeOf
      cases hf : s.handle.tensorIndex tensorId with
      | some m => simpa using (h.placed hf).2.2
      | none => exact .inr (Nat.le_refl _)
    · rw [update_of_ne hid] at hm
      obtain ⟨hfile, hsize, hend⟩ := h.placed hm
      refine ⟨hfile, hsize, ?_⟩
      cases hf : s.handle.tensorIndex tensorId with
      | some m => simpa using hend
      | none =>
        rcases hbehind with hb | hb | hb
        · exact absurd hf hb
        · exact .inr (Nat.le_trans (hend.resolve_left hb) (Nat.le_add_right _ _))
        · simp [hb id] at hm
  · by_cases hnone : ∀ id, s.handle.tensorIndex id = none
    · refine ⟨tensorId, _, update_self .., ?_⟩
      simp [placeOf, hnone tensorId, h.empty hnone]
    · obtain ⟨id', hid'⟩ := not_forall.mp hnone
      obtain ⟨m', hm'⟩ := Option.ne_none_iff_exists'.mp hid'
      obtain ⟨id₀, m₀, hm₀, hoff⟩ := h.start hm'
      refine ⟨id₀, m₀, ?_, hoff⟩
      by_cases hid : id₀ = tensorId
      · subst hid
        simp [placeOf, hm₀]
      · rw [update_of_ne hid, hm₀]
  · by_cases hid : id = tensorId
    · obtain rfl : s.placeOf tensorId buffer.length = m := by simpa [hid] using hm
      have hid' : id' ≠ tensorId := fun e => hne (hid.trans e.symm)
      rw [update_of_ne hid'] at hm'
      exact (h.placeOf_apart hbehind hid' hm').symm
    · rw [update_of_ne hid] at hm
      by_cases hid' : id' = tensorId
      · obtain rfl : s.placeOf tensorId buffer.length = m' := by simpa [hid'] using hm'
        exact h.placeOf_apart hbehind hid hm
      · rw [update_of_ne hid'] at hm'
        exact h.disjoint hne hm hm'
  · by_cases hid : id = tensorId
    · obtain rfl : buffer = bytes := by simpa [hid] using hb
      refine ⟨s.placeOf tensorId buffer.length, by simp [hid], placeOf_size hen, ?_⟩
      have hle : buffer.length ≤ (buffer ++ rest).length := by simp
      rw [update_self, ← take_peek _ _ hle, peek_poke_self, take_left]
    · rw [update_of_ne hid] at hb
      obtain ⟨m, hm, hsize, hpeek⟩ := h.contents hb
      refine ⟨m, by rw [update_of_ne hid, hm], hsize, ?_⟩
      have hfile : m.fileId = (s.placeOf tensorId buffer.length).fileId :=
        (h.placed hm).1.trans (h.placeOf_fileId _).symm
      have hapart := h.placeOf_apart hbehind hid hm hfile
      have hle := le_alignUp m.size
      rw [hfile, update_self, peek_poke_of_disjoint, ← hfile, hpeek]
      rw [placeOf_size hen] at hapart
      omega

theorem Inv.next (h : s.Inv) (hen : s.Enabled e) (hbehind : s.Behind e) : (s.next e).Inv := by
  cases e with
  | offload tensorId buffer uninit => exact h.offload hen hbehind
  | reopen => exact h.reopen

/-- A new tensor that is not placed behind the others is placed over the first one. -/
theorem Inv.behind_of_intact (h : s.Inv) (hen : s.Enabled e) (hintact : (s.next e).Intact) :
    s.Behind e := by
  cases e with
  | reopen => trivial
  | offload tensorId buffer uninit =>
    by_contra hb
    simp only [Behind, not_or, not_not, not_forall] at hb
    obtain ⟨hnew, hzero, id, hid⟩ := hb
    obtain ⟨m, hm⟩ := Option.ne_none_iff_exists'.mp hid
    obtain ⟨id₀, m₀, hm₀, hoff⟩ := h.start hm
    have hne : id₀ ≠ tensorId := by
      rintro rfl
      simp [hnew] at hm₀
    obtain ⟨rest, -, hnext⟩ := next_offload hen
    rw [hnext] at hintact
    have hapart := hintact.disjoint hne (by dsimp only; rw [update_of_ne hne, hm₀])
      (update_self ..)
    have hplace : s.placeOf tensorId buffer.length = ⟨0, 0, buffer.length⟩ := by
      simp [placeOf, hnew, hzero, h.file_zero]
    obtain ⟨hfile, hsize, -⟩ := h.placed hm₀
    have hbuf := length_pos_iff.mpr hen.1
    have h1 := le_alignUp m₀.size
    have h2 := le_alignUp buffer.length
    rw [hplace] at hapart
    have := hapart hfile
    dsimp only at this
    omega

/-- A directory stays intact exactly as long as no handle places a new tensor over those that it was
opened on. -/
theorem intact_iff (events : List Event) (hen : Run.Along Save.next Enabled {} events) :
    Run.Always Save.next Intact {} events ↔ Run.Along Save.next Behind {} events :=
  Run.always_iff_along (fun _ h => h.intact) (fun _ _ h hen hb => h.next hen hb)
    (fun _ _ h hen hi => h.behind_of_intact hen hi) hen inv_init

/-- A save that is interrupted after tensor 0 and taken up again with tensor 1. -/
def interrupted : List Event :=
  [.offload 0 [1] fun _ => 0, .reopen, .offload 1 [2] fun _ => 0]

theorem interrupted_not_intact :
    Run.Along Save.next Enabled {} interrupted ∧ ¬ Run.Always Save.next Intact {} interrupted := by
  refine ⟨⟨⟨by decide, nofun⟩, trivial, ⟨by decide, nofun⟩, trivial⟩, fun h => ?_⟩
  have h0 : (Run.exec Save.next {} interrupted).handle.tensorIndex 0 = some ⟨0, 0, 1⟩ := by
    decide +kernel
  have h1 : (Run.exec Save.next {} interrupted).handle.tensorIndex 1 = some ⟨0, 0, 1⟩ := by
    decide +kernel
  have hapart := h.last.disjoint (by decide) h0 h1 rfl
  revert hapart
  decide

/-- Tensor 0 is offloaded again after a new handle was opened. -/
def repeated : List Event :=
  [.offload 0 [1] fun _ => 0, .offload 1 [2] fun _ => 0, .reopen, .offload 0 [3] fun _ => 0]

theorem repeated_intact : Run.Always Save.next Intact {} repeated := by
  have h0 : (Run.exec Save.next {} (repeated.take 3)).handle.tensorIndex 0 = some ⟨0, 0, 1⟩ := by
    decide +kernel
  have hcursor : (Run.exec Save.next {} (repeated.take 1)).handle.fileOffset ≠ 0 := by
    decide +kernel
  refine (intact_iff repeated ⟨⟨by decide, nofun⟩, ⟨by decide, nofun⟩, trivial,
    ⟨by decide, fun m hm => ?_⟩, trivial⟩).mpr
    ⟨.inr (.inr fun _ => rfl), .inr (.inl hcursor), trivial, .inl ?_, trivial⟩
  · rw [← Option.some.inj (h0.symm.trans hm)]
    rfl
  · exact fun hnone => Option.some_ne_none _ (h0.symm.trans hnone)

end Save
end Morphling.Checkpoint
