import Morphling.Client.Cache

/-!
# What caching the blocks of a message does

* `Wf`: every entry of the client's cache owns a buffer with its block.
* `Stored`: what caching one block does to the entries and the buffers.
* `Dropped`: the entries that the blocks of a message evict, by the state before the message.
* `Prepared`, `cacheBlocks_spec`: what caching both blocks does.
* `Refreshed`, `fillPartition_spec`: filling a partition changes the order of the cache only.
-/

namespace Morphling.Client

open Wire FixSizeLRUCache

/-! ## Caching one block -/

namespace ProxyCliImpl

/-- The entries own their buffers: each has its own, with as many bytes as the entry says. -/
structure Wf (c : ProxyCliImpl) : Prop where
  cache : c.cachedTensors.Wf
  sizeofKey : c.cachedTensors.sizeofKey = sizeofTensorKey
  owns : ∀ k t n, c.cachedTensors.cache k = some (t, n) →
    ∃ i b, t.data = .heap i ∧ c.memory.contents t.data = some b ∧ t.bytes = b.length ∧ b ≠ []
  inj : ∀ k k' t t' n n', c.cachedTensors.cache k = some (t, n) →
    c.cachedTensors.cache k' = some (t', n') → t.data = t'.data → k = k'

variable (c : ProxyCliImpl)

/-- The bytes that caching a block adds: none if the key has an entry, the block was left out, or
`h_dim` is refused. -/
def needs (key : TensorKey) (bytes : List UInt8) (hDim : Int) : Nat :=
  if c.cachedTensors.exist key ∨ bytes = [] ∨ hDim ≤ 0 then 0
  else sizeofTensorKey + bytes.length

/-- The entry of `k` goes when `need` bytes are added. -/
def Gone (need : Nat) (k : TensorKey) : Prop := need ≠ 0 ∧ c.cachedTensors.Evicts need k

instance (need : Nat) (k : TensorKey) : Decidable (c.Gone need k) :=
  inferInstanceAs (Decidable (_ ∧ _))

/-- What caching the block `bytes` under `key` does, where it adds `need` bytes. -/
structure Stored (key : TensorKey) (bytes : List UInt8) (need : Nat) (c' : ProxyCliImpl) :
    Prop where
  wf : c'.Wf
  cachedPartitions : c'.cachedPartitions = c.cachedPartitions
  submitted : c'.submitted = c.submitted
  seq : c'.memory.seq = c.memory.seq
  frame : c'.memory.frame = c.memory.frame
  length_le : c.memory.heap.length ≤ c'.memory.heap.length
  maxBytes : c'.cachedTensors.maxBytes = c.cachedTensors.maxBytes
  self : need ≠ 0 → ∃ t n, c'.cachedTensors.cache key = some (t, n) ∧
    c'.memory.contents t.data = some bytes ∧ c.memory.contents t.data = none
  kept : ∀ k, ¬ c.Gone need k → (need = 0 ∨ k ≠ key) →
    c'.cachedTensors.cache k = c.cachedTensors.cache k
  gone : ∀ k, c.Gone need k → c'.cachedTensors.cache k = none
  contents : ∀ p b, c.memory.contents p = some b →
    (∀ k t n, c.Gone need k → c.cachedTensors.cache k = some (t, n) → t.data ≠ p) →
    c'.memory.contents p = some b
  freed : ∀ k t n, c.Gone need k → c.cachedTensors.cache k = some (t, n) →
    c'.memory.contents t.data = none
  dead : ∀ i < c.memory.heap.length, c.memory.contents (.heap i) = none →
    c'.memory.contents (.heap i) = none
  evicts : ∀ n k, (need = 0 ∨ k ≠ key) → (c'.cachedTensors.Evicts n k ↔
    ¬ c.Gone need k ∧ c.cachedTensors.Evicts (need + n) k)
  evicts_self : need ≠ 0 → ∀ n, c'.cachedTensors.Evicts n key ↔
    c.cachedTensors.maxBytes < need + n

variable {c} {key k : TensorKey} {ptr : Ptr} {bytes : List UInt8} {hDim : Int} {t : CachedTensor}
  {n need : Nat}

/-- Nothing is cached. -/
theorem Wf.stored_zero (hc : c.Wf) : c.Stored key bytes 0 c where
  wf := hc
  cachedPartitions := rfl
  submitted := rfl
  seq := rfl
  frame := rfl
  length_le := Nat.le_refl _
  maxBytes := rfl
  self h := absurd rfl h
  kept _ _ _ := rfl
  gone _ h := absurd rfl h.1
  contents _ _ h _ := h
  freed _ _ _ h := absurd rfl h.1
  dead _ _ h := h
  evicts n k _ := by simp [Gone]
  evicts_self h := absurd rfl h

/-- An entry afterwards is the new one, in a fresh buffer, or one that was kept. -/
theorem Stored.of_cache {c' : ProxyCliImpl} (h : c.Stored key bytes need c')
    (ht : c'.cachedTensors.cache k = some (t, n)) :
    (need ≠ 0 ∧ k = key ∧ c'.memory.contents t.data = some bytes ∧
        c.memory.contents t.data = none) ∨
      (¬ c.Gone need k ∧ c.cachedTensors.cache k = some (t, n)) := by
  have hgone : ¬ c.Gone need k := fun hg => by
    rw [h.gone k hg] at ht
    cases ht
  by_cases hk : need = 0 ∨ k ≠ key
  · exact .inr ⟨hgone, (h.kept k hgone hk).symm.trans ht⟩
  · rw [not_or, not_not] at hk
    obtain ⟨h0, rfl⟩ := hk
    obtain ⟨t', n', ht', hself, hfresh⟩ := h.self h0
    rw [ht'] at ht
    cases ht
    exact .inl ⟨h0, rfl, hself, hfresh⟩

theorem Wf.lt_length (hc : c.Wf) {i : Nat} (h : c.cachedTensors.cache k = some (t, n))
    (hi : t.data = .heap i) : i < c.memory.heap.length := by
  by_contra hle
  obtain ⟨-, b, -, hb, -⟩ := hc.owns k t n h
  rw [hi, Memory.contents_of_length_le (Nat.le_of_not_lt hle)] at hb
  cases hb

/-- `freed` are the buffers of the entries that go for `need` bytes. -/
def Frees (c : ProxyCliImpl) (need : Nat) (freed : List Ptr) : Prop :=
  ∀ p, p ∈ freed ↔ ∃ k t n, c.Gone need k ∧ c.cachedTensors.cache k = some (t, n) ∧ t.data = p

section Memory
variable {need : Nat} {freed : List Ptr} (hfreed : c.Frees need freed)
include hfreed

/-- The buffers stay, but for those that are freed. -/
theorem Frees.contents_old {p : Ptr} {b : List UInt8} (hb : c.memory.contents p = some b)
    (hp : ∀ k t n, c.Gone need k → c.cachedTensors.cache k = some (t, n) → t.data ≠ p) :
    ((c.memory.copy ptr).1.freeAll freed).contents p = some b := by
  have hne : p ≠ .heap c.memory.heap.length := fun h => by
    rw [h, Memory.contents_of_length_le (Nat.le_refl _)] at hb
    cases hb
  rw [Memory.contents_freeAll_of_notMem, Memory.contents_copy_of_ne hne, hb]
  intro h
  obtain ⟨k, t, n, hk, ht, hd⟩ := (hfreed p).mp h
  exact hp k t n hk ht hd

/-- The new buffer has the block. -/
theorem Frees.contents_new (hc : c.Wf) (ptr : Ptr) :
    ((c.memory.copy ptr).1.freeAll freed).contents (.heap c.memory.heap.length) =
      c.memory.contents ptr := by
  rw [Memory.contents_freeAll_of_notMem, Memory.contents_copy_self]
  intro h
  obtain ⟨k, t, n, -, ht, hd⟩ := (hfreed _).mp h
  exact absurd (hc.lt_length ht hd) (Nat.lt_irrefl _)

theorem Frees.contents_freed (hc : c.Wf) (hk : c.Gone need k)
    (ht : c.cachedTensors.cache k = some (t, n)) :
    ((c.memory.copy ptr).1.freeAll freed).contents t.data = none := by
  obtain ⟨i, -, hi, -⟩ := hc.owns k t n ht
  rw [hi]
  exact Memory.contents_freeAll_of_mem ((hfreed _).mpr ⟨k, t, n, hk, ht, hi⟩)

end Memory

/-- An entry that stays keeps its buffer. -/
theorem Wf.data_ne (hc : c.Wf) {t' : CachedTensor} {n' : Nat} {k' : TensorKey}
    (hk : ¬ c.Gone need k) (ht : c.cachedTensors.cache k = some (t, n)) (hk' : c.Gone need k')
    (ht' : c.cachedTensors.cache k' = some (t', n')) : t'.data ≠ t.data := fun hd =>
  hk (hc.inj k' k t' t n' n ht' ht hd ▸ hk')

/-- A new block is cached. -/
theorem Wf.stored_new (hc : c.Wf) (hkey : c.cachedTensors.exist key = false) (hnull : ptr ≠ .null)
    (hptr : c.memory.contents ptr = some bytes) (hbytes : bytes ≠ []) (hdim : 0 < hDim) :
    c.Stored key bytes (sizeofTensorKey + bytes.length)
      (c.cacheTensor key ptr bytes.length hDim) := by
  have hlen := List.length_pos_iff.mpr hbytes
  have hr := hc.cache.put_spec hkey ⟨.heap c.memory.heap.length, bytes.length⟩
    (congrArg (· + bytes.length) hc.sizeofKey)
  have heq : c.cacheTensor key ptr bytes.length hDim =
      { c with
        cachedTensors := (c.cachedTensors.put key ⟨.heap c.memory.heap.length, bytes.length⟩
          bytes.length).1
        memory := (c.memory.copy ptr).1.freeAll ((c.cachedTensors.put key
          ⟨.heap c.memory.heap.length, bytes.length⟩ bytes.length).2.map CachedTensor.data) } := by
    rw [cacheTensor, if_neg (by simp [hkey]), if_neg hnull, if_neg (by omega), if_neg (by omega)]
    rfl
  rw [heq]
  generalize c.cachedTensors.put key ⟨.heap c.memory.heap.length, bytes.length⟩ bytes.length = r
    at hr ⊢
  have hne : sizeofTensorKey + bytes.length ≠ 0 := by omega
  generalize sizeofTensorKey + bytes.length = need at hr hne ⊢
  have hgone : ∀ k, c.Gone need k ↔ c.cachedTensors.Evicts need k := fun k => and_iff_right hne
  have hfreed : c.Frees need (r.2.map CachedTensor.data) := fun p => by
    simp only [List.mem_map, hr.deleted, hgone]
    constructor
    · rintro ⟨t, ⟨k, n, hk, ht⟩, rfl⟩
      exact ⟨k, t, n, hk, ht, rfl⟩
    · rintro ⟨k, t, n, hk, ht, rfl⟩
      exact ⟨t, ⟨k, n, hk, ht⟩, rfl⟩
  have hself := (hfreed.contents_new hc ptr).trans hptr
  have hfields := Memory.freeAll_fields (m := (c.memory.copy ptr).1) (r.2.map CachedTensor.data)
  refine
    { wf :=
        { cache := hr.wf
          sizeofKey := hr.sizeofKey.trans hc.sizeofKey
          owns := fun k t n hk => ?_
          inj := fun k k' t t' n n' hk hk' hd => ?_ }
      cachedPartitions := rfl
      submitted := rfl
      seq := hfields.1
      frame := hfields.2.1
      length_le := ?_
      maxBytes := hr.maxBytes
      self := fun _ =>
        ⟨_, _, hr.cache_self, hself, Memory.contents_of_length_le (Nat.le_refl _)⟩
      kept := fun k hk hkk => ?_
      gone := fun k hk => ?_
      contents := fun p b hb hk => hfreed.contents_old hb hk
      freed := fun k t n hk ht => hfreed.contents_freed hc hk ht
      dead := fun i hi hdead => ?_
      evicts := fun n k hk => ?_
      evicts_self := fun _ => hr.evicts_self }
  · rcases hr.of_cache hk with ⟨rfl, rfl⟩ | ⟨hev, ht⟩
    · exact ⟨_, bytes, rfl, hself, rfl, hbytes⟩
    · obtain ⟨i, b, hi, hb, hlen, hpos⟩ := hc.owns k t n ht
      refine ⟨i, b, hi, hfreed.contents_old hb fun k' t' n' hk' ht' => ?_, hlen, hpos⟩
      exact hc.data_ne (fun h => hev h.2) ht hk' ht'
  · rcases hr.of_cache hk with ⟨rfl, rfl⟩ | ⟨-, ht⟩ <;>
      rcases hr.of_cache hk' with ⟨rfl, rfl⟩ | ⟨-, ht'⟩
    · rfl
    · exact absurd (hc.lt_length ht' hd.symm) (Nat.lt_irrefl _)
    · exact absurd (hc.lt_length ht hd) (Nat.lt_irrefl _)
    · exact hc.inj k k' t t' n n' ht ht' hd
  · rw [hfields.2.2]
    simp [Memory.copy]
  · have hkk : k ≠ key := hkk.resolve_left hne
    rw [hr.cache_of_ne k hkk, if_neg fun h => hk ⟨hne, h⟩]
  · have hkk : k ≠ key := fun h => by
      have := (hc.cache.mem_lru k).mp hk.2.1
      simp only [exist, h] at hkey this
      simp [hkey] at this
    rw [hr.cache_of_ne k hkk, if_pos hk.2]
  · refine Memory.contents_freeAll_eq_none ?_
    rw [Memory.contents_copy_of_ne fun h => ?_, hdead]
    cases h
    exact absurd hi (Nat.lt_irrefl _)
  · rw [hr.evicts_of_ne n k (hk.resolve_left hne), hgone]

/-- What the code does with one block of a message. -/
theorem Wf.store_spec (hc : c.Wf) (key : TensorKey) (hDim : Int) (hnull : ptr ≠ .null)
    (hptr : c.memory.contents ptr = some bytes) :
    c.Stored key bytes (c.needs key bytes hDim)
      (if (bytes.length : Int) > 0 then c.cacheTensor key ptr bytes.length hDim else c) := by
  by_cases hbytes : bytes = []
  · simpa [needs, hbytes] using hc.stored_zero
  have hpos : (bytes.length : Int) > 0 := by
    have := List.length_pos_iff.mpr hbytes
    omega
  rw [if_pos hpos]
  by_cases hkey : c.cachedTensors.exist key = true
  · simpa [needs, cacheTensor, hkey] using hc.stored_zero
  by_cases hdim : hDim ≤ 0
  · simpa [needs, cacheTensor, hkey, hdim] using hc.stored_zero
  · simpa [needs, hkey, hbytes, hdim] using
      hc.stored_new (by simpa using hkey) hnull hptr hbytes (by omega)

/-! ## Caching the blocks of a message -/

variable (c) (q : Request)

/-- The bytes that the row block adds. -/
def rowNeeds : Nat := c.needs (getRowKey q.fields) q.rowBytes q.fields.hDim

/-- The bytes that the column block adds; it is cached again if the row block evicts it. -/
def colNeeds : Nat :=
  if c.cachedTensors.exist (getColKey q.fields) ∧
      ¬ c.Gone (c.rowNeeds q) (getColKey q.fields) then 0
  else if q.colBytes = [] ∨ q.fields.hDim ≤ 0 then 0
  else sizeofTensorKey + q.colBytes.length

/-- The entry of `k` goes for one of the blocks of `q`. -/
def Dropped (k : TensorKey) : Prop :=
  c.Gone (c.rowNeeds q) k ∨
    (c.colNeeds q ≠ 0 ∧ c.cachedTensors.Evicts (c.rowNeeds q + c.colNeeds q) k)

instance (k : TensorKey) : Decidable (c.Dropped q k) := inferInstanceAs (Decidable (_ ∨ _))

/-- What caching the blocks of `q` does. -/
structure Prepared (c' : ProxyCliImpl) : Prop where
  wf : c'.Wf
  cachedPartitions : c'.cachedPartitions = c.cachedPartitions
  submitted : c'.submitted = c.submitted
  seq : c'.memory.seq = c.memory.seq
  frame : c'.memory.frame = c.memory.frame
  kept : ∀ k t n, c.cachedTensors.cache k = some (t, n) → ¬ c.Dropped q k →
    c'.cachedTensors.cache k = some (t, n)
  freed : ∀ k t n, c.cachedTensors.cache k = some (t, n) → c.Dropped q k →
    c'.memory.contents t.data = none
  contents : ∀ p b, c.memory.contents p = some b →
    (∀ k t n, c.cachedTensors.cache k = some (t, n) → c.Dropped q k → t.data ≠ p) →
    c'.memory.contents p = some b
  /-- An entry is an old one, or a block of the message. -/
  of_cache : ∀ k t n, c'.cachedTensors.cache k = some (t, n) →
    (c.cachedTensors.cache k = some (t, n) ∧ ¬ c.Dropped q k) ∨
      c'.memory.contents t.data = q.block k
  /-- Where both blocks fit, both are there. -/
  stored : 0 < q.fields.hDim → c.rowNeeds q + c.colNeeds q ≤ c.cachedTensors.maxBytes →
    ∀ k, (q.block k).isSome → ¬ c.Dropped q k → c'.cachedTensors.exist k

variable {c q} {c₁ c₂ : ProxyCliImpl}

theorem rowKey_ne_colKey (p : WirePartition Empty) : getRowKey p ≠ getColKey p := by
  simp [getRowKey, getColKey]

theorem block_rowKey (h : q.rowBytes ≠ []) : q.block (getRowKey q.fields) = some q.rowBytes := by
  simp [Request.block, h]

theorem block_colKey (h : q.colBytes ≠ []) : q.block (getColKey q.fields) = some q.colBytes := by
  simp [Request.block, h, (rowKey_ne_colKey q.fields).symm]

theorem exist_eq_true_iff :
    c.cachedTensors.exist k = true ↔ ∃ t n, c.cachedTensors.cache k = some (t, n) := by
  rw [exist, Option.isSome_iff_exists, Prod.exists]

/-- A block that adds bytes was not cached. -/
theorem not_exist_of_needs (h : c.needs key bytes hDim ≠ 0) :
    c.cachedTensors.exist key = false ∧ bytes ≠ [] := by
  rw [needs] at h
  split at h
  · exact absurd rfl h
  · rename_i hno
    simp only [not_or, Bool.not_eq_true] at hno
    exact ⟨hno.1, hno.2.1⟩

theorem exist_of_needs_eq_zero (h : c.needs key bytes hDim = 0) (hbytes : bytes ≠ [])
    (hdim : 0 < hDim) : c.cachedTensors.exist key = true := by
  by_contra hno
  have hpos := List.length_pos_iff.mpr hbytes
  rw [needs, if_neg (by simp [hno, hbytes, hdim])] at h
  omega

theorem isSome_block (h : (q.block k).isSome) :
    (k = getRowKey q.fields ∧ q.rowBytes ≠ []) ∨ (k = getColKey q.fields ∧ q.colBytes ≠ []) := by
  rw [Request.block] at h
  split at h
  · exact .inl ‹_›
  · split at h
    · exact .inr ‹_›
    · cases h

section Compose
variable (h₁ : c.Stored (getRowKey q.fields) q.rowBytes (c.rowNeeds q) c₁)
include h₁

/-- The column block adds what the state before the row block says. -/
theorem Stored.needs_col :
    c₁.needs (getColKey q.fields) q.colBytes q.fields.hDim = c.colNeeds q := by
  have hexist : c₁.cachedTensors.exist (getColKey q.fields) = true ↔
      c.cachedTensors.exist (getColKey q.fields) = true ∧
        ¬ c.Gone (c.rowNeeds q) (getColKey q.fields) := by
    by_cases hgone : c.Gone (c.rowNeeds q) (getColKey q.fields)
    · simp [exist, h₁.gone _ hgone, hgone]
    · rw [exist, h₁.kept _ hgone (.inr (rowKey_ne_colKey q.fields).symm)]
      simp [exist, hgone]
  simp only [needs, colNeeds, hexist]
  split_ifs <;> simp_all

/-- For a key other than that of a new row block: it goes for the row block, or afterwards for the
column block. -/
theorem Stored.dropped_iff (hk : c.rowNeeds q = 0 ∨ k ≠ getRowKey q.fields) :
    c.Dropped q k ↔ c.Gone (c.rowNeeds q) k ∨ c₁.Gone (c.colNeeds q) k := by
  by_cases hgone : c.Gone (c.rowNeeds q) k
  · simp [Dropped, hgone]
  · have hcol : c₁.Gone (c.colNeeds q) k ↔
        c.colNeeds q ≠ 0 ∧ c.cachedTensors.Evicts (c.rowNeeds q + c.colNeeds q) k := by
      rw [Gone, h₁.evicts _ k hk, and_iff_right hgone]
    rw [Dropped, hcol]

/-- A row block that adds bytes stays if the column block fits beside it. -/
theorem Stored.not_gone_rowKey (h0 : c.rowNeeds q ≠ 0)
    (hroom : c.rowNeeds q + c.colNeeds q ≤ c.cachedTensors.maxBytes) :
    ¬ c₁.Gone (c.colNeeds q) (getRowKey q.fields) := fun hgone => by
  have := (h₁.evicts_self h0 _).mp hgone.2
  omega

end Compose

/-- The key of an entry is not one that a new block is put under. -/
theorem ne_of_cache {e : CachedTensor × Nat} (he : c.cachedTensors.cache k = some e) :
    c.needs key bytes hDim = 0 ∨ k ≠ key := by
  by_cases h0 : c.needs key bytes hDim = 0
  · exact .inl h0
  · refine .inr fun h => ?_
    have := (not_exist_of_needs h0).1
    simp [exist, ← h, he] at this

/-- Both blocks, one after the other. -/
theorem Stored.prepared (hc : c.Wf)
    (h₁ : c.Stored (getRowKey q.fields) q.rowBytes (c.rowNeeds q) c₁)
    (h₂ : c₁.Stored (getColKey q.fields) q.colBytes (c.colNeeds q) c₂) : c.Prepared q c₂ := by
  have hcol := h₁.needs_col
  -- An entry that the row block leaves.
  have hleft : ∀ k t n, c.cachedTensors.cache k = some (t, n) → ¬ c.Gone (c.rowNeeds q) k →
      c₁.cachedTensors.cache k = some (t, n) := fun k t n ht hk =>
    (h₁.kept k hk (ne_of_cache ht)).trans ht
  have hkept : ∀ k t n, c₁.cachedTensors.cache k = some (t, n) → ¬ c₁.Gone (c.colNeeds q) k →
      c₂.cachedTensors.cache k = some (t, n) := fun k t n ht hk =>
    (h₂.kept k hk (hcol ▸ ne_of_cache ht)).trans ht
  refine
    { wf := h₂.wf
      cachedPartitions := h₂.cachedPartitions.trans h₁.cachedPartitions
      submitted := h₂.submitted.trans h₁.submitted
      seq := h₂.seq.trans h₁.seq
      frame := h₂.frame.trans h₁.frame
      kept := fun k t n ht hk => ?_
      freed := fun k t n ht hk => ?_
      contents := fun p b hb hp => ?_
      of_cache := fun k t n ht => ?_
      stored := fun hdim hroom k hblock hk => ?_ }
  · rw [h₁.dropped_iff (ne_of_cache ht), not_or] at hk
    exact hkept k t n (hleft k t n ht hk.1) hk.2
  · by_cases hgone : c.Gone (c.rowNeeds q) k
    · obtain ⟨i, -, hi, -⟩ := hc.owns k t n ht
      have hdead := h₁.freed k t n hgone ht
      rw [hi] at hdead ⊢
      exact h₂.dead i (Nat.lt_of_lt_of_le (hc.lt_length ht hi) h₁.length_le) hdead
    · have hgone₂ := ((h₁.dropped_iff (ne_of_cache ht)).mp hk).resolve_left hgone
      exact h₂.freed k t n hgone₂ (hleft k t n ht hgone)
  · have hb₁ : c₁.memory.contents p = some b :=
      h₁.contents p b hb fun k t n hk ht => hp k t n ht (.inl hk)
    refine h₂.contents p b hb₁ fun k t n hk ht => ?_
    rintro rfl
    rcases h₁.of_cache ht with ⟨-, -, -, hfresh⟩ | ⟨-, ht₀⟩
    · simp [hfresh] at hb
    · exact hp k t n ht₀ ((h₁.dropped_iff (ne_of_cache ht₀)).mpr (.inr hk)) rfl
  · rcases h₂.of_cache ht with ⟨h0, rfl, hself, -⟩ | ⟨hk₂, ht₁⟩
    · rw [← hcol] at h0
      exact .inr (hself.trans (block_colKey (not_exist_of_needs h0).2).symm)
    rcases h₁.of_cache ht₁ with ⟨h0, rfl, hself, -⟩ | ⟨hk₁, ht₀⟩
    · refine .inr (Eq.trans ?_ (block_rowKey (not_exist_of_needs h0).2).symm)
      exact h₂.contents _ _ hself fun k' t' n' hk' ht' => h₁.wf.data_ne hk₂ ht₁ hk' ht'
    · refine .inl ⟨ht₀, ?_⟩
      rw [h₁.dropped_iff (ne_of_cache ht₀), not_or]
      exact ⟨hk₁, hk₂⟩
  · rw [exist_eq_true_iff]
    rcases isSome_block hblock with ⟨rfl, hbytes⟩ | ⟨rfl, hbytes⟩
    · by_cases h0 : c.rowNeeds q = 0
      · obtain ⟨t, n, ht⟩ := exist_eq_true_iff.mp (exist_of_needs_eq_zero h0 hbytes hdim)
        rw [h₁.dropped_iff (ne_of_cache ht), not_or] at hk
        exact ⟨t, n, hkept _ t n (hleft _ t n ht hk.1) hk.2⟩
      · obtain ⟨t, n, ht, -⟩ := h₁.self h0
        exact ⟨t, n, hkept _ t n ht (h₁.not_gone_rowKey h0 hroom)⟩
    · by_cases h0 : c.colNeeds q = 0
      · obtain ⟨t, n, ht⟩ :=
          exist_eq_true_iff.mp (exist_of_needs_eq_zero (hcol.trans h0) hbytes hdim)
        exact ⟨t, n, hkept _ t n ht fun hg => hg.1 h0⟩
      · obtain ⟨t, n, ht, -⟩ := h₂.self h0
        exact ⟨t, n, ht⟩

theorem matAt_partition (seq : Nat) :
    matAt (q.partition seq) 0 = (.frame seq true, (q.rowBytes.length : Int)) ∧
      matAt (q.partition seq) 1 = (.frame seq false, (q.colBytes.length : Int)) := ⟨rfl, rfl⟩

/-- `HandleMatMul` caches the blocks of the message in the frame. -/
theorem Wf.cacheBlocks_spec (hc : c.Wf) (hframe : c.memory.frame = some q) :
    c.Prepared q (c.cacheBlocks (q.partition c.memory.seq)) := by
  have hrow : c.memory.contents (.frame c.memory.seq true) = some q.rowBytes := by
    simp [Memory.contents, hframe]
  have h₁ := hc.store_spec (getRowKey q.fields) q.fields.hDim (by simp) hrow
  have hcol : (if (q.rowBytes.length : Int) > 0 then c.cacheTensor (getRowKey q.fields)
      (.frame c.memory.seq true) q.rowBytes.length q.fields.hDim else c).memory.contents
      (.frame c.memory.seq false) = some q.colBytes := by
    simp only [Memory.contents, h₁.seq, h₁.frame, hframe, if_true]
    rfl
  have h₂ := h₁.wf.store_spec (getColKey q.fields) q.fields.hDim (by simp) hcol
  rw [Stored.needs_col h₁] at h₂
  exact Stored.prepared hc h₁ h₂

/-! ## Filling -/

/-- The block from the cache, or the one that is there. -/
def fromCache (c : ProxyCliImpl) (k : TensorKey) (d : Ptr × Int) : Ptr × Int :=
  match c.cachedTensors.cache k with
  | some (t, _) => (t.data, t.bytes)
  | none => d

/-- The partition with the blocks that are cached. -/
def filled (c : ProxyCliImpl) (p : WirePartition Ptr) : WirePartition Ptr :=
  { p with mat := [c.fromCache (getRowKey p) (matAt p 0), c.fromCache (getColKey p) (matAt p 1)] }

/-- Only the order of the cache differs. -/
structure Refreshed (c c' : ProxyCliImpl) : Prop where
  wf : c'.Wf
  cache : c'.cachedTensors.cache = c.cachedTensors.cache
  maxBytes : c'.cachedTensors.maxBytes = c.cachedTensors.maxBytes
  cachedPartitions : c'.cachedPartitions = c.cachedPartitions
  memory : c'.memory = c.memory
  submitted : c'.submitted = c.submitted

theorem Wf.refreshed (hc : c.Wf) : c.Refreshed c := ⟨hc, rfl, rfl, rfl, rfl, rfl⟩

theorem Refreshed.trans (h₁ : c.Refreshed c₁) (h₂ : c₁.Refreshed c₂) : c.Refreshed c₂ where
  wf := h₂.wf
  cache := h₂.cache.trans h₁.cache
  maxBytes := h₂.maxBytes.trans h₁.maxBytes
  cachedPartitions := h₂.cachedPartitions.trans h₁.cachedPartitions
  memory := h₂.memory.trans h₁.memory
  submitted := h₂.submitted.trans h₁.submitted

theorem Wf.refreshed_fillBlock (hc : c.Wf) (k : TensorKey) (i : Nat) (p : WirePartition Ptr) :
    c.Refreshed (c.fillBlock k i p).1 := by
  rw [fillBlock]
  cases hget : c.cachedTensors.get k with
  | none => exact hc.refreshed
  | some r =>
    obtain ⟨t, cachedTensors⟩ := r
    have hwf := hc.cache.get hget
    obtain ⟨e, -, he⟩ := Option.map_eq_some_iff.mp hget
    cases he
    exact
      { wf := { cache := hwf, sizeofKey := hc.sizeofKey, owns := hc.owns, inj := hc.inj }
        cache := rfl
        maxBytes := rfl
        cachedPartitions := rfl
        memory := rfl
        submitted := rfl }

/-- A partition with two blocks. -/
def Paired (p : WirePartition Ptr) : Prop := ∃ r s, p.mat = [r, s]

section Fill
variable {p : WirePartition Ptr} {r s : Ptr × Int} (hmat : p.mat = [r, s])
include hmat

theorem fillBlock_zero_snd (k : TensorKey) :
    (c.fillBlock k 0 p).2 = { p with mat := [c.fromCache k r, s] } := by
  rw [fillBlock, FixSizeLRUCache.get, fromCache]
  cases c.cachedTensors.cache k with
  | none => simp [← hmat]
  | some e => simp [hmat]

theorem fillBlock_one_snd (k : TensorKey) :
    (c.fillBlock k 1 p).2 = { p with mat := [r, c.fromCache k s] } := by
  rw [fillBlock, FixSizeLRUCache.get, fromCache]
  cases c.cachedTensors.cache k with
  | none => simp [← hmat]
  | some e => simp [hmat]

end Fill

theorem Refreshed.fromCache (h : c.Refreshed c₁) (k : TensorKey) (d : Ptr × Int) :
    c₁.fromCache k d = c.fromCache k d := by
  rw [ProxyCliImpl.fromCache, ProxyCliImpl.fromCache, h.cache]

theorem Wf.fillPartition_spec (hc : c.Wf) {p : WirePartition Ptr} (hp : Paired p) :
    c.Refreshed (c.fillPartition p).1 ∧ (c.fillPartition p).2 = c.filled p := by
  have h₁ := hc.refreshed_fillBlock (getRowKey p) 0 p
  refine ⟨h₁.trans (h₁.wf.refreshed_fillBlock ..), ?_⟩
  obtain ⟨r, s, hmat⟩ := hp
  have hrow := c.fillBlock_zero_snd hmat (getRowKey p)
  have hmat₁ : (c.fillBlock (getRowKey p) 0 p).2.mat = [c.fromCache (getRowKey p) r, s] := by
    rw [hrow]
  rw [fillPartition, fillBlock_one_snd hmat₁, hrow, h₁.fromCache, filled]
  simp [matAt, hmat, getColKey]

end ProxyCliImpl
end Morphling.Client
