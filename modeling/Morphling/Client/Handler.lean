import Morphling.Client.Blocks

/-!
# What the handler does once the blocks are cached

* `Waits`: a partition that waits has no size for a block that is not cached.
* `checkCachedPartition_spec`: the partitions whose blocks are there are handled, the others stay.
  Those for whose output there is a buffer are submitted.
* `Handled`, `handleMatMul_spec`: the same for the whole handler, with the partition of the message.
-/

namespace Morphling.Client

open Wire List FixSizeLRUCache

/-- A partition that was submitted: its fields, and its operands with their sizes as its
task finds them. -/
structure Submission where
  fields : WirePartition Empty
  row : Option (List UInt8) × Int
  col : Option (List UInt8) × Int
  deriving DecidableEq

/-- What the task of a partition finds at its pointers. -/
def submissionOf (m : Memory) (p : WirePartition Ptr) : Submission :=
  { fields := p.scalars
    row := (m.contents (matAt p 0).1, (matAt p 0).2)
    col := (m.contents (matAt p 1).1, (matAt p 1).2) }

namespace ProxyCliImpl

variable (allocates : Nat → Bool) {c c' c₁ : ProxyCliImpl} {p : WirePartition Ptr}
  {ps : List (WirePartition Ptr)}

theorem handlePartition_of_ne (h : p.hDim ≠ 0) : c.handlePartition allocates p =
    some { c with submitted := c.submitted ++ [p].filter (granted allocates) } := by
  rw [handlePartition, if_neg h]
  cases hp : granted allocates p <;> simp [hp]

/-! ## The partitions that wait -/

/-- Both blocks of a partition are cached. -/
def has {P : Type*} (c : ProxyCliImpl) (p : WirePartition P) : Bool :=
  c.cachedTensors.exist (getRowKey p) && c.cachedTensors.exist (getColKey p)

/-- A partition that waits: a block that is not cached has no size. -/
structure Waits (c : ProxyCliImpl) (p : WirePartition Ptr) : Prop where
  paired : Paired p
  hDim : p.hDim ≠ 0
  row : c.cachedTensors.exist (getRowKey p) = false → (matAt p 0).2 ≤ 0
  col : c.cachedTensors.exist (getColKey p) = false → (matAt p 1).2 ≤ 0

/-- The test of `CheckCachedPartition`. -/
def ready (p : WirePartition Ptr) : Bool := (matAt p 0).2 > 0 ∧ (matAt p 1).2 > 0

theorem Refreshed.filled (h : c.Refreshed c') (p : WirePartition Ptr) :
    c'.filled p = c.filled p := by
  rw [ProxyCliImpl.filled, ProxyCliImpl.filled, h.fromCache, h.fromCache]

variable {k : TensorKey}

/-- A block from the cache has a size. -/
theorem Wf.fromCache_pos (hc : c.Wf) {d : Ptr × Int}
    (hd : c.cachedTensors.exist k = false → d.2 ≤ 0) :
    0 < (c.fromCache k d).2 ↔ c.cachedTensors.exist k = true := by
  rw [fromCache]
  rcases hk : c.cachedTensors.cache k with _ | ⟨t, n⟩
  · have hno : c.cachedTensors.exist k = false := by rw [exist, hk]; rfl
    have := hd hno
    simp only [hno, Bool.false_eq_true, iff_false]
    omega
  · obtain ⟨-, b, -, -, hlen, hpos⟩ := hc.owns k t n hk
    have := length_pos_iff.mpr hpos
    refine iff_of_true ?_ (by rw [exist, hk]; rfl)
    change 0 < t.bytes
    omega

theorem Waits.ready_filled (hc : c.Wf) (hp : c.Waits p) : ready (c.filled p) = c.has p := by
  rw [Bool.eq_iff_iff, has, Bool.and_eq_true, ← hc.fromCache_pos hp.row, ← hc.fromCache_pos hp.col]
  simp [ready, filled, matAt]

/-- What was submitted does not matter to the cache. -/
theorem Refreshed.submit (h : c.Refreshed c') (l : List (WirePartition Ptr)) :
    Refreshed { c with submitted := l } { c' with submitted := l } where
  wf := ⟨h.wf.cache, h.wf.sizeofKey, h.wf.owns, h.wf.inj⟩
  cache := h.cache
  maxBytes := h.maxBytes
  cachedPartitions := h.cachedPartitions
  memory := h.memory
  submitted := rfl

theorem checkLoop_spec (hc : c.Wf) (hps : ∀ p ∈ ps, Paired p ∧ p.hDim ≠ 0) :
    ∃ c', checkLoop allocates ps c = some (c', ps.map c.filled,
        ((ps.map c.filled).filter ready).map getPartitionKey) ∧
      Refreshed { c with submitted := c.submitted ++
        ((ps.map c.filled).filter ready).filter (granted allocates) } c' := by
  induction ps generalizing c with
  | nil => exact ⟨c, rfl, by simpa using hc.refreshed⟩
  | cons p ps ih =>
    obtain ⟨⟨hp, hdim⟩, hps⟩ := forall_mem_cons.mp hps
    obtain ⟨hfill, hfilled⟩ := hc.fillPartition_spec hp
    rcases hfp : c.fillPartition p with ⟨c₁, p₁⟩
    rw [hfp] at hfill hfilled
    replace hfill : c.Refreshed c₁ := hfill
    obtain rfl : p₁ = c.filled p := hfilled
    have hdim₁ : (c.filled p).hDim ≠ 0 := hdim
    by_cases hr : (matAt (c.filled p) 0).2 > 0 ∧ (matAt (c.filled p) 1).2 > 0
    · have hready : ready (c.filled p) = true := decide_eq_true hr
      have hsub := hfill.submit (c.submitted ++ [c.filled p].filter (granted allocates))
      obtain ⟨c', hloop, hc'⟩ := ih hsub.wf hps
      have hmap : ps.map (filled { c₁ with
          submitted := c.submitted ++ [c.filled p].filter (granted allocates) }) =
          ps.map c.filled := map_congr_left fun p' _ => hsub.filled p'
      rw [hmap] at hloop hc'
      refine ⟨c', ?_, ?_⟩
      · have hhandle := handlePartition_of_ne (c := c₁) allocates hdim₁
        rw [hfill.submitted] at hhandle
        simp only [checkLoop, hfp, if_pos hr, hhandle, Option.bind_eq_bind, Option.bind_some, hloop,
          map_cons, filter_cons_of_pos hready]
        rfl
      · rw [map_cons, filter_cons_of_pos hready, ← singleton_append, filter_append, ← append_assoc]
        exact (hfill.submit _).trans hc'
    · have hready : ready (c.filled p) = false := decide_eq_false hr
      obtain ⟨c', hloop, hc'⟩ := ih hfill.wf hps
      have hmap : ps.map c₁.filled = ps.map c.filled :=
        map_congr_left fun p' _ => hfill.filled p'
      rw [hmap, hfill.submitted] at hc'
      rw [hmap] at hloop
      refine ⟨c', ?_, ?_⟩
      · simp only [checkLoop, hfp, if_neg hr, hloop, Option.bind_eq_bind, Option.bind_some,
          map_cons, filter_cons, hready]
        rfl
      · rw [map_cons, filter_cons, hready]
        exact (hfill.submit _).trans hc'

/-- The key of a partition decides whether its blocks are there. -/
theorem has_congr {p' : WirePartition Ptr} (h : getPartitionKey p = getPartitionKey p') :
    c.has p = c.has p' := by
  simp only [getPartitionKey, PartitionText.mk.injEq] at h
  obtain ⟨hv, hp, hr, hc⟩ := h
  simp only [has, getRowKey, getColKey, hv, hp, hr, hc]

theorem filter_ready (hc : c.Wf) (hps : ∀ p ∈ ps, c.Waits p) :
    (ps.map c.filled).filter ready = (ps.filter c.has).map c.filled := by
  rw [filter_map]
  congr 1
  exact filter_congr fun p hp => (hps p hp).ready_filled hc

/-- The client after `CheckCachedPartition`, but for the order of the cache: the partitions that have
their blocks were handled, the others are kept. -/
def checked (c : ProxyCliImpl) : ProxyCliImpl :=
  { c with
    cachedPartitions := (c.cachedPartitions.filter fun p => !c.has p).map c.filled
    submitted := c.submitted ++
      ((c.cachedPartitions.filter c.has).map c.filled).filter (granted allocates) }

theorem checkCachedPartition_spec (hc : c.Wf) (hps : ∀ p ∈ c.cachedPartitions, c.Waits p) :
    ∃ c', c.checkCachedPartition allocates = some c' ∧ (c.checked allocates).Refreshed c' := by
  obtain ⟨c', hloop, hc'⟩ := checkLoop_spec allocates hc fun p hp => ⟨(hps p hp).paired, (hps p hp).hDim⟩
  rw [filter_ready hc hps] at hloop hc'
  -- The partitions are erased by their keys; those with one key are ready together.
  have herase : (c.cachedPartitions.map c.filled).filter (getPartitionKey · ∉
      ((c.cachedPartitions.filter c.has).map c.filled).map getPartitionKey) =
      (c.cachedPartitions.filter fun p => !c.has p).map c.filled := by
    rw [filter_map]
    congr 1
    refine filter_congr fun p hp => ?_
    have hmem : getPartitionKey (c.filled p) ∈
        ((c.cachedPartitions.filter c.has).map c.filled).map getPartitionKey ↔ c.has p = true := by
      simp only [mem_map, mem_filter]
      constructor
      · rintro ⟨-, ⟨p', ⟨-, hhas⟩, rfl⟩, hkey⟩
        exact (has_congr hkey).symm.trans hhas
      · exact fun hhas => ⟨_, ⟨p, ⟨hp, hhas⟩, rfl⟩, rfl⟩
    simp only [Function.comp_apply, hmem]
    cases c.has p <;> rfl
  refine ⟨{ c' with
    cachedPartitions := (c.cachedPartitions.filter fun p => !c.has p).map c.filled }, ?_, ?_⟩
  · simp only [checkCachedPartition, hloop, Option.bind_eq_bind, Option.bind_some, herase]
    rfl
  · exact
      { wf := ⟨hc'.wf.cache, hc'.wf.sizeofKey, hc'.wf.owns, hc'.wf.inj⟩
        cache := hc'.cache
        maxBytes := hc'.maxBytes
        cachedPartitions := rfl
        memory := hc'.memory
        submitted := hc'.submitted }

/-! ## The handler -/

/-- A block of the message was left out and is not cached: the tests before `SavePartition`. -/
def lacks (c : ProxyCliImpl) (p : WirePartition Ptr) : Bool :=
  ((matAt p 0).2 = 0 ∧ !c.cachedTensors.exist (getRowKey p)) ∨
    ((matAt p 1).2 = 0 ∧ !c.cachedTensors.exist (getColKey p))

/-- The partition as `SavePartition` keeps it. -/
def blank (p : WirePartition Ptr) : WirePartition Ptr := { p with mat := [(.null, 0), (.null, 0)] }

/-- The partitions that `HandleMatMul` handles: those that waited and have their blocks, and that of
the message. -/
def due (c : ProxyCliImpl) (p : WirePartition Ptr) : List (WirePartition Ptr) :=
  (c.cachedPartitions.filter c.has).map c.filled ++ if c.lacks p then [] else [c.filled p]

/-- The partitions that wait afterwards. -/
def kept (c : ProxyCliImpl) (p : WirePartition Ptr) : List (WirePartition Ptr) :=
  (c.cachedPartitions.filter fun p => !c.has p).map c.filled ++ if c.lacks p then [blank p] else []

/-- What `HandleMatMul` does with the partition `p`; `c` has the blocks of the message. -/
structure Handled (c : ProxyCliImpl) (allocates : Nat → Bool) (p : WirePartition Ptr)
    (c' : ProxyCliImpl) : Prop where
  wf : c'.Wf
  cache : c'.cachedTensors.cache = c.cachedTensors.cache
  maxBytes : c'.cachedTensors.maxBytes = c.cachedTensors.maxBytes
  memory : c'.memory = c.memory
  submitted : c'.submitted = c.submitted ++ (c.due p).filter (granted allocates)
  cachedPartitions : c'.cachedPartitions = c.kept p

theorem handleMatMul_of_hDim_zero (h : p.hDim = 0) : c.handleMatMul allocates p = none := by
  rw [handleMatMul, if_pos h]

theorem Refreshed.exist (h : c.Refreshed c') (k : TensorKey) :
    c'.cachedTensors.exist k = c.cachedTensors.exist k := by
  rw [FixSizeLRUCache.exist, FixSizeLRUCache.exist, h.cache]

theorem Refreshed.has (h : c.Refreshed c') (p : WirePartition Ptr) : c'.has p = c.has p := by
  rw [ProxyCliImpl.has, ProxyCliImpl.has, h.exist, h.exist]

theorem Refreshed.waits (h : c.Refreshed c') (hp : c.Waits p) : c'.Waits p where
  paired := hp.paired
  hDim := hp.hDim
  row hrow := hp.row ((h.exist _).symm.trans hrow)
  col hcol := hp.col ((h.exist _).symm.trans hcol)

/-- The partition is filled, and the partitions that wait are looked at. -/
theorem Wf.fill_check (hc : c.Wf) (hp : Paired p) (hps : ∀ p' ∈ c.cachedPartitions, c.Waits p') :
    (c.fillPartition p).2 = c.filled p ∧
      ∃ c', (c.fillPartition p).1.checkCachedPartition allocates = some c' ∧
        (c.checked allocates).Refreshed c' := by
  obtain ⟨hfill, hfilled⟩ := hc.fillPartition_spec hp
  refine ⟨hfilled, ?_⟩
  generalize (c.fillPartition p).1 = c₁ at hfill ⊢
  obtain ⟨c', hcheck, hc'⟩ := checkCachedPartition_spec allocates hfill.wf fun p' hp' =>
    hfill.waits (hps p' (hfill.cachedPartitions ▸ hp'))
  have hhas : c₁.has = c.has := funext hfill.has
  have hfun : c₁.filled = c.filled := funext hfill.filled
  rw [checked, hhas, hfun, hfill.cachedPartitions, hfill.submitted] at hc'
  exact ⟨c', hcheck, ⟨hc'.wf, hc'.cache.trans hfill.cache, hc'.maxBytes.trans hfill.maxBytes,
    hc'.cachedPartitions, hc'.memory.trans hfill.memory, hc'.submitted⟩⟩

theorem handleMatMul_spec (hp : Paired p) (hdim : p.hDim ≠ 0) (hc : (c.cacheBlocks p).Wf)
    (hps : ∀ p' ∈ (c.cacheBlocks p).cachedPartitions, (c.cacheBlocks p).Waits p') :
    ∃ c', c.handleMatMul allocates p = some c' ∧ (c.cacheBlocks p).Handled allocates p c' := by
  obtain ⟨hfilled, c', hcheck, hc'⟩ := hc.fill_check allocates hp hps
  have hstep : c.handleMatMul allocates p =
      if (c.cacheBlocks p).lacks p then some (c'.savePartition ((c.cacheBlocks p).filled p))
      else c'.handlePartition allocates ((c.cacheBlocks p).filled p) := by
    rw [handleMatMul, if_neg hdim]
    simp only [hfilled, hcheck, Option.bind_eq_bind, Option.bind_some, lacks, decide_eq_true_eq]
    by_cases hrow : (matAt p 0).2 = 0 ∧ !(c.cacheBlocks p).cachedTensors.exist (getRowKey p)
    · rw [if_pos hrow, if_pos (.inl hrow)]
      rfl
    · rw [if_neg hrow]
      by_cases hcol : (matAt p 1).2 = 0 ∧ !(c.cacheBlocks p).cachedTensors.exist (getColKey p)
      · rw [if_pos hcol, if_pos (.inr hcol)]
        rfl
      · rw [if_neg hcol, if_neg (not_or.mpr ⟨hrow, hcol⟩)]
  generalize c.cacheBlocks p = c₁ at hstep hc' hc
  rw [hstep]
  by_cases hlacks : c₁.lacks p = true
  · rw [if_pos hlacks]
    refine ⟨_, rfl, ⟨hc'.wf.cache, hc'.wf.sizeofKey, hc'.wf.owns, hc'.wf.inj⟩, hc'.cache,
      hc'.maxBytes, hc'.memory, ?_, ?_⟩
    · simpa [due, hlacks, savePartition, checked] using hc'.submitted
    · rw [kept, if_pos hlacks, savePartition, hc'.cachedPartitions]
      rfl
  · have hdim₁ : (c₁.filled p).hDim ≠ 0 := hdim
    rw [if_neg hlacks, handlePartition_of_ne allocates hdim₁]
    refine ⟨_, rfl, ⟨hc'.wf.cache, hc'.wf.sizeofKey, hc'.wf.owns, hc'.wf.inj⟩, hc'.cache,
      hc'.maxBytes, hc'.memory, ?_, ?_⟩
    · rw [due, if_neg hlacks, hc'.submitted, checked, filter_append, append_assoc]
    · simpa [kept, hlacks, checked] using hc'.cachedPartitions

variable {allocates} {q : Request} {b d : List UInt8}

/-- The entries have buffers of their own, so that frames may come and go. -/
theorem Wf.of_heap (hc : c.Wf) (hcache : c'.cachedTensors = c.cachedTensors)
    (hheap : c'.memory.heap = c.memory.heap) : c'.Wf where
  cache := hcache ▸ hc.cache
  sizeofKey := hcache ▸ hc.sizeofKey
  owns k t n ht := by
    rw [hcache] at ht
    obtain ⟨i, b, hi, hb⟩ := hc.owns k t n ht
    rw [hi] at hb ⊢
    refine ⟨i, b, rfl, ?_⟩
    rwa [Memory.contents, hheap, ← Memory.contents]
  inj := hcache ▸ hc.inj

theorem Wf.arrive (hc : c.Wf) : (c.arrive q).Wf := hc.of_heap rfl rfl

theorem Wf.drain (hc : c.Wf) : c.drain.Wf := hc.of_heap rfl rfl

/-- A message that does not end the client: its blocks are cached, then it is handled. -/
theorem Wf.receive_spec (hc : c.Wf) (allocates : Nat → Bool) (hdim : q.fields.hDim ≠ 0)
    (hps : ∀ c₁, (c.arrive q).Prepared q c₁ → ∀ p ∈ c.cachedPartitions, c₁.Waits p) :
    ∃ c₁ c', c.receive allocates q = some c' ∧ (c.arrive q).Prepared q c₁ ∧
      c₁.Handled allocates (q.partition (c.memory.seq + 1)) c' := by
  have hprep : (c.arrive q).Prepared q
      ((c.arrive q).cacheBlocks (q.partition (c.memory.seq + 1))) := hc.arrive.cacheBlocks_spec rfl
  obtain ⟨c', hstep, hhandled⟩ := handleMatMul_spec allocates ⟨_, _, rfl⟩ hdim hprep.wf fun p hp =>
    hps _ hprep p (hprep.cachedPartitions ▸ hp)
  exact ⟨_, c', hstep, hprep, hhandled⟩

/-! ## The blocks that are cached -/

/-- The bytes that are cached under a key. -/
def cachedBlock (c : ProxyCliImpl) (k : TensorKey) : Option (List UInt8) :=
  (c.cachedTensors.cache k).bind fun e => c.memory.contents e.1.data

theorem cachedBlock_of_cache {t : CachedTensor} {n : Nat}
    (h : c.cachedTensors.cache k = some (t, n)) : c.cachedBlock k = c.memory.contents t.data := by
  rw [cachedBlock, h]
  rfl

theorem Wf.exist_eq (hc : c.Wf) (k : TensorKey) :
    c.cachedTensors.exist k = (c.cachedBlock k).isSome := by
  rcases hk : c.cachedTensors.cache k with _ | ⟨t, n⟩
  · rw [exist, cachedBlock, hk]
    rfl
  · obtain ⟨-, b, -, hb, -⟩ := hc.owns k t n hk
    rw [exist, cachedBlock_of_cache hk, hb, hk]
    rfl

theorem Wf.cachedBlock_of_heap (hc : c.Wf) (hcache : c'.cachedTensors = c.cachedTensors)
    (hheap : c'.memory.heap = c.memory.heap) (k : TensorKey) :
    c'.cachedBlock k = c.cachedBlock k := by
  rw [cachedBlock, cachedBlock, hcache]
  rcases hk : c.cachedTensors.cache k with _ | ⟨t, n⟩
  · rfl
  · obtain ⟨i, -, hi, -⟩ := hc.owns k t n hk
    simp only [Option.bind_some, hi, Memory.contents, hheap]

theorem Wf.cachedBlock_arrive (hc : c.Wf) (k : TensorKey) :
    (c.arrive q).cachedBlock k = c.cachedBlock k :=
  hc.cachedBlock_of_heap (show (c.arrive q).cachedTensors = _ from rfl) rfl k

theorem Wf.cachedBlock_drain (hc : c.Wf) (k : TensorKey) :
    c.drain.cachedBlock k = c.cachedBlock k :=
  hc.cachedBlock_of_heap (show c.drain.cachedTensors = _ from rfl) rfl k

theorem fromCache_of_none (d : Ptr × Int) (h : c.cachedTensors.cache k = none) :
    c.fromCache k d = d := by
  rw [fromCache, h]

/-- What a task finds at the pointer that `FillPartition` takes from the cache. -/
theorem Wf.fromCache_of_block (hc : c.Wf) (d : Ptr × Int) (h : c.cachedBlock k = some b) :
    c.memory.contents (c.fromCache k d).1 = some b ∧ (c.fromCache k d).2 = b.length := by
  rcases hk : c.cachedTensors.cache k with _ | ⟨t, n⟩
  · simp [cachedBlock, hk] at h
  · obtain ⟨-, b', -, hb', hlen, -⟩ := hc.owns k t n hk
    rw [cachedBlock_of_cache hk, hb'] at h
    cases h
    rw [fromCache, hk]
    exact ⟨hb', hlen⟩

theorem Handled.cachedBlock (h : c.Handled allocates p c') (k : TensorKey) :
    c'.cachedBlock k = c.cachedBlock k := by
  rw [ProxyCliImpl.cachedBlock, ProxyCliImpl.cachedBlock, h.cache, h.memory]

/-- Where everything fits, nothing goes. -/
theorem Wf.not_dropped (hc : c.Wf) (hroom : c.cachedTensors.currentBytes +
    (c.rowNeeds q + c.colNeeds q) ≤ c.cachedTensors.maxBytes) (k : TensorKey) :
    ¬ c.Dropped q k := by
  rintro (h | h)
  · exact hc.cache.not_evicts (by omega) h.2
  · exact hc.cache.not_evicts hroom h.2

/-- A block that does not go is still cached. -/
theorem Prepared.cachedBlock_of_kept (hc : c.Wf) (h : c.Prepared q c₁)
    (hb : c.cachedBlock k = some b) (hk : ¬ c.Dropped q k) : c₁.cachedBlock k = some b := by
  rcases ht : c.cachedTensors.cache k with _ | ⟨t, n⟩
  · simp [ProxyCliImpl.cachedBlock, ht] at hb
  · rw [cachedBlock_of_cache ht] at hb
    rw [cachedBlock_of_cache (h.kept k t n ht hk)]
    refine h.contents _ b hb fun k' t' n' ht' hk' hd => ?_
    exact hk (hc.inj k' k t' t n' n ht' ht hd ▸ hk')

/-- A cached block was there before, or came with the message. -/
theorem Prepared.cachedBlock_cases (h : c.Prepared q c₁) (hc : c.Wf)
    (hb : c₁.cachedBlock k = some b) :
    (c.cachedBlock k = some b ∧ ¬ c.Dropped q k) ∨ q.block k = some b := by
  rcases ht : c₁.cachedTensors.cache k with _ | ⟨t, n⟩
  · simp [ProxyCliImpl.cachedBlock, ht] at hb
  · rcases h.of_cache k t n ht with ⟨hold, hk⟩ | hnew
    · obtain ⟨-, b', -, hb', -⟩ := hc.owns k t n hold
      have hold' : c.cachedBlock k = some b' := (cachedBlock_of_cache hold).trans hb'
      rw [h.cachedBlock_of_kept hc hold' hk] at hb
      exact .inl ⟨hold'.trans hb, hk⟩
    · rw [cachedBlock_of_cache ht, hnew] at hb
      exact .inr hb

/-- What a message finds for its block under `k`, by the state before: the block that is cached and
stays, or else its own. -/
def Finds (c : ProxyCliImpl) (q : Request) (k : TensorKey) (b : List UInt8) : Prop :=
  (c.cachedBlock k = some b ∧ ¬ c.Dropped q k) ∨
    q.block k = some b ∧ ∀ d, c.cachedBlock k = some d → c.Dropped q k

theorem exists_finds (hb : q.block k = some b) : ∃ d, c.Finds q k d := by
  by_cases h : ∃ d, c.cachedBlock k = some d ∧ ¬ c.Dropped q k
  · obtain ⟨d, hd⟩ := h
    exact ⟨d, .inl hd⟩
  · exact ⟨b, .inr ⟨hb, fun d hd => by_contra fun hk => h ⟨d, hd, hk⟩⟩⟩

theorem Finds.eq_of_none (h : c.Finds q k d) (hnone : c.cachedBlock k = none)
    (hb : q.block k = some b) : d = b := by
  rcases h with ⟨hd, -⟩ | ⟨hd, -⟩
  · cases hnone.symm.trans hd
  · exact Option.some.inj (hd.symm.trans hb)

/-- The operand of a message for the block `b`, which is at `ptr` in the frame. -/
theorem Prepared.operand_eq (hc : c.Wf) (h : c.Prepared q c₁) {ptr : Ptr} (hb : q.block k = some b)
    (hptr : c₁.memory.contents ptr = some b) (hd : c.Finds q k d) :
    (c₁.memory.contents (c₁.fromCache k (ptr, (b.length : Int))).1,
        (c₁.fromCache k (ptr, (b.length : Int))).2) = (some d, (d.length : Int)) := by
  have hcached : c₁.cachedBlock k = some d → (c₁.memory.contents (c₁.fromCache k (ptr,
      (b.length : Int))).1, (c₁.fromCache k (ptr, (b.length : Int))).2) =
      (some d, (d.length : Int)) := fun hk => by
    obtain ⟨hdata, hsize⟩ := h.wf.fromCache_of_block (ptr, (b.length : Int)) hk
    rw [hdata, hsize]
  rcases hd with ⟨hold, hk⟩ | ⟨hown, hgone⟩
  · exact hcached (h.cachedBlock_of_kept hc hold hk)
  obtain rfl : b = d := Option.some.inj (hb.symm.trans hown)
  rcases hb₁ : c₁.cachedBlock k with _ | d
  · have hnone : c₁.cachedTensors.cache k = none := by
      have := h.wf.exist_eq k
      rw [hb₁] at this
      simpa [exist] using this
    rw [fromCache_of_none _ hnone, hptr]
  · rcases h.cachedBlock_cases hc hb₁ with ⟨hold, hk⟩ | hnew
    · exact absurd (hgone d hold) hk
    · exact hcached (hb₁.trans (hnew.symm.trans hb))

/-- Without eviction, the blocks of the message are added to those that are cached. -/
theorem Prepared.cachedBlock (hc : c.Wf) (h : c.Prepared q c₁) (hdim : 0 < q.fields.hDim)
    (hroom : c.cachedTensors.currentBytes + (c.rowNeeds q + c.colNeeds q) ≤
      c.cachedTensors.maxBytes) (k : TensorKey) :
    c₁.cachedBlock k = (c.cachedBlock k).or (q.block k) := by
  have hkeep := hc.not_dropped hroom k
  rcases hb : c.cachedBlock k with _ | b
  · rw [Option.none_or]
    rcases hb₁ : c₁.cachedBlock k with _ | b
    · by_contra hblock
      have hsome : (q.block k).isSome := Option.isSome_iff_ne_none.mpr (Ne.symm hblock)
      have := h.stored hdim (by omega) k hsome hkeep
      rw [h.wf.exist_eq, hb₁] at this
      cases this
    · rcases h.cachedBlock_cases hc hb₁ with ⟨hold, -⟩ | hnew
      · rw [hb] at hold
        cases hold
      · exact hnew.symm
  · rw [Option.some_or, h.cachedBlock_of_kept hc hb hkeep]

/-- Without eviction, a partition that waits goes on waiting. -/
theorem Prepared.waits (h : c.Prepared q c₁) (hkeep : ∀ k, ¬ c.Dropped q k) (hp : c.Waits p) :
    c₁.Waits p := by
  have hexist : ∀ k, c₁.cachedTensors.exist k = false → c.cachedTensors.exist k = false := by
    intro k hk
    by_contra hno
    obtain ⟨t, n, ht⟩ := exist_eq_true_iff.mp (Bool.not_eq_false _ ▸ hno)
    have := exist_eq_true_iff.mpr ⟨t, n, h.kept k t n ht (hkeep k)⟩
    simp [hk] at this
  exact ⟨hp.paired, hp.hDim, fun hr => hp.row (hexist _ hr), fun hc => hp.col (hexist _ hc)⟩

/-- The partitions that `HandleMatMul` keeps wait. -/
theorem Handled.waits (h : c.Handled allocates p c') (hdim : p.hDim ≠ 0)
    (hps : ∀ p' ∈ c.cachedPartitions, c.Waits p') : ∀ p' ∈ c'.cachedPartitions, c'.Waits p' := by
  have hexist : ∀ k, c'.cachedTensors.exist k = c.cachedTensors.exist k := fun k => by
    rw [exist, exist, h.cache]
  have hfrom : ∀ k d, c.cachedTensors.exist k = false → c.fromCache k d = d := fun k d hk =>
    fromCache_of_none d (by simpa [exist] using hk)
  intro p' hp'
  rw [h.cachedPartitions, kept, mem_append, mem_map] at hp'
  rcases hp' with ⟨p₀, hp₀, rfl⟩ | hp'
  · have hw := hps p₀ (mem_of_mem_filter hp₀)
    refine ⟨⟨_, _, rfl⟩, hw.hDim, fun hr => ?_, fun hcol => ?_⟩
    · rw [hexist] at hr
      exact (congrArg Prod.snd (hfrom _ _ hr)).trans_le (hw.row hr)
    · rw [hexist] at hcol
      exact (congrArg Prod.snd (hfrom _ _ hcol)).trans_le (hw.col hcol)
  · split at hp'
    · obtain rfl := mem_singleton.mp hp'
      exact ⟨⟨_, _, rfl⟩, hdim, fun _ => by simp [blank, matAt], fun _ => by simp [blank, matAt]⟩
    · cases hp'

end ProxyCliImpl
end Morphling.Client
