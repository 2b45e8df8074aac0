import Morphling.Client.Handler
import Morphling.Lib.Run
import Morphling.Matrix.Partition

/-!
# The cache protocol without eviction

A server sends every block once and leaves it out of later messages. The client submits a partition
when both of its blocks are there, and keeps it until then.

* `Operation.Sends`: the requests that the server sends for a product.
* `Exchange`: a client and, for the specification, what it received and what it submitted with which
  operands.
* `protocol_always`: every partition is submitted once, with the bytes that were sent, as soon as
  both blocks are there.

A client could not keep this for every frame: it divides by `h_dim`, and `cudaMallocManaged` gives no
buffer for the output of a block with less than one row. The server sends no such frame, and one
version belongs to one product.
-/

namespace Morphling.Client

open Wire List WirePartition ProxyCliImpl

/-! ## What the server sends -/

/-- What `PartitionMatrices` gets for one product. It divides by the block size. -/
structure Operation (R : Type*) where
  matA : Tensor R
  matB : Tensor R
  blockSize : Nat
  pos : 0 < blockSize

namespace Operation

variable {R : Type*} {o : Operation R} {q : Request} {b : List UInt8}

/-- The server sends the request for a partition of the product. Blocks may be left out.
`SendInLoop` divides by `h_dim` before a frame is written, and `Deserialize` refuses frames with more
than `maxTensorSize` bytes of blocks. -/
def Sends (o : Operation R) (q : Request) : Prop :=
  ∃ ps ∈ partitionMatrices o.matA o.matB o.blockSize q.fields.version, ∃ p ∈ ps,
    q.fields.row = p.row ∧ q.fields.col = p.col ∧ q.fields.pivot = p.pivot ∧
      q.fields.hDim = p.hDim ∧ p.hDim ≠ 0 ∧
      (q.rowBytes = [] ∨ p.mat[0]?.map Prod.snd = some q.rowBytes.length) ∧
      (q.colBytes = [] ∨ p.mat[1]?.map Prod.snd = some q.colBytes.length) ∧
      q.rowBytes.length + q.colBytes.length ≤ maxTensorSize

instance (o : Operation R) (q : Request) : Decidable (o.Sends q) :=
  inferInstanceAs (Decidable (∃ ps ∈ _, ∃ p ∈ ps, _))

/-- The inner extent of the product. -/
def hDim (o : Operation R) : Nat := colDim o.matA.sizes

/-- A block of the product: some rows of its inner extent. -/
def IsBlock (o : Operation R) (b : List UInt8) : Prop :=
  ∃ n, 0 < n ∧ b.length = n * o.hDim * 4 ∧ b.length ≤ maxTensorSize

theorem isBlock_of_lt {dim r : Nat} (hr : r < numBlocks dim o.blockSize)
    (hsize : min o.blockSize (dim - r * o.blockSize) * o.hDim * 4 = b.length)
    (hmax : b.length ≤ maxTensorSize) : o.IsBlock b := by
  have hlt := mul_lt_of_lt_numBlocks hr
  exact ⟨_, Nat.lt_min.mpr ⟨o.pos, Nat.sub_pos_of_lt hlt⟩, hsize.symm, hmax⟩

/-- All requests of a product have its inner extent, and their blocks are whole rows. -/
theorem Sends.shape (h : o.Sends q) : q.fields.hDim = o.hDim ∧ 0 < o.hDim ∧
    ∀ k b, q.block k = some b → o.IsBlock b := by
  obtain ⟨ps, hps, p, hp, -, -, -, hdim, hne, hrow, hcol, hmax⟩ := h
  obtain ⟨r, hr, c, hc, pivot, -, rfl⟩ := eq_of_mem_partitionMatrices hps hp
  refine ⟨hdim, Nat.pos_of_ne_zero hne, fun k b hb => ?_⟩
  obtain ⟨rfl, hne⟩ | ⟨rfl, hne⟩ := isSome_block (Option.isSome_of_eq_some hb)
  · rw [block_rowKey hne] at hb
    cases hb
    exact isBlock_of_lt hr (Option.some.inj (hrow.resolve_left hne)) (by omega)
  · rw [block_colKey hne] at hb
    cases hb
    exact isBlock_of_lt hc (Option.some.inj (hcol.resolve_left hne)) (by omega)

theorem extent_mul {n h : Nat} (hpos : 0 < h) (hle : n * h * 4 ≤ maxTensorSize) :
    extent ((n * h * 4 : Nat) : Int) h = n := by
  have hdiv : ((n * h * 4 : Nat) : Int).tdiv h = ((n * 4 : Nat) : Int) := by
    rw [Nat.mul_right_comm, ← Int.ofNat_tdiv, Nat.mul_div_cancel _ hpos]
  have hn : n * 4 ≤ n * h * 4 := Nat.mul_le_mul_right _ (Nat.le_mul_of_pos_right _ hpos)
  unfold maxTensorSize at hle
  rw [extent, hdiv]
  omega

/-- The product of two blocks has entries. -/
theorem outBytes_pos {d : List UInt8} (hpos : 0 < o.hDim) (hb : o.IsBlock b) (hd : o.IsBlock d) :
    0 < outBytes o.hDim b.length d.length := by
  obtain ⟨n, hn, hb, hble⟩ := hb
  obtain ⟨m, hm, hd, hdle⟩ := hd
  rw [hb] at hble ⊢
  rw [hd] at hdle ⊢
  rw [outBytes, extent_mul hpos hble, extent_mul hpos hdle]
  have hle : ∀ k, k * o.hDim * 4 ≤ maxTensorSize → k ≤ 2 ^ 28 := fun k hk => by
    have := Nat.le_mul_of_pos_right k hpos
    unfold maxTensorSize at hk
    omega
  have hmul : n * m ≤ 2 ^ 28 * 2 ^ 28 := Nat.mul_le_mul (hle n hble) (hle m hdle)
  have := Nat.mul_pos hn hm
  omega

end Operation

/-! ## The exchange -/

/-- The client, whether it still runs, and what it received and submitted. -/
structure Exchange where
  client : ProxyCliImpl
  alive : Bool := true
  received : List Request := []
  submitted : List Submission := []

namespace Exchange

def start (maxBytes : Nat) : Exchange := { client := .init maxBytes }

/-- A message is handled and its frame drained. -/
def next (allocates : Nat → Bool) (s : Exchange) (q : Request) : Exchange :=
  if s.alive then
    match s.client.receive allocates q with
    | none => { s with alive := false, received := s.received ++ [q] }
    | some c =>
      let new := c.submitted.drop s.client.submitted.length
      { s with
        client := c.drain
        received := s.received ++ [q]
        submitted := s.submitted ++ new.map (submissionOf c.memory) }
  else s

variable (s : Exchange)

/-- A message carried the block `b` for `k`. -/
def Received (k : TensorKey) (b : List UInt8) : Prop := ∃ q ∈ s.received, q.block k = some b

/-- The first block that came for `k`. -/
def sent (k : TensorKey) : Option (List UInt8) := s.received.findSome? (·.block k)

/-- All blocks for one key are the first. -/
def First : Prop := ∀ k b, s.Received k b → s.sent k = some b

/-- Both blocks of a partition have been received. -/
def complete (p : WirePartition Empty) : Bool :=
  (s.sent (getRowKey p)).isSome && (s.sent (getColKey p)).isSome

/-- The operand is what was sent under `k`. -/
def IsOperand (k : TensorKey) (d : Option (List UInt8) × Int) : Prop :=
  (∃ b, s.Received k b) ∧ ∀ b, s.Received k b → d = (some b, (b.length : Int))

/-- The contract of the client. -/
structure Protocol : Prop where
  submitted : (s.submitted.map Submission.fields).Perm
    ((s.received.map Request.fields).filter s.complete)
  operands : ∀ t ∈ s.submitted, s.IsOperand (getRowKey t.fields) t.row ∧
    s.IsOperand (getColKey t.fields) t.col
  saved : (s.client.cachedPartitions.map scalars).Perm
    ((s.received.map Request.fields).filter fun p => !s.complete p)

/-- What the server does: every request is one of the product with its version, the blocks for one
key are the same, and they fit. -/
structure Enabled {R : Type*} (ops : Nat → Operation R) (q : Request) : Prop where
  sends : (ops q.fields.version).Sends q
  same : ∀ k b b', s.Received k b → q.block k = some b' → b' = b
  room : s.client.cachedTensors.currentBytes + (s.client.rowNeeds q + s.client.colNeeds q) ≤
    s.client.cachedTensors.maxBytes

variable {allocates : Nat → Bool} {R : Type*} {ops : Nat → Operation R} {s} {q : Request}
  {s' : Exchange} {b : List UInt8} {k : TensorKey}

theorem received_next (h : s.alive = true) : (s.next allocates q).received = s.received ++ [q] := by
  rw [next, if_pos h]
  cases s.client.receive allocates q <;> rfl

/-! ## One message -/

/-- What holds between messages. -/
structure Inv {R : Type*} (ops : Nat → Operation R) (s : Exchange) : Prop where
  sends : ∀ q ∈ s.received, (ops q.fields.version).Sends q
  alive : s.alive = true
  wf : s.client.Wf
  blocks : ∀ k, s.client.cachedBlock k = s.sent k
  waits : ∀ p ∈ s.client.cachedPartitions, s.client.Waits p
  first : s.First
  protocol : s.Protocol

theorem inv_start (maxBytes : Nat) : (start maxBytes).Inv ops where
  sends _ hq := nomatch hq
  alive := rfl
  wf :=
    { cache := FixSizeLRUCache.wf_mk ..
      sizeofKey := rfl
      owns := fun _ _ _ h => nomatch h
      inj := fun _ _ _ _ _ _ h => nomatch h }
  blocks _ := rfl
  waits _ hp := nomatch hp
  first k b h := by obtain ⟨q, hq, -⟩ := h; cases hq
  protocol := ⟨.nil, fun _ ht => (nomatch ht), .nil⟩

/-- The first block for a key stays the first. -/
theorem sent_append (hs : s'.received = s.received ++ [q]) (k : TensorKey) :
    s'.sent k = (s.sent k).or (q.block k) := by
  rw [sent, hs, findSome?_append]
  simp [sent]

theorem received_append (hs : s'.received = s.received ++ [q]) :
    s'.Received k b ↔ s.Received k b ∨ q.block k = some b := by
  simp only [Received, hs, mem_append, mem_singleton]
  constructor
  · rintro ⟨r, hr | rfl, hb⟩
    · exact .inl ⟨r, hr, hb⟩
    · exact .inr hb
  · rintro (⟨r, hr, hb⟩ | hb)
    · exact ⟨r, .inl hr, hb⟩
    · exact ⟨q, .inr rfl, hb⟩

theorem first_append (hs : s'.received = s.received ++ [q]) (hfirst : s.First)
    (hsame : ∀ k b b', s.Received k b → q.block k = some b' → b' = b) : s'.First := by
  intro k b h
  rw [sent_append hs]
  rcases (received_append hs).mp h with hold | hnew
  · rw [hfirst k b hold, Option.some_or]
  · rcases hk : s.sent k with _ | b'
    · rw [Option.none_or, hnew]
    · obtain ⟨r, hr, hb'⟩ := exists_of_findSome?_eq_some hk
      rw [Option.some_or, hsame k b' b ⟨r, hr, hb'⟩ hnew]

theorem isOperand_iff (hfirst : s.First) {d : Option (List UInt8) × Int} :
    s.IsOperand k d ↔ ∃ b, s.sent k = some b ∧ d = (some b, (b.length : Int)) := by
  constructor
  · rintro ⟨⟨b, hb⟩, hd⟩
    exact ⟨b, hfirst k b hb, hd b hb⟩
  · rintro ⟨b, hb, rfl⟩
    obtain ⟨r, hr, hrb⟩ := exists_of_findSome?_eq_some hb
    refine ⟨⟨b, r, hr, hrb⟩, fun b' hb' => ?_⟩
    rw [hfirst k b' hb'] at hb
    cases hb
    rfl

/-- The task of a submission reads what was sent. -/
def ReadsSent (s : Exchange) (t : Submission) : Prop :=
  (∃ b, s.sent (getRowKey t.fields) = some b ∧ t.row = (some b, (b.length : Int))) ∧
    ∃ b, s.sent (getColKey t.fields) = some b ∧ t.col = (some b, (b.length : Int))

/-- What one message does, by what has been received: the partitions that are now complete are
submitted, the others wait. -/
structure Step (s : Exchange) (q : Request) (s' : Exchange) : Prop where
  alive : s'.alive = true
  wf : s'.client.Wf
  received : s'.received = s.received ++ [q]
  blocks : ∀ k, s'.client.cachedBlock k = s'.sent k
  waits : ∀ p ∈ s'.client.cachedPartitions, s'.client.Waits p
  submitted : ∃ new, s'.submitted = s.submitted ++ new ∧ (∀ t ∈ new, s'.ReadsSent t) ∧
    new.map Submission.fields =
      (s.client.cachedPartitions.map scalars ++ [q.fields]).filter s'.complete
  saved : s'.client.cachedPartitions.map scalars =
    (s.client.cachedPartitions.map scalars ++ [q.fields]).filter
      fun p => !s'.complete p

/-- What was sent for a key is a block of the product with its version. -/
theorem isBlock_of_sent (hsends : ∀ q ∈ s.received, (ops q.fields.version).Sends q)
    (hb : s.sent k = some b) : (ops k.version).IsBlock b := by
  obtain ⟨r, hr, hrb⟩ := exists_of_findSome?_eq_some hb
  have hblock := (hsends r hr).shape.2.2 k b hrb
  obtain ⟨rfl, -⟩ | ⟨rfl, -⟩ := isSome_block (Option.isSome_of_eq_some hrb)
  · exact hblock
  · exact hblock

section Step
variable {c₁ : ProxyCliImpl} {s' : Exchange} (hc₁ : c₁.Wf)
  (hblocks : ∀ k, c₁.cachedBlock k = s'.sent k)
include hc₁ hblocks

theorem has_eq_complete (p : WirePartition Ptr) : c₁.has p = s'.complete p.scalars := by
  rw [has, hc₁.exist_eq, hc₁.exist_eq, hblocks, hblocks]
  rfl

/-- A message with a block that was left out and did not come before has to wait. -/
theorem lacks_eq_not_complete (hq : ∀ k, (q.block k).isSome → (s'.sent k).isSome) (seq : Nat) :
    c₁.lacks (q.partition seq) = !s'.complete q.fields := by
  have hrow : (s'.sent (getRowKey q.fields)).isSome = false → q.rowBytes = [] := fun hk => by
    by_contra hne
    have := hq _ (by rw [block_rowKey hne]; rfl)
    simp [hk] at this
  have hcol : (s'.sent (getColKey q.fields)).isSome = false → q.colBytes = [] := fun hk => by
    by_contra hne
    have := hq _ (by rw [block_colKey hne]; rfl)
    simp [hk] at this
  have hkeys : getRowKey (q.partition seq) = getRowKey q.fields ∧
      getColKey (q.partition seq) = getColKey q.fields := ⟨rfl, rfl⟩
  rw [lacks, hkeys.1, hkeys.2, hc₁.exist_eq, hc₁.exist_eq, hblocks, hblocks, complete]
  cases hr : (s'.sent (getRowKey q.fields)).isSome
  · simp [matAt_partition, hrow hr]
  · cases hc : (s'.sent (getColKey q.fields)).isSome
    · simp [matAt_partition, hcol hc]
    · simp

/-- A partition with both blocks is submitted with what was sent. -/
theorem readsSent_filled {p : WirePartition Ptr} (hp : s'.complete p.scalars = true) :
    s'.ReadsSent (submissionOf c₁.memory (c₁.filled p)) := by
  obtain ⟨hrow, hcol⟩ := Bool.and_eq_true_iff.mp hp
  obtain ⟨b, hb⟩ := Option.isSome_iff_exists.mp hrow
  obtain ⟨b', hb'⟩ := Option.isSome_iff_exists.mp hcol
  obtain ⟨hdata, hsize⟩ := hc₁.fromCache_of_block (matAt p 0) ((hblocks _).trans hb)
  obtain ⟨hdata', hsize'⟩ := hc₁.fromCache_of_block (matAt p 1) ((hblocks _).trans hb')
  exact ⟨⟨b, hb, Prod.ext hdata hsize⟩, ⟨b', hb', Prod.ext hdata' hsize'⟩⟩

variable (hq : ∀ k, (q.block k).isSome → (s'.sent k).isSome) (seq : Nat)
include hq

/-- The partitions that are handled are those that have both blocks now. -/
theorem map_due : (c₁.due (q.partition seq)).map scalars =
    (c₁.cachedPartitions.map scalars ++ [q.fields]).filter s'.complete := by
  have hfilled : scalars ∘ c₁.filled = scalars := rfl
  have hcomp : c₁.has = s'.complete ∘ scalars := funext (has_eq_complete hc₁ hblocks)
  rw [due, lacks_eq_not_complete hc₁ hblocks hq, filter_append, filter_map, ← hcomp,
    map_append, map_map, hfilled]
  cases h : s'.complete q.fields
  · simp [h]
  · rw [filter_cons_of_pos h]
    exact congrArg (fun p => _ ++ [p]) (scalars_self q.fields)

/-- The others wait. -/
theorem map_kept : (c₁.kept (q.partition seq)).map scalars =
    (c₁.cachedPartitions.map scalars ++ [q.fields]).filter
      fun p => !s'.complete p := by
  have hfilled : scalars ∘ c₁.filled = scalars := rfl
  rw [kept, lacks_eq_not_complete hc₁ hblocks hq, filter_append, filter_map,
    map_append, map_map, hfilled]
  congr 1
  · exact congrArg _ (filter_congr fun p _ => congrArg _ (has_eq_complete hc₁ hblocks p))
  · cases h : s'.complete q.fields
    · rw [filter_cons_of_pos (by simp [h])]
      exact congrArg (· :: []) (scalars_self q.fields)
    · simp [h]

/-- The tasks of the partitions that are handled read what was sent. -/
theorem readsSent_due {p : WirePartition Ptr} (hp : p ∈ c₁.due (q.partition seq)) :
    s'.ReadsSent (submissionOf c₁.memory p) := by
  rw [due, lacks_eq_not_complete hc₁ hblocks hq, mem_append] at hp
  rcases hp with hp | hp
  · obtain ⟨p, hmem, rfl⟩ := mem_map.mp hp
    exact readsSent_filled hc₁ hblocks (has_eq_complete hc₁ hblocks p ▸ (mem_filter.mp hmem).2)
  · cases h : s'.complete q.fields
    · simp [h] at hp
    · obtain rfl : p = _ := by simpa [h] using hp
      exact readsSent_filled hc₁ hblocks h

/-- There is a buffer for each of their outputs. -/
theorem granted_due (halloc : ∀ n, 0 < n → allocates n = true)
    (hsends : ∀ q ∈ s'.received, (ops q.fields.version).Sends q)
    (hmem : ∀ p ∈ c₁.cachedPartitions.map scalars ++ [q.fields],
      p ∈ s'.received.map Request.fields) :
    ∀ p ∈ c₁.due (q.partition seq), granted allocates p = true := by
  intro p hp
  obtain ⟨⟨b, hb, hrow⟩, ⟨d, hd, hcol⟩⟩ := readsSent_due hc₁ hblocks hq seq hp
  have hscalars := mem_map_of_mem (f := scalars) hp
  rw [map_due hc₁ hblocks hq] at hscalars
  obtain ⟨r, hr, hfields⟩ := mem_map.mp (hmem _ (mem_of_mem_filter hscalars))
  obtain ⟨hdim, hpos, -⟩ := (hsends r hr).shape
  rw [hfields] at hdim hpos
  have hgranted : granted allocates p = allocates (outBytes p.hDim b.length d.length) :=
    congrArg₂ (fun x y => allocates (outBytes p.hDim x y)) (congrArg Prod.snd hrow)
      (congrArg Prod.snd hcol)
  rw [hgranted, show p.hDim = (ops p.version).hDim from hdim]
  exact halloc _ (Operation.outBytes_pos hpos (isBlock_of_sent hsends hb)
    (isBlock_of_sent hsends hd))

end Step

theorem Inv.sends_next (h : s.Inv ops) (he : s.Enabled ops q) :
    ∀ r ∈ (s.next allocates q).received, (ops r.fields.version).Sends r := by
  intro r hr
  rw [received_next h.alive, mem_append, mem_singleton] at hr
  rcases hr with hr | rfl
  · exact h.sends r hr
  · exact he.sends

theorem Inv.step (halloc : ∀ n, 0 < n → allocates n = true) (h : s.Inv ops)
    (he : s.Enabled ops q) : s.Step q (s.next allocates q) := by
  have hdim : 0 < q.fields.hDim := by
    obtain ⟨heq, hpos, -⟩ := he.sends.shape
    omega
  have hkeep := h.wf.not_dropped he.room
  have hwaits : ∀ c₁, (s.client.arrive q).Prepared q c₁ → ∀ p ∈ s.client.cachedPartitions,
      c₁.Waits p := fun c₁ hprep p hp =>
    have hw := h.waits p hp
    hprep.waits hkeep ⟨hw.paired, hw.hDim, hw.row, hw.col⟩
  obtain ⟨c₁, c', hrec, hprep, hhand⟩ := h.wf.receive_spec allocates (by omega) hwaits
  have hnext : s.next allocates q = { s with
      client := c'.drain
      received := s.received ++ [q]
      submitted := s.submitted ++
        (c'.submitted.drop s.client.submitted.length).map (submissionOf c'.memory) } := by
    rw [next, if_pos h.alive, hrec]
  have hclient : (s.next allocates q).client = c'.drain := by rw [hnext]
  have hreceived : (s.next allocates q).received = s.received ++ [q] := received_next h.alive
  have hblocks : ∀ k, c₁.cachedBlock k = (s.next allocates q).sent k := fun k => by
    rw [hprep.cachedBlock h.wf.arrive hdim he.room, h.wf.cachedBlock_arrive, h.blocks,
      sent_append hreceived]
  have hq : ∀ k, (q.block k).isSome → ((s.next allocates q).sent k).isSome := fun k hk => by
    rw [sent_append hreceived, Option.isSome_or, hk, Bool.or_true]
  have hsaved : c₁.cachedPartitions = s.client.cachedPartitions := hprep.cachedPartitions
  have hall := granted_due hprep.wf hblocks hq (s.client.memory.seq + 1) halloc (h.sends_next he)
    fun p hp => by
      rw [hreceived, map_append]
      refine (mem_append.mp hp).elim (fun hp => mem_append_left _ ?_) (mem_append_right _)
      exact mem_of_mem_filter (h.protocol.saved.mem_iff.mp (hsaved ▸ hp))
  have hsubmitted : (s.next allocates q).submitted = s.submitted ++
      (c₁.due (q.partition (s.client.memory.seq + 1))).map (submissionOf c₁.memory) := by
    have hdrop : c'.submitted.drop s.client.submitted.length =
        c₁.due (q.partition (s.client.memory.seq + 1)) := by
      rw [hhand.submitted, filter_eq_self.mpr hall, hprep.submitted]
      exact drop_left
    rw [← hdrop, ← hhand.memory, hnext]
  refine
    { alive := by rw [hnext]; exact h.alive
      wf := hclient ▸ hhand.wf.drain
      received := hreceived
      blocks := fun k => ?_
      waits := fun p hp => ?_
      submitted := ⟨_, hsubmitted, fun t ht => ?_, ?_⟩
      saved := ?_ }
  · rw [hclient, hhand.wf.cachedBlock_drain, hhand.cachedBlock, hblocks]
  · rw [hclient] at hp ⊢
    have hw := hhand.waits (show q.fields.hDim ≠ 0 by omega)
      (fun p hp => hwaits c₁ hprep p (hsaved ▸ hp)) p hp
    exact ⟨hw.paired, hw.hDim, hw.row, hw.col⟩
  · obtain ⟨p, hp, rfl⟩ := mem_map.mp ht
    exact readsSent_due hprep.wf hblocks hq _ hp
  · rw [map_map, ← hsaved]
    exact map_due hprep.wf hblocks hq _
  · rw [hclient, ← hsaved]
    exact (congrArg _ hhand.cachedPartitions).trans (map_kept hprep.wf hblocks hq _)

/-! ## Whole runs -/

theorem Step.complete_of_complete (h : s.Step q s') {p : WirePartition Empty}
    (hp : s.complete p = true) : s'.complete p = true := by
  rw [complete, Bool.and_eq_true] at hp ⊢
  simp only [sent_append h.received, Option.isSome_or, Bool.or_eq_true]
  exact ⟨.inl hp.1, .inl hp.2⟩

/-- What was complete and what became complete, for a list of partitions. -/
theorem Step.filter_perm (h : s.Step q s') (l : List (WirePartition Empty)) :
    (l.filter s.complete ++ (l.filter fun p => !s.complete p).filter s'.complete).Perm
      (l.filter s'.complete) := by
  have hsub : (l.filter s.complete).filter s'.complete = l.filter s.complete :=
    filter_eq_self.mpr fun p hp => h.complete_of_complete (mem_filter.mp hp).2
  have := (filter_append_perm s.complete l).filter s'.complete
  rwa [filter_append, hsub] at this

theorem Step.protocol (h : s.Step q s') (hs : s.Protocol) (hfirst : s.First) (hfirst' : s'.First) :
    s'.Protocol := by
  have hmap : s'.received.map Request.fields = s.received.map Request.fields ++ [q.fields] := by
    rw [h.received, map_append]
    rfl
  obtain ⟨new, hnew, hreads, hfields⟩ := h.submitted
  refine ⟨?_, fun t ht => ?_, ?_⟩
  · rw [hnew, map_append, hfields, hmap, filter_append, filter_append,
      ← append_assoc]
    refine List.Perm.append_right _ (List.Perm.trans ?_ (h.filter_perm _))
    exact hs.submitted.append (hs.saved.filter _)
  · rw [isOperand_iff hfirst', isOperand_iff hfirst']
    rw [hnew, mem_append] at ht
    rcases ht with ht | ht
    · obtain ⟨hrow, hcol⟩ := hs.operands t ht
      obtain ⟨b, hb, hrow⟩ := (isOperand_iff hfirst).mp hrow
      obtain ⟨b', hb', hcol⟩ := (isOperand_iff hfirst).mp hcol
      refine ⟨⟨b, ?_, hrow⟩, ⟨b', ?_, hcol⟩⟩
      · rw [sent_append h.received, hb, Option.some_or]
      · rw [sent_append h.received, hb', Option.some_or]
    · exact hreads t ht
  · rw [h.saved, hmap, filter_append, filter_append]
    refine List.Perm.append_right _ ?_
    refine (hs.saved.filter _).trans (List.Perm.of_eq ?_)
    rw [filter_filter]
    refine filter_congr fun p _ => ?_
    cases hp : s.complete p
    · simp
    · simp [h.complete_of_complete hp]

theorem Inv.next (halloc : ∀ n, 0 < n → allocates n = true) (h : s.Inv ops)
    (he : s.Enabled ops q) : (s.next allocates q).Inv ops := by
  have hstep := h.step halloc he
  have hfirst := first_append hstep.received h.first he.same
  exact
    { sends := h.sends_next he
      alive := hstep.alive
      wf := hstep.wf
      blocks := hstep.blocks
      waits := hstep.waits
      first := hfirst
      protocol := hstep.protocol h.protocol h.first hfirst }

/-- The contract holds after every message of the server, as long as there is memory for the outputs:
`allocates` may only fail for 0 bytes. -/
theorem protocol_always (ops : Nat → Operation R) (allocates : Nat → Bool)
    (halloc : ∀ n, 0 < n → allocates n = true) (maxBytes : Nat) (qs : List Request)
    (henabled : Run.Along (next allocates) (fun s => s.Enabled ops) (start maxBytes) qs) :
    Run.Always (next allocates) Protocol (start maxBytes) qs :=
  Run.Always.mono (fun _ => Inv.protocol)
    (henabled.always (fun _ _ h he => h.next halloc he) (inv_start maxBytes))

/-- Only the blocks under the two keys of a request have to be compared. -/
theorem same_of_forall (h : ∀ r ∈ s.received, ∀ k ∈ [getRowKey q.fields, getColKey q.fields],
      r.block k = none ∨ q.block k = none ∨ r.block k = q.block k)
    (k : TensorKey) (b b' : List UInt8) (hb : s.Received k b) (hb' : q.block k = some b') :
    b' = b := by
  obtain ⟨r, hr, hrb⟩ := hb
  have hk : k ∈ [getRowKey q.fields, getColKey q.fields] := by
    obtain ⟨rfl, -⟩ | ⟨rfl, -⟩ := isSome_block (Option.isSome_of_eq_some hb') <;> simp
  rcases h r hr k hk with hnone | hnone | heq
  · cases hnone.symm.trans hrb
  · cases hnone.symm.trans hb'
  · exact Option.some.inj (hb'.symm.trans (heq.symm.trans hrb))

/-- The product of two by two matrices in blocks of one row. -/
def rowByRow : Operation Nat :=
  { matA := ⟨[2, 2], [1, 3, 5, 7], rfl⟩
    matB := ⟨[2, 2], [2, 4, 6, 8], rfl⟩
    blockSize := 1
    pos := Nat.one_pos }

/-- Its four partitions. The first waits for the column block of the second, the third for that of
the fourth. -/
def splitBlocks : List Request :=
  let request (row col : Int) (rowBytes colBytes : List UInt8) : Request :=
    { fields :=
        { version := 1, row := row, col := col, pivot := 0, hDim := 2, devId := 0, oid := 0
          gemmId := 0, timestamp := 0, mat := [] }
      rowBytes := rowBytes
      colBytes := colBytes }
  [request 0 0 [1, 0, 0, 0, 3, 0, 0, 0] [],
    request 1 0 [5, 0, 0, 0, 7, 0, 0, 0] [2, 0, 0, 0, 4, 0, 0, 0],
    request 0 1 [] [],
    request 1 1 [] [6, 0, 0, 0, 8, 0, 0, 0]]

theorem splitBlocks_protocol :
    Run.Along (next cudaMallocManaged) (fun s => s.Enabled fun _ => rowByRow) (start 1024)
        splitBlocks ∧
      Run.Always (next cudaMallocManaged) Protocol (start 1024) splitBlocks ∧
      (Run.exec (next cudaMallocManaged) (start 1024) splitBlocks).submitted.map
          (fun t => (t.fields.row, t.fields.col, t.row.1, t.col.1)) =
        [(0, 0, some [1, 0, 0, 0, 3, 0, 0, 0], some [2, 0, 0, 0, 4, 0, 0, 0]),
          (1, 0, some [5, 0, 0, 0, 7, 0, 0, 0], some [2, 0, 0, 0, 4, 0, 0, 0]),
          (0, 1, some [1, 0, 0, 0, 3, 0, 0, 0], some [6, 0, 0, 0, 8, 0, 0, 0]),
          (1, 1, some [5, 0, 0, 0, 7, 0, 0, 0], some [6, 0, 0, 0, 8, 0, 0, 0])] := by
  have henabled : Run.Along (next cudaMallocManaged) (fun s => s.Enabled fun _ => rowByRow)
      (start 1024) splitBlocks :=
    ⟨⟨by decide, same_of_forall (by decide +kernel), by decide +kernel⟩,
      ⟨by decide, same_of_forall (by decide +kernel), by decide +kernel⟩,
      ⟨by decide, same_of_forall (by decide +kernel), by decide +kernel⟩,
      ⟨by decide, same_of_forall (by decide +kernel), by decide +kernel⟩, trivial⟩
  refine ⟨henabled, protocol_always _ cudaMallocManaged ?_ 1024 splitBlocks henabled,
    by decide +kernel⟩
  exact fun n hn => decide_eq_true hn

end Exchange
end Morphling.Client
