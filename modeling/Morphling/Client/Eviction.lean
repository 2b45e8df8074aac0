import Morphling.Client.Handler
import Morphling.Lib.Pool
import Morphling.Lib.Run

/-!
# Operands under eviction

A task has the pointers of its partition, into the cache or into the frame, and runs some time after
the handler returned. Until then later messages may evict its blocks, and the frame is drained.

* `Device`: a client with the tasks that have not run yet. A task may run at any time, whichever
  schedule the worker pools follow.
* `Sound`: whichever task runs next, all tasks that ran have read the blocks of their messages.
* `sound_iff`: it is so in every state exactly if no message evicts a block of a task that has not
  run, the blocks that a task gets from the cache are those of its message, and no task is left in a
  frame that is drained.
-/

namespace Morphling.Client

open Wire List ProxyCliImpl

/-- What happens on a device. Whether there is a buffer for an output may differ from message to
message: `ShouldUseGpu` looks at the load. -/
inductive Event where
  | receive (q : Request) (allocates : Nat → Bool)
  | drain
  | execute (i : Nat)

/-- A client, whether it still runs, the tasks that wait for a worker with the messages they are
for, and what the tasks that ran have read. -/
structure Device where
  client : ProxyCliImpl
  alive : Bool := true
  pending : List (WirePartition Ptr × Request) := []
  executed : List (Submission × Request) := []

namespace Device

def start (maxBytes : Nat) : Device := { client := .init maxBytes }

/-- Where the process has ended, nothing happens. -/
def next (s : Device) (e : Event) : Device :=
  if s.alive then
    match e with
    | .receive q allocates =>
      match s.client.receive allocates q with
      | none => { s with alive := false }
      | some c =>
        let new := c.submitted.drop s.client.submitted.length
        { s with client := c, pending := s.pending ++ new.map fun p => (p, q) }
    | .drain => { s with client := s.client.drain }
    | .execute i =>
      match s.pending[i]? with
      | none => s
      | some (p, q) =>
        { s with
          pending := Pool.replace s.pending i []
          executed := s.executed ++ [(submissionOf s.client.memory p, q)] }
  else s

/-- A task has read the blocks of its message. -/
def Reads (t : Submission) (q : Request) : Prop :=
  t.row = (some q.rowBytes, (q.rowBytes.length : Int)) ∧
    t.col = (some q.colBytes, (q.colBytes.length : Int))

instance (t : Submission) (q : Request) : Decidable (Reads t q) :=
  inferInstanceAs (Decidable (_ ∧ _))

/-- Whichever task runs next, all tasks that ran have read the blocks of their messages. -/
def Sound (s : Device) : Prop := ∀ i, ∀ e ∈ (s.next (.execute i)).executed, Reads e.1 e.2

/-- A frame is handled after the last one was drained, and a message carries both blocks. -/
def Enabled (s : Device) : Event → Prop
  | .receive q _ => s.client.memory.frame = none ∧ q.rowBytes ≠ [] ∧ q.colBytes ≠ []
  | _ => True

/-- The operands of the tasks that have not run. -/
def operands (s : Device) : List Ptr :=
  s.pending.flatMap fun x => [(matAt x.1 0).1, (matAt x.1 1).1]

/-- Nothing that a task needs is taken away, and what a message finds for its task is its own. -/
def Safe (s : Device) : Event → Prop
  | .receive q allocates => s.alive → q.fields.hDim ≠ 0 →
    (∀ k t n, s.client.cachedTensors.cache k = some (t, n) → s.client.Dropped q k →
        t.data ∉ s.operands) ∧
      ∀ b d, s.client.Finds q (getRowKey q.fields) b → s.client.Finds q (getColKey q.fields) d →
        allocates (outBytes q.fields.hDim b.length d.length) → b = q.rowBytes ∧ d = q.colBytes
  | .drain => s.alive → ∀ seq isRow, .frame seq isRow ∉ s.operands
  | .execute _ => True

/-- The tasks that have not run will read the blocks of their messages. -/
structure Inv (s : Device) : Prop where
  executed : ∀ e ∈ s.executed, Reads e.1 e.2
  wf : s.alive → s.client.Wf
  saved : s.alive → s.client.cachedPartitions = []
  pending : s.alive → ∀ x ∈ s.pending, Reads (submissionOf s.client.memory x.1) x.2

variable {s : Device} {q : Request} {allocates : Nat → Bool} {c₁ c' : ProxyCliImpl} {ptr : Ptr}
  {b : List UInt8} {m : Memory} {p : WirePartition Ptr}

theorem mem_operands : ptr ∈ s.operands ↔
    ∃ x ∈ s.pending, (matAt x.1 0).1 = ptr ∨ (matAt x.1 1).1 = ptr := by
  simp [operands, eq_comm]

theorem sound_iff_reads (halive : s.alive = true) : s.Sound ↔
    (∀ e ∈ s.executed, Reads e.1 e.2) ∧
      ∀ x ∈ s.pending, Reads (submissionOf s.client.memory x.1) x.2 := by
  have hexec : ∀ i, (s.next (.execute i)).executed = s.executed ++
      ((s.pending[i]?).map fun x => (submissionOf s.client.memory x.1, x.2)).toList := by
    intro i
    rw [next, if_pos halive]
    cases s.pending[i]? <;> simp
  constructor
  · intro h
    refine ⟨fun e he => h 0 e (by rw [hexec]; exact mem_append_left _ he), fun x hx => ?_⟩
    obtain ⟨i, hi⟩ := mem_iff_getElem?.mp hx
    exact h i (submissionOf s.client.memory x.1, x.2) (by rw [hexec, hi]; simp)
  · rintro ⟨hexecuted, hpending⟩ i e he
    rw [hexec, mem_append] at he
    rcases he with he | he
    · exact hexecuted e he
    · cases hi : s.pending[i]? with
      | none => simp [hi] at he
      | some x =>
        obtain rfl : e = _ := by simpa [hi] using he
        exact hpending x (mem_of_getElem? hi)

theorem Inv.sound (h : s.Inv) : s.Sound := by
  cases halive : s.alive
  · intro i e he
    rw [next, halive] at he
    exact h.executed e he
  · exact (sound_iff_reads halive).mpr ⟨h.executed, h.pending halive⟩

theorem inv_start (maxBytes : Nat) : (start maxBytes).Inv where
  executed _ he := nomatch he
  wf _ :=
    { cache := FixSizeLRUCache.wf_mk ..
      sizeofKey := rfl
      owns := fun _ _ _ h => nomatch h
      inj := fun _ _ _ _ _ _ h => nomatch h }
  saved _ := rfl
  pending _ _ hx := nomatch hx

/-! ## A message -/

/-- While no frame is there, what a task needs is in a buffer of its own. -/
theorem contents_arrive {c : ProxyCliImpl} (hframe : c.memory.frame = none)
    (hb : c.memory.contents ptr = some b) : (c.arrive q).memory.contents ptr = some b := by
  cases ptr with
  | null => cases hb
  | heap i => exact hb
  | frame seq isRow => simp [Memory.contents, hframe] at hb

/-- A message with both blocks adds its own task, if there is a buffer for the output. -/
theorem Inv.receive_spec (h : s.Inv) (allocates : Nat → Bool) (halive : s.alive = true)
    (hrow : q.rowBytes ≠ []) (hcol : q.colBytes ≠ []) (hdim : q.fields.hDim ≠ 0) :
    ∃ c₁ c', (s.client.arrive q).Prepared q c₁ ∧
      c₁.Handled allocates (q.partition (s.client.memory.seq + 1)) c' ∧ c'.cachedPartitions = [] ∧
      s.next (.receive q allocates) = { s with
        client := c'
        pending := s.pending ++ ([c₁.filled (q.partition (s.client.memory.seq + 1))].filter
          (granted allocates)).map fun p => (p, q) } := by
  have hsaved := h.saved halive
  obtain ⟨c₁, c', hrec, hprep, hhand⟩ := (h.wf halive).receive_spec allocates hdim fun _ _ p hp => by
    rw [hsaved] at hp
    cases hp
  have hlacks : c₁.lacks (q.partition (s.client.memory.seq + 1)) = false := by
    simp [lacks, matAt_partition, hrow, hcol]
  have hsaved₁ : c₁.cachedPartitions = [] := hprep.cachedPartitions.trans hsaved
  have hdrop : c'.submitted.drop s.client.submitted.length =
      [c₁.filled (q.partition (s.client.memory.seq + 1))].filter (granted allocates) := by
    rw [hhand.submitted, due, hsaved₁, hlacks, hprep.submitted]
    exact drop_left
  refine ⟨c₁, c', hprep, hhand, ?_, ?_⟩
  · rw [hhand.cachedPartitions, kept, hsaved₁, hlacks]
    rfl
  · rw [next, if_pos halive]
    simp only [hrec, hdrop]

/-- A task reads the same as long as its buffers have the same contents. -/
theorem Reads.of_contents {m' : Memory} (h : Reads (submissionOf m p) q)
    (hkeep : ∀ ptr b, (matAt p 0).1 = ptr ∨ (matAt p 1).1 = ptr → m.contents ptr = some b →
      m'.contents ptr = some b) : Reads (submissionOf m' p) q := by
  obtain ⟨hrow, hcol⟩ := h
  obtain ⟨hr, hrs⟩ := Prod.mk.inj hrow
  obtain ⟨hc, hcs⟩ := Prod.mk.inj hcol
  exact ⟨Prod.ext (hkeep _ _ (.inl rfl) hr) hrs, Prod.ext (hkeep _ _ (.inr rfl) hc) hcs⟩

/-- The buffers of a task that reads its blocks are there. -/
theorem Reads.contents_ne_none (h : Reads (submissionOf m p) q)
    (hptr : (matAt p 0).1 = ptr ∨ (matAt p 1).1 = ptr) : m.contents ptr ≠ none := by
  obtain ⟨hrow, hcol⟩ := h
  rcases hptr with rfl | rfl
  · exact fun hnone => by simpa [submissionOf, hnone] using congrArg Prod.fst hrow
  · exact fun hnone => by simpa [submissionOf, hnone] using congrArg Prod.fst hcol

section Message
variable {c : ProxyCliImpl} (hc : c.Wf) (hprep : (c.arrive q).Prepared q c₁)
  (hhand : c₁.Handled allocates (q.partition (c.memory.seq + 1)) c')
include hc hprep hhand

/-- The operands of the partition of a message are the blocks that it finds. -/
theorem operands_filled (hrow : q.rowBytes ≠ []) (hcol : q.colBytes ≠ []) {d : List UInt8}
    (hb : c.Finds q (getRowKey q.fields) b) (hd : c.Finds q (getColKey q.fields) d) :
    (submissionOf c'.memory (c₁.filled (q.partition (c.memory.seq + 1)))).row =
        (some b, (b.length : Int)) ∧
      (submissionOf c'.memory (c₁.filled (q.partition (c.memory.seq + 1)))).col =
        (some d, (d.length : Int)) := by
  have hframe : ∀ isRow, c₁.memory.contents (.frame (c.memory.seq + 1) isRow) =
      some (if isRow then q.rowBytes else q.colBytes) := fun isRow => by
    rw [Memory.contents, hprep.seq, hprep.frame]
    exact if_pos rfl
  have harrive : ∀ k b, c.Finds q k b → (c.arrive q).Finds q k b := fun k b h => by
    rwa [Finds, hc.cachedBlock_arrive]
  rw [hhand.memory]
  exact ⟨hprep.operand_eq hc.arrive (block_rowKey hrow) (hframe true) (harrive _ b hb),
    hprep.operand_eq hc.arrive (block_colKey hcol) (hframe false) (harrive _ d hd)⟩

/-- The task of a message will read its blocks if and only if they are what it finds. -/
theorem reads_new_iff (hrow : q.rowBytes ≠ []) (hcol : q.colBytes ≠ []) :
    (∀ p ∈ [c₁.filled (q.partition (c.memory.seq + 1))].filter (granted allocates),
        Reads (submissionOf c'.memory p) q) ↔
      ∀ b d, c.Finds q (getRowKey q.fields) b → c.Finds q (getColKey q.fields) d →
        allocates (outBytes q.fields.hDim b.length d.length) → b = q.rowBytes ∧ d = q.colBytes := by
  have hreads : ∀ b d, c.Finds q (getRowKey q.fields) b → c.Finds q (getColKey q.fields) d →
      (granted allocates (c₁.filled (q.partition (c.memory.seq + 1))) =
          allocates (outBytes q.fields.hDim b.length d.length)) ∧
        (Reads (submissionOf c'.memory (c₁.filled (q.partition (c.memory.seq + 1)))) q ↔
          b = q.rowBytes ∧ d = q.colBytes) := by
    intro b d hb hd
    obtain ⟨hr, hcl⟩ := operands_filled hc hprep hhand hrow hcol hb hd
    refine ⟨?_, ?_⟩
    · exact congrArg₂ (fun x y => allocates (outBytes q.fields.hDim x y))
        (congrArg Prod.snd hr) (congrArg Prod.snd hcl)
    · rw [Reads, hr, hcl]
      constructor
      · exact fun h => ⟨Option.some.inj (congrArg Prod.fst h.1),
          Option.some.inj (congrArg Prod.fst h.2)⟩
      · rintro ⟨rfl, rfl⟩
        exact ⟨rfl, rfl⟩
  constructor
  · intro h b d hb hd halloc
    obtain ⟨hgranted, hiff⟩ := hreads b d hb hd
    exact hiff.mp (h _ (mem_filter.mpr ⟨mem_singleton_self _, hgranted.trans halloc⟩))
  · intro h p hp
    obtain ⟨hp, halloc⟩ := mem_filter.mp hp
    obtain rfl := mem_singleton.mp hp
    obtain ⟨b, hb⟩ := exists_finds (c := c) (block_rowKey hrow)
    obtain ⟨d, hd⟩ := exists_finds (c := c) (block_colKey hcol)
    obtain ⟨hgranted, hiff⟩ := hreads b d hb hd
    exact hiff.mpr (h b d hb hd (hgranted.symm.trans halloc))

end Message

/-! ## Every step -/

theorem next_of_not_alive (h : s.alive = false) (e : Event) : s.next e = s := by
  simp [next, h]

theorem receive_of_hDim_zero (halive : s.alive = true) (h : q.fields.hDim = 0) :
    s.next (.receive q allocates) = { s with alive := false } := by
  have hnone : s.client.receive allocates q = none :=
    handleMatMul_of_hDim_zero allocates h
  rw [next, if_pos halive]
  simp only [hnone]

theorem Inv.next_receive (h : s.Inv) (he : s.Enabled (.receive q allocates))
    (hs : s.Safe (.receive q allocates)) : (s.next (.receive q allocates)).Inv := by
  cases halive : s.alive
  · rwa [next_of_not_alive halive]
  by_cases hdim : q.fields.hDim = 0
  · rw [receive_of_hDim_zero halive hdim]
    exact ⟨h.executed, nofun, nofun, nofun⟩
  obtain ⟨hframe, hrow, hcol⟩ := he
  obtain ⟨hkeep, hsame⟩ := hs halive hdim
  obtain ⟨c₁, c', hprep, hhand, hsaved, hnext⟩ :=
    h.receive_spec allocates halive hrow hcol hdim
  rw [hnext]
  refine ⟨h.executed, fun _ => hhand.wf, fun _ => hsaved, fun _ x hx => ?_⟩
  · rcases mem_append.mp hx with hx | hx
    · have hreads := h.pending halive x hx
      refine hreads.of_contents fun ptr b hptr hb => ?_
      rw [hhand.memory]
      exact hprep.contents ptr b (contents_arrive hframe hb) fun k t n ht hk hd =>
        hkeep k t n ht hk (mem_operands.mpr ⟨x, hx, hd ▸ hptr⟩)
    · obtain ⟨p, hp, rfl⟩ := mem_map.mp hx
      exact (reads_new_iff (h.wf halive) hprep hhand hrow hcol).mpr hsame p hp

theorem Inv.safe_receive (h : s.Inv) (he : s.Enabled (.receive q allocates))
    (hs : (s.next (.receive q allocates)).Sound) : s.Safe (.receive q allocates) := by
  intro halive hdim
  obtain ⟨hframe, hrow, hcol⟩ := he
  obtain ⟨c₁, c', hprep, hhand, -, hnext⟩ := h.receive_spec allocates halive hrow hcol hdim
  rw [hnext] at hs
  replace hs := (sound_iff_reads (by exact halive)).mp hs
  constructor
  · intro k t n ht hk hmem
    obtain ⟨x, hx, hptr⟩ := mem_operands.mp hmem
    have hdead : c'.memory.contents t.data = none := by
      rw [hhand.memory]
      exact hprep.freed k t n ht hk
    exact (hs.2 x (mem_append_left _ hx)).contents_ne_none hptr hdead
  · exact (reads_new_iff (h.wf halive) hprep hhand hrow hcol).mp fun p hp =>
      hs.2 (p, q) (mem_append_right _ (mem_map_of_mem hp))

theorem next_drain (halive : s.alive = true) :
    s.next .drain = { s with client := s.client.drain } := by
  rw [next, if_pos halive]

theorem Inv.next_drain (h : s.Inv) (hs : s.Safe .drain) : (s.next .drain).Inv := by
  cases halive : s.alive
  · rwa [next_of_not_alive halive]
  rw [Device.next_drain halive]
  refine ⟨h.executed, fun _ => (h.wf halive).drain, fun _ => h.saved halive, fun _ x hx => ?_⟩
  refine (h.pending halive x hx).of_contents fun ptr b hptr hb => ?_
  cases ptr with
  | null => cases hb
  | heap i => exact hb
  | frame seq isRow => exact absurd (mem_operands.mpr ⟨x, hx, hptr⟩) (hs halive seq isRow)

theorem safe_drain (hs : (s.next .drain).Sound) : s.Safe .drain := by
  intro halive seq isRow hmem
  obtain ⟨x, hx, hptr⟩ := mem_operands.mp hmem
  rw [Device.next_drain halive] at hs
  replace hs := (sound_iff_reads (by exact halive)).mp hs
  refine (hs.2 x hx).contents_ne_none hptr ?_
  exact ite_self none

theorem Inv.next_execute (h : s.Inv) (i : Nat) : (s.next (.execute i)).Inv := by
  cases halive : s.alive
  · rwa [next_of_not_alive halive]
  have hexecuted := h.sound i
  rw [next, if_pos halive] at hexecuted ⊢
  cases hi : s.pending[i]? with
  | none => exact h
  | some x =>
    simp only [hi] at hexecuted ⊢
    refine ⟨hexecuted, h.wf, h.saved, fun _ y hy => h.pending halive y ?_⟩
    exact (Pool.mem_replace hy).resolve_right not_mem_nil

/-- Along every run of messages with both blocks, under every schedule: the tasks read the blocks
of their messages if and only if every step is safe. -/
theorem sound_iff (maxBytes : Nat) (es : List Event)
    (henabled : Run.Along next Enabled (start maxBytes) es) :
    Run.Always next Sound (start maxBytes) es ↔ Run.Along next Safe (start maxBytes) es := by
  refine Run.always_iff_along (fun _ => Inv.sound) (fun s e h he hs => ?_) (fun s e h he hs => ?_)
    henabled (inv_start maxBytes)
  · cases e with
    | receive q allocates => exact h.next_receive he hs
    | drain => exact h.next_drain hs
    | execute i => exact h.next_execute i
  · cases e with
    | receive q allocates => exact h.safe_receive he hs
    | drain => exact safe_drain hs
    | execute i => trivial

/-- A message with the request for a product of one by one matrices, for a client with a GPU. -/
def oneByOne (version : Nat) (a b : UInt8) : Event :=
  .receive
    { fields :=
        { version := version, row := 0, col := 0, pivot := 0, hDim := 1, devId := 0, oid := 0
          gemmId := 0, timestamp := 0, mat := [] }
      rowBytes := [a, 0, 0, 0]
      colBytes := [b, 0, 0, 0] } cudaMallocManaged

/-- A cache with room for two blocks, and a second message before the task of the first has run:
the task reads buffers that were freed. -/
theorem oneByOne_not_sound :
    Run.Along next Enabled (start 100) [oneByOne 1 2 3, .drain, oneByOne 2 4 5, .drain] ∧
      (Run.exec next (start 100) [oneByOne 1 2 3, .drain, oneByOne 2 4 5, .drain,
        .execute 0]).executed.map (fun e => (e.1.row, e.1.col)) = [((none, 4), (none, 4))] ∧
      ¬ Run.Always next Sound (start 100) [oneByOne 1 2 3, .drain, oneByOne 2 4 5, .drain] := by
  refine ⟨⟨⟨rfl, by decide, by decide⟩, trivial, ⟨rfl, by decide, by decide⟩, trivial, trivial⟩,
    by decide +kernel, fun h => absurd (h.last 0) ?_⟩
  decide +kernel

/-- With the same cache, the second message is harmless once the task of the first has run. -/
theorem oneByOne_sound :
    Run.Along next Enabled (start 100)
        [oneByOne 1 2 3, .drain, .execute 0, oneByOne 2 4 5, .drain, .execute 0] ∧
      Run.Always next Sound (start 100)
        [oneByOne 1 2 3, .drain, .execute 0, oneByOne 2 4 5, .drain, .execute 0] := by
  have henabled : Run.Along next Enabled (start 100)
      [oneByOne 1 2 3, .drain, .execute 0, oneByOne 2 4 5, .drain, .execute 0] :=
    ⟨⟨rfl, by decide, by decide⟩, trivial, trivial, ⟨rfl, by decide, by decide⟩, trivial, trivial,
      trivial⟩
  refine ⟨henabled, (sound_iff 100 _ henabled).mpr ⟨fun _ _ => ⟨?_, ?_⟩, fun _ => ?_, trivial,
    fun _ _ => ⟨?_, ?_⟩, fun _ => ?_, trivial, trivial⟩⟩
  · exact fun k t n ht => nomatch ht
  · exact fun b d hb hd _ => ⟨hb.eq_of_none rfl rfl, hd.eq_of_none rfl rfl⟩
  · rw [show operands _ = [.heap 0, .heap 1] by decide +kernel]
    simp
  · rw [show operands _ = [] by decide +kernel]
    simp
  · exact fun b d hb hd _ =>
      ⟨hb.eq_of_none (by decide +kernel) rfl, hd.eq_of_none (by decide +kernel) rfl⟩
  · rw [show operands _ = [.heap 2, .heap 3] by decide +kernel]
    simp

end Device
end Morphling.Client
