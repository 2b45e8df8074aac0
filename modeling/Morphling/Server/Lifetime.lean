import Morphling.Hooks.Autograd
import Morphling.Lib.Run
import Morphling.Matrix.Partition

/-!
# How long operands live (`proxy_svr.cpp`, `dispatch_gate.cpp`, `hooks/autograd.py`)

A partition points into the operands of its product and is sent later, on another thread. Nothing in
the server keeps the operands: they live as long as some function or closure refers to them.

* A `Frame` is a function that holds tensors and dispatches products of them: a caller of
  `async_dispatch_matmul` (`direct`), `LinearFunction.forward` and `LinearFunction.backward`, or the
  loop in which the gate runs the closures of its queue (`flushed`), which hold clones. Each
  dispatch and each wait ends in any of its ways (`Outcome`); an exception ends the frame.
* The memory of a tensor without references is used again (`reuse`).
* `SendInLoop` serializes by reference: the bytes are read again when the connection writes them
  (`written`).

`blocks_of_kept`: what is serialized and written are the blocks of the operands, in every run where
a partition is sent only while there are references to its operands, and the last one is not dropped
before the partition is written.
Tensors that are referred to are not written to.
-/

namespace Morphling.Lifetime

open List

/-- A partition, the tensors that it points into, and what was passed to its dispatch. -/
structure Block (R : Type*) where
  part : MatrixPartition DataPtr
  a : Nat
  b : Nat
  matA : Tensor R
  matB : Tensor R

/-- The row and the column of the block, from the operands. -/
def Block.passed {R : Type*} (block : Block R) : Option (MatrixPartition (List R)) :=
  deliver block.matA block.matB block.part

/-- What a function does with its local variables. -/
inductive Stmt where
  /-- `async_dispatch_matmul` of two of them. -/
  | dispatch (i j : Nat)
  /-- `_wait_for_dispatched_matmul` of the `k`-th dispatch. -/
  | wait (k : Nat)
  deriving DecidableEq, Repr

/-- A function that is running. -/
structure Frame where
  /-- The tensors of its local variables. -/
  locals : List Nat
  code : List Stmt
  /-- What its dispatches returned. -/
  oids : List Int := []
  deriving DecidableEq, Repr

/-- How a statement ends. -/
inductive Outcome where
  /-- The dispatch has made partitions. -/
  | dispatched (oid uuid64 : Nat)
  /-- The dispatch returned -1. -/
  | refused
  /-- The dispatch returned -1, and clones are in the queue of the gate. -/
  | queued
  /-- `WaitMatMul` returned. -/
  | waited
  | raised
  deriving DecidableEq, Repr

structure State (R : Type*) where
  blockSize : Nat
  /-- The memory of the tensors. -/
  contents : Nat → Tensor R
  /-- The number of the next tensor. -/
  fresh : Nat := 0
  frames : List Frame := []
  /-- The clones of the closures in the queue of the gate. -/
  workQueue : List (Nat × Nat) := []
  /-- The partitions of the tracker. -/
  tracked : List (Block R) := []
  /-- The calls of `SendInLoop` that are queued. -/
  sends : List (Block R) := []
  /-- The partitions that are serialized and not written. -/
  outbox : List (Block R) := []

/-- What happens next. -/
inductive Event (R : Type*) where
  /-- A function is called with tensors that its caller has, and makes tensors of its own. -/
  | call (shared : List Nat) (tensors : List (Tensor R)) (code : List Stmt)
  /-- A function goes on. -/
  | step (i : Nat) (outcome : Outcome)
  /-- The gate takes the closures out of its queue. -/
  | flush
  /-- `HandleMatMul` removes a partition. -/
  | answered (k : Nat)
  /-- `SendIdlePartitions`; a partition of a device that failed is sent again. -/
  | sendIdlePartition (k : Nat)
  | sendInLoop (k : Nat)
  /-- The connection has written a partition. -/
  | written (k : Nat)
  /-- The memory of a tensor gets other contents. -/
  | reuse (tensor : Nat) (contents : Tensor R)

/-- A caller of `async_dispatch_matmul`. -/
def direct {R : Type*} (matA matB : Tensor R) : Event R := .call [] [matA, matB] [.dispatch 0 1]

/-- `LinearFunction.forward`, on a tensor of its caller and the weight that it transposes. -/
def forward {R : Type*} (input : Nat) (fwdWeight : Tensor R) : Event R :=
  .call [input] [fwdWeight] [.dispatch 0 1, .wait 0]

/-- The dispatches and waits of `LinearFunction.backward`. -/
def backwardCode (needs : LinearFunction.Needs) : List Stmt :=
  (if needs.input then [.dispatch 0 1] else []) ++ (if needs.weight then [.dispatch 2 3] else []) ++
    (if needs.input then [.wait 0] else []) ++
    if needs.weight then [.wait (if needs.input then 1 else 0)] else []

/-- `LinearFunction.backward`, on `_dg`, `_dw`, `_dg_t` and `_din_t`. -/
def backward {R : Type*} (needs : LinearFunction.Needs) (dg dw dgT dinT : Tensor R) : Event R :=
  .call [] [dg, dw, dgT, dinT] (backwardCode needs)

/-- The loop over the closures: each dispatches its clones. -/
def flushed (workQueue : List (Nat × Nat)) : Frame where
  locals := workQueue.flatMap fun work => [work.1, work.2]
  code := (List.range workQueue.length).map fun k => .dispatch (2 * k) (2 * k + 1)

/-- The function ends with this statement: it returns, or an exception leaves it. -/
def Frame.ends (f : Frame) (outcome : Outcome) : Bool :=
  match f.code with
  | [] => true
  | .dispatch _ _ :: _ => outcome = .raised
  -- A negative id raises a `RuntimeError`.
  | .wait k :: _ => f.oids.getD k (-1) < 0 || outcome = .raised

namespace State

variable {R : Type*} (s : State R)

/-- The references to tensors. -/
def refs : List Nat :=
  s.frames.flatMap Frame.locals ++ s.workQueue.flatMap fun work => [work.1, work.2]

/-- The partitions that are sent, or may be. -/
def pending : List (Block R) := s.tracked ++ s.sends ++ s.outbox

/-- New tensors. -/
def alloc (tensors : List (Tensor R)) : State R :=
  { s with
    contents := fun t =>
      if s.fresh ≤ t then tensors.getD (t - s.fresh) (s.contents t) else s.contents t
    fresh := s.fresh + tensors.length }

/-- The `i`-th function goes on with the rest of its code. -/
def resume (i : Nat) (f : Frame) (rest : List Stmt) (oids : List Int) : State R :=
  { s with frames := s.frames.set i { f with code := rest, oids := f.oids ++ oids } }

/-- The function is gone, with its references. -/
def drop (i : Nat) : State R := { s with frames := s.frames.eraseIdx i }

/-- `DispatchMatMulAsync` of the tensors `a` and `b`, as far as it makes partitions. -/
def addPartitions (a b oid uuid64 : Nat) : State R :=
  let parts := (partitionMatrices (s.contents a) (s.contents b) s.blockSize uuid64).getD []
  { s with
    tracked := s.tracked ++ parts.map fun part =>
      ⟨{ part with oid := oid, devId := -1 }, a, b, s.contents a, s.contents b⟩ }

/-- `EnqueueWork` of a closure with clones. -/
def enqueueWork (a b : Nat) : State R :=
  { s.alloc [s.contents a, s.contents b] with
    workQueue := s.workQueue ++ [(s.fresh, s.fresh + 1)] }

/-- The next statement of the `i`-th function. -/
def step (i : Nat) (f : Frame) (outcome : Outcome) : State R :=
  if f.ends outcome then s.drop i else
  match f.code, outcome with
  | .dispatch p q :: rest, .dispatched oid uuid64 =>
    match f.locals[p]?, f.locals[q]? with
    | some a, some b => (s.addPartitions a b oid uuid64).resume i f rest [(oid : Int)]
    | _, _ => s
  | .dispatch _ _ :: rest, .refused => s.resume i f rest [-1]
  | .dispatch p q :: rest, .queued =>
    match f.locals[p]?, f.locals[q]? with
    | some a, some b => (s.enqueueWork a b).resume i f rest [-1]
    | _, _ => s
  | .wait _ :: rest, .waited => s.resume i f rest []
  | _, _ => s

/-- An event that cannot happen changes nothing. -/
def next : Event R → State R
  | .call shared tensors code =>
    if ∀ t ∈ shared, t ∈ s.refs then
      { s.alloc tensors with
        frames := s.frames ++ [⟨shared ++ List.range' s.fresh tensors.length, code, []⟩] }
    else s
  | .step i outcome =>
    match s.frames[i]? with
    | none => s
    | some f => s.step i f outcome
  | .flush => { s with frames := s.frames ++ [flushed s.workQueue], workQueue := [] }
  | .answered k => { s with tracked := s.tracked.eraseIdx k }
  | .sendIdlePartition k =>
    match s.tracked[k]? with
    | none => s
    | some block => { s with sends := s.sends ++ [block] }
  | .sendInLoop k =>
    match s.sends[k]? with
    | none => s
    | some block => { s with sends := s.sends.eraseIdx k, outbox := s.outbox ++ [block] }
  | .written k => { s with outbox := s.outbox.eraseIdx k }
  | .reuse t contents =>
    if t ∈ s.refs then s else { s with contents := Function.update s.contents t contents }

/-- No tensor, and memory with any contents. -/
def start (blockSize : Nat) (contents : Nat → Tensor R) : State R where
  blockSize := blockSize
  contents := contents

/-- The row and the column that a partition points to, as they are now. -/
def bytes (block : Block R) : Option (MatrixPartition (List R)) :=
  deliver (s.contents block.a) (s.contents block.b) block.part

/-- What is serialized or written are the blocks of the operands. -/
def SendsBlocks : Event R → Prop
  | .sendInLoop k => ∀ block, s.sends[k]? = some block → s.bytes block = block.passed
  | .written k => ∀ block, s.outbox[k]? = some block → s.bytes block = block.passed
  | _ => True

/-- There are references to the operands of a partition. -/
def Referenced (block : Block R) : Prop := block.a ∈ s.refs ∧ block.b ∈ s.refs

/-- A partition is sent while there are references to its operands, and a function that ends leaves
some until the partition is written. -/
def Kept : Event R → Prop
  | .step i outcome => ∀ f, s.frames[i]? = some f → f.ends outcome = true →
    ∀ block ∈ s.sends ++ s.outbox, (s.drop i).Referenced block
  | .sendIdlePartition k => ∀ block, s.tracked[k]? = some block → s.Referenced block
  | _ => True

/-! ## References -/

/-- What every run keeps. A tensor without references never gets one again. -/
structure Inv : Prop where
  sent : ∀ block ∈ s.sends ++ s.outbox, s.Referenced block
  made : ∀ block ∈ s.pending, block.a < s.fresh ∧ block.b < s.fresh
  intact : ∀ block ∈ s.pending, (block.a ∈ s.refs → s.contents block.a = block.matA) ∧
    (block.b ∈ s.refs → s.contents block.b = block.matB)
  fresh : ∀ t ∈ s.refs, t < s.fresh

variable {s} {t i : Nat} {f : Frame} {s' : State R}

/-- A step that makes no partitions, keeps the contents of the tensors and refers to no old tensor
that was without references. -/
theorem Inv.of_le (h : s.Inv) (hpending : ∀ block ∈ s'.pending, block ∈ s.pending)
    (hsent : ∀ block ∈ s'.sends ++ s'.outbox, s'.Referenced block)
    (hrefs : ∀ t ∈ s'.refs, t ∈ s.refs ∨ s.fresh ≤ t)
    (hcontents : ∀ t ∈ s.refs, s'.contents t = s.contents t) (hle : s.fresh ≤ s'.fresh)
    (hfresh : ∀ t ∈ s'.refs, t < s'.fresh) : s'.Inv where
  sent := hsent
  made block hblock := by
    have := h.made block (hpending block hblock)
    omega
  intact block hblock := by
    have hmem := hpending block hblock
    obtain ⟨hma, hmb⟩ := h.made block hmem
    obtain ⟨hia, hib⟩ := h.intact block hmem
    have hold {t : Nat} (ht : t ∈ s'.refs) (hlt : t < s.fresh) : t ∈ s.refs :=
      (hrefs t ht).resolve_right (Nat.not_le.mpr hlt)
    exact ⟨fun ha => (hcontents _ (hold ha hma)).trans (hia (hold ha hma)),
      fun hb => (hcontents _ (hold hb hmb)).trans (hib (hold hb hmb))⟩
  fresh := hfresh

/-- The same, where the references stay as well. -/
theorem Inv.of_refs (h : s.Inv) (hpending : ∀ block ∈ s'.pending, block ∈ s.pending)
    (hsent : ∀ block ∈ s'.sends ++ s'.outbox, s.Referenced block)
    (hrefs : ∀ t, t ∈ s'.refs ↔ t ∈ s.refs) (hcontents : ∀ t ∈ s.refs, s'.contents t = s.contents t)
    (hfresh : s'.fresh = s.fresh) : s'.Inv :=
  h.of_le hpending
    (fun block hblock => ⟨(hrefs _).mpr (hsent block hblock).1, (hrefs _).mpr (hsent block hblock).2⟩)
    (fun t ht => .inl ((hrefs t).mp ht)) hcontents (Nat.le_of_eq hfresh.symm)
    fun t ht => hfresh ▸ h.fresh t ((hrefs t).mp ht)

/-- New tensors do not touch the old ones. -/
theorem contents_alloc {tensors : List (Tensor R)} (h : t < s.fresh) :
    (s.alloc tensors).contents t = s.contents t := if_neg (Nat.not_le.mpr h)

theorem mem_refs : t ∈ s.refs ↔
    (∃ f ∈ s.frames, t ∈ f.locals) ∨ ∃ work ∈ s.workQueue, t = work.1 ∨ t = work.2 := by
  simp [State.refs]

theorem mem_refs_of_frame (hf : s.frames[i]? = some f) (ht : t ∈ f.locals) : t ∈ s.refs :=
  mem_refs.mpr (.inl ⟨f, mem_of_getElem? hf, ht⟩)

/-- A function that goes on keeps its references. -/
theorem refs_resume (hf : s.frames[i]? = some f) (rest : List Stmt) (oids : List Int) :
    (s.resume i f rest oids).refs = s.refs := by
  obtain ⟨hi, rfl⟩ := List.getElem?_eq_some_iff.mp hf
  have hlocals : (s.frames.set i { s.frames[i] with
      code := rest, oids := s.frames[i].oids ++ oids }).map Frame.locals =
      s.frames.map Frame.locals := by
    have hi' : i < (s.frames.map Frame.locals).length := by simpa using hi
    have hself := set_getElem_self hi'
    rw [getElem_map] at hself
    rw [map_set]
    exact hself
  simp only [State.refs, resume, flatMap_def, hlocals]

theorem Inv.resume {s : State R} (h : s.Inv) (hf : s.frames[i]? = some f) (rest : List Stmt)
    (oids : List Int) : (s.resume i f rest oids).Inv :=
  h.of_refs (fun _ => id) h.sent (fun t => by rw [refs_resume hf rest oids]) (fun _ _ => rfl) rfl

theorem refs_drop_subset (i : Nat) (ht : t ∈ (s.drop i).refs) : t ∈ s.refs := by
  rw [mem_refs] at ht ⊢
  refine ht.imp_left fun ⟨f, hf, hlocal⟩ => ⟨f, ?_, hlocal⟩
  exact mem_of_mem_eraseIdx hf

theorem Inv.drop (h : s.Inv) (hkept : ∀ block ∈ s.sends ++ s.outbox, (s.drop i).Referenced block) :
    (s.drop i).Inv :=
  h.of_le (fun _ => id) hkept (fun _ ht => .inl (refs_drop_subset i ht)) (fun _ _ => rfl)
    (Nat.le_refl _) fun t ht => h.fresh t (refs_drop_subset i ht)

/-- The partitions of a dispatch point into tensors that its function has. -/
theorem Inv.addPartitions (h : s.Inv) {a b : Nat} (ha : a ∈ s.refs) (hb : b ∈ s.refs)
    (oid uuid64 : Nat) : (s.addPartitions a b oid uuid64).Inv := by
  have hcases : ∀ block ∈ (s.addPartitions a b oid uuid64).pending, block ∈ s.pending ∨
      (block.a = a ∧ block.matA = s.contents a) ∧ block.b = b ∧ block.matB = s.contents b := by
    intro block hblock
    simp only [State.pending, State.addPartitions, mem_append, mem_map] at hblock ⊢
    rcases hblock with ((hblock | ⟨part, -, rfl⟩) | hblock) | hblock
    · exact .inl (.inl (.inl hblock))
    · exact .inr ⟨⟨rfl, rfl⟩, rfl, rfl⟩
    · exact .inl (.inl (.inr hblock))
    · exact .inl (.inr hblock)
  refine ⟨h.sent, fun block hblock => ?_, fun block hblock => ?_, h.fresh⟩
  · rcases hcases block hblock with hblock | ⟨⟨ha', -⟩, hb', -⟩
    · exact h.made block hblock
    · rw [ha', hb']
      exact ⟨h.fresh a ha, h.fresh b hb⟩
  · rcases hcases block hblock with hblock | ⟨⟨ha', hma⟩, hb', hmb⟩
    · exact h.intact block hblock
    · rw [ha', hb', hma, hmb]
      exact ⟨fun _ => rfl, fun _ => rfl⟩

/-- New tensors, and references to them. -/
theorem Inv.alloc (h : s.Inv) (tensors : List (Tensor R))
    (halloc : s' = { s.alloc tensors with frames := s'.frames, workQueue := s'.workQueue })
    (hrefs : ∀ t ∈ s.refs, t ∈ s'.refs)
    (hnew : ∀ t ∈ s'.refs, t ∈ s.refs ∨ s.fresh ≤ t ∧ t < s.fresh + tensors.length) : s'.Inv := by
  have hfresh : s'.fresh = s.fresh + tensors.length := by rw [halloc, State.alloc]
  have hsent : s'.sends ++ s'.outbox = s.sends ++ s.outbox := by rw [halloc, State.alloc]
  refine h.of_le (fun block hblock => ?_) (fun block hblock => ?_)
    (fun t ht => (hnew t ht).imp_right And.left) (fun t ht => ?_) (by omega) fun t ht => ?_
  · rw [halloc] at hblock
    exact hblock
  · rw [hsent] at hblock
    exact ⟨hrefs _ (h.sent block hblock).1, hrefs _ (h.sent block hblock).2⟩
  · rw [halloc]
    exact contents_alloc (h.fresh t ht)
  · rcases hnew t ht with ht | ht
    · have := h.fresh t ht
      omega
    · omega

/-- The closure has tensors of its own. -/
theorem Inv.enqueueWork (h : s.Inv) (a b : Nat) : (s.enqueueWork a b).Inv := by
  have hrefs (t : Nat) : t ∈ (s.enqueueWork a b).refs ↔
      t ∈ s.refs ∨ t = s.fresh ∨ t = s.fresh + 1 := by
    simp [State.refs, State.enqueueWork, State.alloc, or_assoc]
  refine h.alloc [s.contents a, s.contents b] rfl (fun t ht => (hrefs t).mpr (.inl ht))
    fun t ht => ((hrefs t).mp ht).imp_right fun ht => ?_
  simp only [length_cons, length_nil]
  omega

theorem Inv.call (h : s.Inv) {shared : List Nat} (hshared : ∀ t ∈ shared, t ∈ s.refs)
    (tensors : List (Tensor R)) (code : List Stmt) :
    ({ s.alloc tensors with
      frames := s.frames ++ [⟨shared ++ List.range' s.fresh tensors.length, code, []⟩] } :
        State R).Inv := by
  refine h.alloc tensors rfl (fun t ht => ?_) fun t ht => ?_
  · simp only [mem_refs, mem_append] at ht ⊢
    exact ht.imp_left fun ⟨f, hf, hlocal⟩ => ⟨f, .inl hf, hlocal⟩
  · rcases mem_refs.mp ht with ⟨f, hf, hlocal⟩ | hwork
    · rcases mem_append.mp hf with hf | hf
      · exact .inl (mem_refs.mpr (.inl ⟨f, hf, hlocal⟩))
      · rw [mem_singleton.mp hf] at hlocal
        exact (mem_append.mp hlocal).imp (hshared t) mem_range'_1.mp
    · exact .inl (mem_refs.mpr (.inr hwork))

theorem refs_flush : t ∈ (s.next .flush).refs ↔ t ∈ s.refs := by
  simp [State.refs, State.next, flushed, or_comm]

/-! ## Steps -/

theorem Inv.statement (h : s.Inv) (hf : s.frames[i]? = some f) {outcome : Outcome}
    (hkept : s.Kept (.step i outcome)) : (s.step i f outcome).Inv := by
  unfold State.step
  split
  · exact h.drop (hkept f hf ‹_›)
  · split
    · -- A dispatch that makes partitions.
      split
      · rename_i a b ha hb
        exact (h.addPartitions (mem_refs_of_frame hf (mem_of_getElem? ha))
          (mem_refs_of_frame hf (mem_of_getElem? hb)) _ _).resume hf _ _
      · exact h
    · exact h.resume hf _ _
    · split
      · exact (h.enqueueWork _ _).resume hf _ _
      · exact h
    · exact h.resume hf _ _
    · exact h

theorem Inv.step (h : s.Inv) {e : Event R} (hkept : s.Kept e) : (s.next e).Inv := by
  cases e with
  | call shared tensors code =>
    simp only [State.next]
    split
    · exact h.call ‹_› tensors code
    · exact h
  | step i outcome =>
    simp only [State.next]
    split
    · exact h
    · exact h.statement ‹_› hkept
  | flush => exact h.of_refs (fun _ => id) h.sent (fun _ => refs_flush) (fun _ _ => rfl) rfl
  | answered k =>
    refine h.of_refs (fun block hblock => ?_) h.sent (fun _ => .rfl) (fun _ _ => rfl) rfl
    simp only [State.next, State.pending, mem_append] at hblock ⊢
    exact hblock.imp_left (Or.imp_left mem_of_mem_eraseIdx)
  | sendIdlePartition k =>
    simp only [State.next]
    split
    · exact h
    · rename_i block hk
      refine h.of_refs (fun block' hblock => ?_) (fun block' hblock => ?_) (fun _ => .rfl)
        (fun _ _ => rfl) rfl
      · simp only [State.pending, mem_append, mem_singleton] at hblock ⊢
        rcases hblock with (hblock | hblock | rfl) | hblock
        · exact .inl (.inl hblock)
        · exact .inl (.inr hblock)
        · exact .inl (.inl (mem_of_getElem? hk))
        · exact .inr hblock
      · simp only [mem_append, mem_singleton] at hblock
        rcases hblock with (hblock | rfl) | hblock
        · exact h.sent block' (mem_append_left _ hblock)
        · exact hkept block' hk
        · exact h.sent block' (mem_append_right _ hblock)
  | sendInLoop k =>
    simp only [State.next]
    split
    · exact h
    · rename_i block hk
      have hmem : ∀ block' ∈ s.sends.eraseIdx k ++ (s.outbox ++ [block]),
          block' ∈ s.sends ++ s.outbox := by
        intro block' hblock
        simp only [mem_append, mem_singleton] at hblock ⊢
        rcases hblock with hblock | hblock | rfl
        · exact .inl (mem_of_mem_eraseIdx hblock)
        · exact .inr hblock
        · exact .inl (mem_of_getElem? hk)
      refine h.of_refs (fun block' hblock => ?_) (fun block' hblock => h.sent _ (hmem _ hblock))
        (fun _ => .rfl) (fun _ _ => rfl) rfl
      simp only [State.pending, append_assoc, mem_append (s := s.tracked)] at hblock ⊢
      exact hblock.imp_right (hmem block')
  | written k =>
    have hmem : ∀ block ∈ s.outbox.eraseIdx k, block ∈ s.outbox := fun _ => mem_of_mem_eraseIdx
    refine h.of_refs (fun block hblock => ?_) (fun block hblock => h.sent block ?_) (fun _ => .rfl)
      (fun _ _ => rfl) rfl
    · simp only [State.next, State.pending, mem_append] at hblock ⊢
      exact hblock.imp_right (hmem block)
    · exact mem_append.mpr ((mem_append.mp hblock).imp_right (hmem block))
  | reuse t contents =>
    simp only [State.next]
    split
    · exact h
    · rename_i hfree
      refine h.of_refs (fun _ => id) h.sent (fun _ => .rfl) (fun t' ht' => ?_) rfl
      refine Function.update_of_ne ?_ ..
      rintro rfl
      exact hfree ht'

/-- A partition that is sent reads what was passed. -/
theorem Inv.bytes_eq (h : s.Inv) {block : Block R} (hblock : block ∈ s.sends ++ s.outbox) :
    s.bytes block = block.passed := by
  obtain ⟨ha, hb⟩ := h.sent block hblock
  have hpending : block ∈ s.pending := by
    rw [State.pending, append_assoc]
    exact mem_append_right _ hblock
  rw [bytes, (h.intact block hpending).1 ha, (h.intact block hpending).2 hb, Block.passed]

theorem sendsBlocks_of_inv (h : s.Inv) (e : Event R) : s.SendsBlocks e := by
  cases e with
  | sendInLoop k =>
    exact fun block hk => h.bytes_eq (mem_append_left _ (mem_of_getElem? hk))
  | written k =>
    exact fun block hk => h.bytes_eq (mem_append_right _ (mem_of_getElem? hk))
  | _ => trivial

/-! ## Runs -/

/-- In a run where partitions are sent, and not yet written, only while there are references to their
operands, the blocks of the operands are sent. -/
theorem blocks_of_kept (blockSize : Nat) (contents : Nat → Tensor R) (es : List (Event R))
    (hkept : Run.Along next Kept (start blockSize contents) es) :
    Run.Along next SendsBlocks (start blockSize contents) es :=
  Run.Along.of_inv (fun _ _ h he => h.step he) (fun _ e h _ => sendsBlocks_of_inv h e) hkept
    ⟨fun _ h => absurd h not_mem_nil, fun _ h => absurd h not_mem_nil,
      fun _ h => absurd h not_mem_nil, fun _ h => absurd h not_mem_nil⟩

end State

/-! ## Concrete runs -/

open State

/-- A matrix of one element. -/
def scalar (x : Nat) : Tensor Nat := ⟨[1, 1], [x], rfl⟩

/-- A call of `forward` that returns. Tensor 0 belongs to its caller. -/
def returnedForward : List (Event Nat) :=
  [.call [] [scalar 1] [], forward 0 (scalar 2), .step 1 (.dispatched 0 1), .sendIdlePartition 0,
    .sendInLoop 0, .written 0, .answered 0, .step 1 .waited, .step 1 .waited]

/-- A caller that drops its operands when the partition was written, and before it was answered. -/
def writtenOperands : List (Event Nat) :=
  [direct (scalar 1) (scalar 2), .step 0 (.dispatched 0 1), .sendIdlePartition 0, .sendInLoop 0,
    .written 0, .step 0 .waited, .reuse 0 (scalar 9), .answered 0]

theorem returnedForward_blocks :
    Run.Along next SendsBlocks (start 1 fun _ => scalar 0) returnedForward ∧
      Run.Along next SendsBlocks (start 1 fun _ => scalar 0) writtenOperands := by
  have hsent : ∀ {block block' : Block Nat} {refs : List Nat}, some block = some block' →
      block.a ∈ refs ∧ block.b ∈ refs → block'.a ∈ refs ∧ block'.b ∈ refs :=
    fun h hrefs => Option.some.inj h ▸ hrefs
  refine ⟨blocks_of_kept 1 _ _ ⟨trivial, trivial, ?_, fun _ h => hsent h (by decide), trivial, trivial,
    trivial, ?_, fun _ _ _ _ h => absurd h not_mem_nil, trivial⟩, blocks_of_kept 1 _ _ ⟨trivial, ?_,
    fun _ h => hsent h (by decide), trivial, trivial, fun _ _ _ _ h => absurd h not_mem_nil, trivial,
    trivial, trivial⟩⟩
  all_goals
    rintro f ⟨⟩ hends
    exact absurd hends (by decide)

/-- The first dispatch of `backward` fails and the second does not; the first wait raises. -/
def failedBackward : List (Event Nat) :=
  [backward ⟨true, true, false⟩ (scalar 1) (scalar 2) (scalar 3) (scalar 4), .step 0 .refused,
    .step 0 (.dispatched 0 1), .step 0 .raised, .reuse 2 (scalar 9), .sendIdlePartition 0,
    .sendInLoop 0]

/-- The closure of a queued dispatch runs, and its clones are gone. -/
def flushedQueue : List (Event Nat) :=
  [direct (scalar 1) (scalar 2), .step 0 .queued, .flush, .step 1 (.dispatched 0 1),
    .step 1 .waited, .reuse 2 (scalar 9), .sendIdlePartition 0, .sendInLoop 0]

/-- A caller drops its operands after the dispatch. -/
def droppedOperands : List (Event Nat) :=
  [direct (scalar 1) (scalar 2), .step 0 (.dispatched 0 1), .step 0 .waited, .reuse 0 (scalar 9),
    .sendIdlePartition 0, .sendInLoop 0]

theorem failedBackward_not_blocks :
    ¬Run.Along next SendsBlocks (start 1 fun _ => scalar 0) failedBackward ∧
    ¬Run.Along next SendsBlocks (start 1 fun _ => scalar 0) flushedQueue ∧
    ¬Run.Along next SendsBlocks (start 1 fun _ => scalar 0) droppedOperands := by
  refine ⟨fun h => ?_, fun h => ?_, fun h => ?_⟩
  · have hbytes := h.2.2.2.2.2.2.1 _ rfl
    exact absurd (congrArg (Option.map MatrixPartition.mat) hbytes) (by decide)
  · have hbytes := h.2.2.2.2.2.2.2.1 _ rfl
    exact absurd (congrArg (Option.map MatrixPartition.mat) hbytes) (by decide)
  · have hbytes := h.2.2.2.2.2.1 _ rfl
    exact absurd (congrArg (Option.map MatrixPartition.mat) hbytes) (by decide)

end Morphling.Lifetime
