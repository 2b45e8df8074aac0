import Mathlib.Algebra.Ring.Nat
import Morphling.Lib.Dict
import Morphling.Lib.Run

/-!
# The caching allocator (`memory/caching_allocator.cpp`)

Blocks that are freed are kept for later requests of the same size. The allocator has a budget and
two counters: `allocated_bytes_`, which is never increased, and `used_bytes_`.

* `Allocator`: the allocator. `Outcome`: an `Allocate` returns a block, ends the process, or acquires
  `mutex_` a second time, which `FreePinShmMemory` does.
* `World`: the allocator, the blocks that callers hold, and those obtained from the system.
* `live_safe`: no block that a caller holds is handed out or released, in any run.
* `counters_eq`: what the counters are in every run, in terms of the blocks that were released.
* `budget_iff`: the budget and the counters are kept exactly in the runs that obtain nothing.

The ids and names of shared memory segments are left out.
-/

namespace Morphling.Memory

open List Function

inductive MemoryType where
  | shm
  | pin
  | cuda
  | pinShm
  deriving DecidableEq

/-- `CachingAllocator`, over pointers `P`. -/
structure Allocator (P : Type) where
  maxBytes : UInt64
  type : MemoryType
  allocatedBytes : UInt64 := 0
  usedBytes : UInt64 := 0
  availableMap : List (UInt64 × List P) := []
  allocationMap : P → Option UInt64 := fun _ => none

/-- How `Allocate` ends: with the pointer, the cached blocks that it released before, and whether the
block is new; by `LOG_FATAL`; or with the thread waiting for the mutex that it holds. -/
inductive Outcome (P : Type) where
  | returned (ptr : P) (released : List (UInt64 × P)) (isNew : Bool) (a : Allocator P)
  | refused (released : List (UInt64 × P))
  | relocked

namespace Allocator

variable {P : Type} [DecidableEq P] (a : Allocator P)

/-- The blocks of `available_map_`, with the sizes that they are kept under. -/
def cached : List (UInt64 × P) := a.availableMap.flatMap fun e => e.2.map fun ptr => (e.1, ptr)

/-- `FreeMemory`; `FreePinShmMemory` begins with `FindShmMetaByRange`, which locks `mutex_`. -/
def freeMemory (_ptr : P) : Option (Allocator P) :=
  match a.type with
  | .shm | .pin | .cuda => some a
  | .pinShm => none

/-- The body of the loops of `FreeCached`. -/
def freeOne (a : Allocator P) (e : UInt64 × P) : Option (Allocator P) :=
  (a.freeMemory e.2).map fun a =>
    { a with
      allocatedBytes := a.allocatedBytes - e.1
      allocationMap := update a.allocationMap e.2 none
      usedBytes := a.usedBytes - e.1 }

/-- `FreeCached`, `none` where it locks `mutex_`. -/
def freeCached : Option (Allocator P) :=
  (a.cached.foldlM freeOne a).map fun a => { a with availableMap := [] }

/-- `AllocateAndCache`, where the system would return `fresh`. -/
def allocateAndCache (bytes : UInt64) (fresh : P) : Outcome P :=
  if a.allocatedBytes + bytes > a.maxBytes then
    match a.freeCached with
    | none => .relocked
    | some a' =>
      if a'.allocatedBytes + bytes > a'.maxBytes then .refused a.cached
      else .returned fresh a.cached true a'
  else .returned fresh [] true a

/-- The end of `Allocate`. -/
def record (bytes : UInt64) : Outcome P → Outcome P
  | .returned ptr released isNew a => .returned ptr released isNew
      { a with
        usedBytes := a.usedBytes + bytes
        allocationMap := update a.allocationMap ptr (some bytes) }
  | o => o

/-- `Allocate` -/
def allocate (bytes : UInt64) (fresh : P) : Outcome P :=
  record bytes <|
    match (a.availableMap.lookup bytes).bind List.getLast? with
    | some ptr => .returned ptr [] false
        { a with availableMap := Dict.modify bytes (fun o => (o.getD []).dropLast) a.availableMap }
    | none => if bytes = 0 then .returned fresh [] true a else a.allocateAndCache bytes fresh

/-- `Free`, `none` for a pointer that it does not know. -/
def free (ptr : P) : Option (Allocator P) :=
  (a.allocationMap ptr).map fun allocSize =>
    { a with
      availableMap := Dict.modify allocSize (fun o => o.getD [] ++ [ptr]) a.availableMap
      usedBytes := a.usedBytes - allocSize
      allocationMap := update a.allocationMap ptr none }

end Allocator

/-! ## Callers and the system -/

/-- The allocator, with what its callers hold and what the system has given. `halted` says that the
process has ended, or that the thread waits for itself. -/
structure World (P : Type) where
  allocator : Allocator P
  live : List (P × UInt64) := []
  obtained : List (P × Nat) := []
  /-- The bytes of the cached blocks that were released so far. -/
  releasedBytes : UInt64 := 0
  halted : Bool := false

inductive Op (P : Type) where
  /-- `Allocate`, with the block that the system returns if it is asked. -/
  | allocate (bytes : UInt64) (fresh : P)
  | free (ptr : P)

/-- What `AllocateMemory` obtains: with `PIN_SHM` whole pages. -/
def systemBytes (pageSize : Nat) (type : MemoryType) (bytes : UInt64) : Nat :=
  match type with
  | .shm | .pin | .cuda => bytes.toNat
  | .pinShm => (bytes.toNat + pageSize - 1) / pageSize * pageSize

def sum (l : List UInt64) : UInt64 := l.foldr (· + ·) 0

namespace World

variable {P : Type} [DecidableEq P] (pageSize : Nat)

/-- The allocator that was just constructed. -/
def init (maxBytes : UInt64) (type : MemoryType) : World P := { allocator := { maxBytes, type } }

def next (w : World P) : Op P → World P
  | .allocate bytes fresh =>
    match w.allocator.allocate bytes fresh with
    | .returned ptr released isNew a =>
      let kept := w.obtained.filter (·.1 ∉ released.map Prod.snd)
      { allocator := a
        live := (ptr, bytes) :: w.live
        obtained :=
          if isNew then (ptr, systemBytes pageSize w.allocator.type bytes) :: kept else kept
        releasedBytes := w.releasedBytes + sum (released.map Prod.fst) }
    | .refused _ | .relocked => { w with halted := true }
  | .free ptr =>
    match w.allocator.free ptr with
    | some a => { w with allocator := a, live := Dict.erase ptr w.live }
    | none => { w with halted := true }

/-- A block that the system returns is none of those that it has not got back. -/
def Fresh (w : World P) (fresh : P) : Outcome P → Prop
  | .returned _ released true _ =>
    ∀ p ∈ Dict.keys w.obtained, p ∉ released.map Prod.snd → p ≠ fresh
  | _ => True

/-- What the callers and the system do: requests are for one byte or more, new blocks are fresh, and
only live pointers are freed. -/
def Enabled (w : World P) : Op P → Prop
  | .allocate bytes fresh =>
    w.halted = false ∧ bytes ≠ 0 ∧ w.Fresh fresh (w.allocator.allocate bytes fresh)
  | .free ptr => w.halted = false ∧ ptr ∈ Dict.keys w.live

instance Fresh.decidable (w : World P) (fresh : P) : ∀ o, Decidable (w.Fresh fresh o)
  | .returned _ _ true _ => inferInstanceAs (Decidable (∀ _ ∈ _, _))
  | .returned _ _ false _ => .isTrue trivial
  | .refused _ => .isTrue trivial
  | .relocked => .isTrue trivial

instance Enabled.decidable (w : World P) : ∀ op, Decidable (w.Enabled op)
  | .allocate _ _ => inferInstanceAs (Decidable (_ ∧ _ ∧ _))
  | .free _ => inferInstanceAs (Decidable (_ ∧ _))

theorem Enabled.halted {w : World P} {op : Op P} (h : w.Enabled op) : w.halted = false := by
  cases op with
  | allocate bytes fresh => exact h.1
  | free ptr => exact h.1

/-- The budget is kept, and the counters are right. -/
structure Budget (w : World P) : Prop where
  within : (w.obtained.map Prod.snd).sum ≤ w.allocator.maxBytes.toNat
  allocated : w.allocator.allocatedBytes.toNat = (w.obtained.map Prod.snd).sum
  used : w.allocator.usedBytes.toNat = (w.live.map fun b => b.2.toNat).sum

/-- No live block is handed out or released by the operation. -/
def LiveSafe (w : World P) : Op P → Prop
  | .allocate bytes fresh =>
    match w.allocator.allocate bytes fresh with
    | .returned ptr released _ _ =>
      ptr ∉ Dict.keys w.live ∧ ∀ e ∈ released, e.2 ∉ Dict.keys w.live
    | .refused released => ∀ e ∈ released, e.2 ∉ Dict.keys w.live
    | .relocked => True
  | .free _ => True

/-- The operation does not acquire `mutex_` while it holds it. -/
def LocksOnce (w : World P) : Op P → Prop
  | .allocate bytes fresh => w.allocator.allocate bytes fresh ≠ .relocked
  | .free _ => True

end World

/-! ## What `Allocate` does -/

theorem sum_perm {l l' : List UInt64} (h : l.Perm l') : sum l = sum l' := by
  induction h with
  | nil => rfl
  | cons x _ ih => exact congrArg (x + ·) ih
  | swap x y l =>
    simp only [sum, foldr_cons]
    rw [← UInt64.add_assoc, UInt64.add_comm y x, UInt64.add_assoc]
  | trans _ _ ih₁ ih₂ => exact ih₁.trans ih₂

namespace Allocator

variable {P : Type} [DecidableEq P] (a : Allocator P)

omit [DecidableEq P] in
theorem map_snd_cached : a.cached.map Prod.snd = a.availableMap.flatMap Prod.snd := by
  simp [cached, map_flatMap, Function.comp_def]

theorem foldlM_freeOne (h : a.type ≠ .pinShm) (l : List (UInt64 × P)) :
    l.foldlM freeOne a = some
      { a with
        allocatedBytes := a.allocatedBytes - sum (l.map Prod.fst)
        usedBytes := a.usedBytes - sum (l.map Prod.fst)
        allocationMap := fun p => if p ∈ l.map Prod.snd then none else a.allocationMap p } := by
  induction l generalizing a with
  | nil => simp [sum]
  | cons e l ih =>
    have hfree : a.freeMemory e.2 = some a := by
      unfold freeMemory
      split
      all_goals first | rfl | exact absurd ‹_› h
    rw [foldlM_cons, freeOne, hfree, Option.map_some, Option.bind_eq_bind, Option.bind_some]
    refine Eq.trans (ih _ ?_) ?_
    · exact h
    have hsub : ∀ x y z : UInt64, x - y - z = x - (y + z) := by grind
    simp only [map_cons, sum, foldr_cons, hsub]
    congr 2
    funext p
    by_cases hp : p = e.2
    · simp [hp]
    · rw [update_of_ne hp]
      simp only [mem_cons, hp, false_or]

/-- The allocator after all cached blocks were released. -/
def flushed : Allocator P :=
  { a with
    allocatedBytes := a.allocatedBytes - sum (a.cached.map Prod.fst)
    usedBytes := a.usedBytes - sum (a.cached.map Prod.fst)
    allocationMap := fun p => if p ∈ a.cached.map Prod.snd then none else a.allocationMap p
    availableMap := [] }

/-- `FreeCached` releases all cached blocks, or locks `mutex_` at the first one. -/
theorem freeCached_eq :
    a.freeCached = if a.type = .pinShm ∧ a.cached ≠ [] then none else some a.flushed := by
  rw [freeCached]
  by_cases h : a.type = .pinShm
  · cases hc : a.cached with
    | nil => simp [flushed, hc, sum]
    | cons e l =>
      have hnone : a.freeOne e = none := by simp [freeOne, freeMemory, h]
      simp [foldlM_cons, hnone, h]
  · rw [foldlM_freeOne a h, if_neg (fun hh => h hh.1)]
    rfl

/-- The end of `Allocate`, with the pointer that it returns. -/
def handOut (bytes : UInt64) (ptr : P) : Allocator P :=
  { a with
    usedBytes := a.usedBytes + bytes
    allocationMap := update a.allocationMap ptr (some bytes) }

/-- The allocator without a cached block of this size. -/
def take (bytes : UInt64) : Allocator P :=
  { a with availableMap := Dict.modify bytes (fun o => (o.getD []).dropLast) a.availableMap }

/-- The allocator with one more cached block of this size. -/
def putBack (size : UInt64) (ptr : P) : Allocator P :=
  { a with
    availableMap := Dict.modify size (fun o => o.getD [] ++ [ptr]) a.availableMap
    usedBytes := a.usedBytes - size
    allocationMap := update a.allocationMap ptr none }

/-- All that `Allocate` can do with a positive number of bytes. -/
inductive Allocated (bytes : UInt64) (fresh : P) : Outcome P → Prop
  /-- A cached block is used again. -/
  | reused (ptr : P) (h : (a.availableMap.lookup bytes).bind List.getLast? = some ptr) :
    Allocated bytes fresh (.returned ptr [] false ((a.take bytes).handOut bytes ptr))
  /-- The system is asked for a block. -/
  | obtained (h : ¬ a.maxBytes < a.allocatedBytes + bytes) :
    Allocated bytes fresh (.returned fresh [] true (a.handOut bytes fresh))
  /-- It is asked after the cached blocks were released. -/
  | flushed (h : a.maxBytes < a.allocatedBytes + bytes) (hlock : ¬ (a.type = .pinShm ∧ a.cached ≠ [])) :
    Allocated bytes fresh (.returned fresh a.cached true (a.flushed.handOut bytes fresh))
  | refused (h : a.maxBytes < a.allocatedBytes + bytes) :
    Allocated bytes fresh (.refused a.cached)
  | relocked (h : a.type = .pinShm ∧ a.cached ≠ []) : Allocated bytes fresh .relocked

theorem allocated_allocate {bytes : UInt64} (hb : bytes ≠ 0) (fresh : P) :
    a.Allocated bytes fresh (a.allocate bytes fresh) := by
  rw [allocate]
  split
  · rename_i ptr h
    exact .reused ptr h
  · rw [if_neg hb, allocateAndCache]
    split
    · rename_i hover
      rw [freeCached_eq]
      split
      · rename_i hnone
        refine .relocked ?_
        by_contra hno
        rw [if_neg hno] at hnone
        cases hnone
      · rename_i a' hsome
        have hlock : ¬ (a.type = .pinShm ∧ a.cached ≠ []) := fun h => by
          rw [if_pos h] at hsome
          cases hsome
        rw [if_neg hlock] at hsome
        obtain rfl := Option.some.inj hsome
        split
        · exact .refused hover
        · exact .flushed hover hlock
    · rename_i hunder
      exact .obtained hunder

end Allocator

namespace World

variable {P : Type} [DecidableEq P] {pageSize : Nat} {w : World P} {op : Op P}

/-- The allocator knows the blocks that callers hold, none of them is cached, and the counters are
short by what was released. -/
structure Knows (a : Allocator P) (live : List (P × UInt64)) (releasedBytes : UInt64) : Prop where
  allocation : ∀ p, a.allocationMap p = live.lookup p
  nodup : (Dict.keys live ++ a.cached.map Prod.snd).Nodup
  allocated : a.allocatedBytes = 0 - releasedBytes
  used : a.usedBytes = sum (live.map Prod.snd) - releasedBytes

namespace Knows

variable {a : Allocator P} {live : List (P × UInt64)} {releasedBytes bytes : UInt64} {ptr : P}

section
variable (h : Knows a live releasedBytes)
include h

theorem not_cached (hp : ptr ∈ Dict.keys live) : ptr ∉ a.cached.map Prod.snd := fun hc =>
  (List.nodup_append.mp h.nodup).2.2 ptr hp ptr hc rfl

/-- A block that is in no hands and not cached is handed out. -/
theorem handOut (hlive : ptr ∉ Dict.keys live) (hcached : ptr ∉ a.cached.map Prod.snd)
    (bytes : UInt64) : Knows (a.handOut bytes ptr) ((ptr, bytes) :: live) releasedBytes where
  allocation p := by
    rw [Dict.lookup_cons, ← h.allocation]
    simp only [Allocator.handOut, update_apply]
  nodup := by
    refine nodup_cons.mpr ⟨fun hmem => ?_, h.nodup⟩
    exact (mem_append.mp hmem).elim hlive hcached
  allocated := h.allocated
  used := by
    have hused := h.used
    simp only [Allocator.handOut, hused, map_cons, sum, foldr_cons]
    grind

/-- A cached block leaves the cache. -/
theorem take (hptr : (a.availableMap.lookup bytes).bind List.getLast? = some ptr) :
    Knows (a.take bytes) live releasedBytes ∧ ptr ∉ Dict.keys live ∧
      ptr ∉ (a.take bytes).cached.map Prod.snd ∧
      ∀ p, p ∈ a.cached.map Prod.snd ↔ p = ptr ∨ p ∈ (a.take bytes).cached.map Prod.snd := by
  have hperm : (a.cached.map Prod.snd).Perm (ptr :: (a.take bytes).cached.map Prod.snd) := by
    rw [Allocator.map_snd_cached, Allocator.map_snd_cached]
    exact Dict.flatMap_modify_dropLast hptr
  have hnodup := (hperm.append_left (Dict.keys live)).nodup_iff.mp h.nodup
  obtain ⟨hlive, htail, hdisj⟩ := List.nodup_append.mp hnodup
  obtain ⟨hcached, hrest⟩ := nodup_cons.mp htail
  refine ⟨⟨h.allocation, ?_, h.allocated, h.used⟩, ?_, hcached, fun p => ?_⟩
  · exact List.nodup_append.mpr
      ⟨hlive, hrest, fun p hp q hq => hdisj p hp q (mem_cons_of_mem _ hq)⟩
  · exact fun hp => hdisj ptr hp ptr mem_cons_self rfl
  · rw [hperm.mem_iff, mem_cons]

/-- All cached blocks are released. -/
theorem flushed : Knows a.flushed live (releasedBytes + sum (a.cached.map Prod.fst)) where
  allocation p := by
    have halloc := h.allocation p
    simp only [Allocator.flushed]
    split
    · rename_i hp
      have hno : p ∉ Dict.keys live := fun hl => h.not_cached hl hp
      rw [eq_comm, ← Option.not_isSome_iff_eq_none, Dict.lookup_isSome_iff]
      exact hno
    · exact halloc
  nodup := by
    have hnil : a.flushed.cached = [] := rfl
    rw [hnil, map_nil, append_nil]
    exact (List.nodup_append.mp h.nodup).1
  allocated := by
    simp only [Allocator.flushed, h.allocated]
    grind
  used := by
    simp only [Allocator.flushed, h.used]
    grind

/-- A block that a caller held is cached. -/
theorem free (hp : ptr ∈ Dict.keys live) :
    ∃ a', a.free ptr = some a' ∧ Knows a' (Dict.erase ptr live) releasedBytes ∧
      ∀ p, p ∈ a'.cached.map Prod.snd ↔ p = ptr ∨ p ∈ a.cached.map Prod.snd := by
  obtain ⟨size, hsize⟩ := Option.isSome_iff_exists.mp (Dict.lookup_isSome_iff.mpr hp)
  have halloc : a.allocationMap ptr = some size := (h.allocation ptr).trans hsize
  have hfree : a.free ptr = some (a.putBack size ptr) := by
    rw [Allocator.free, halloc]
    rfl
  have hlive : (Dict.keys live).Nodup := (List.nodup_append.mp h.nodup).1
  have hentry : live.Perm ((ptr, size) :: Dict.erase ptr live) := Dict.perm_cons_erase hlive hsize
  have hcached : ((a.putBack size ptr).cached.map Prod.snd).Perm
      (ptr :: a.cached.map Prod.snd) := by
    rw [Allocator.map_snd_cached, Allocator.map_snd_cached]
    exact Dict.flatMap_modify_append _ _ _
  refine ⟨_, hfree, ⟨fun p => ?_, ?_, h.allocated, ?_⟩, fun p => ?_⟩
  · rw [Dict.lookup_erase, ← h.allocation]
    exact update_apply _ _ _ _
  · have hkeys : (ptr :: Dict.keys (Dict.erase ptr live)).Perm (Dict.keys live) :=
      (hentry.map Prod.fst).symm
    refine ((hcached.append_left _).trans ?_).nodup_iff.mpr h.nodup
    exact perm_middle.trans (hkeys.append_right _)
  · have hsum : sum (live.map Prod.snd) = size + sum ((Dict.erase ptr live).map Prod.snd) :=
      sum_perm (hentry.map Prod.snd)
    simp only [Allocator.putBack, h.used, hsum]
    grind
  · rw [hcached.mem_iff, mem_cons]

end

end Knows

/-- The blocks of the system are those that callers hold and those that are cached. -/
structure Inv (w : World P) : Prop where
  knows : Knows w.allocator w.live w.releasedBytes
  obtained : ∀ p, p ∈ Dict.keys w.obtained ↔
    p ∈ Dict.keys w.live ∨ p ∈ w.allocator.cached.map Prod.snd

theorem inv_init (maxBytes : UInt64) (type : MemoryType) : (init maxBytes type : World P).Inv where
  knows := ⟨fun _ => rfl, nodup_nil, by simp [init], by simp [init, sum]⟩
  obtained _ := by simp [init, Allocator.cached, Dict.keys]

theorem mem_keys_filter {m : List (P × Nat)} {ptrs : List P} {p : P} :
    p ∈ Dict.keys (m.filter (·.1 ∉ ptrs)) ↔ p ∈ Dict.keys m ∧ p ∉ ptrs := by
  simp only [Dict.keys, mem_map, mem_filter, decide_eq_true_iff]
  constructor
  · rintro ⟨e, ⟨he, hp⟩, rfl⟩
    exact ⟨⟨e, he, rfl⟩, hp⟩
  · rintro ⟨⟨e, he, rfl⟩, hp⟩
    exact ⟨e, ⟨he, hp⟩, rfl⟩

/-- Any block that `Allocate` hands out or releases is in no hands. -/
theorem Inv.liveSafe (h : w.Inv) (hen : w.Enabled op) : w.LiveSafe op := by
  cases op with
  | free ptr => trivial
  | allocate bytes fresh =>
    obtain ⟨-, hb, hfresh⟩ := hen
    have hcached : ∀ e ∈ w.allocator.cached, e.2 ∉ Dict.keys w.live := fun e he hl =>
      h.knows.not_cached hl (mem_map_of_mem he)
    have hlive : ∀ released : List (UInt64 × P), (∀ e ∈ released, e ∈ w.allocator.cached) →
        (∀ p ∈ Dict.keys w.obtained, p ∉ released.map Prod.snd → p ≠ fresh) →
        fresh ∉ Dict.keys w.live := by
      intro released hsub hnew hmem
      refine hnew fresh ((h.obtained fresh).mpr (.inl hmem)) (fun hrel => ?_) rfl
      obtain ⟨e, he, rfl⟩ := mem_map.mp hrel
      exact hcached e (hsub e he) hmem
    have hout := w.allocator.allocated_allocate hb fresh
    simp only [LiveSafe]
    generalize w.allocator.allocate bytes fresh = out at hout hfresh ⊢
    cases hout with
    | reused ptr hptr => exact ⟨(h.knows.take hptr).2.1, by simp⟩
    | obtained => exact ⟨hlive [] (by simp) hfresh, by simp⟩
    | flushed => exact ⟨hlive _ (fun _ he => he) hfresh, hcached⟩
    | refused => exact hcached
    | relocked => trivial

/-- The invariant holds after every operation. -/
theorem Inv.next (h : w.Inv) (hen : w.Enabled op) : (w.next pageSize op).Inv := by
  have hsafe := h.liveSafe hen
  cases op with
  | free ptr =>
    obtain ⟨a', ha', hknows, hcached⟩ := h.knows.free hen.2
    simp only [World.next, ha']
    refine ⟨hknows, fun p => ?_⟩
    rw [h.obtained, hcached, Dict.mem_keys_erase]
    by_cases hp : p = ptr
    · simp [hp, show ptr ∈ Dict.keys w.live from hen.2]
    · simp [hp]
  | allocate bytes fresh =>
    obtain ⟨-, hb, hfresh⟩ := hen
    have hout := w.allocator.allocated_allocate hb fresh
    simp only [LiveSafe] at hsafe
    simp only [World.next]
    generalize w.allocator.allocate bytes fresh = out at hout hfresh hsafe ⊢
    cases hout with
    | reused ptr hptr =>
      obtain ⟨hknows, hlive, hcached, hsplit⟩ := h.knows.take hptr
      refine ⟨?_, fun p => ?_⟩
      · simpa [sum] using hknows.handOut hlive hcached bytes
      · have hkept : ((w.allocator.take bytes).handOut bytes ptr).cached =
          (w.allocator.take bytes).cached := rfl
        simp only [Bool.false_eq_true, if_false, hkept, Dict.mem_keys_cons, map_nil,
          not_mem_nil, not_false_eq_true, decide_true, filter_true, h.obtained, hsplit]
        tauto
    | obtained =>
      have hnew : fresh ∉ w.allocator.cached.map Prod.snd := fun hc =>
        hfresh fresh ((h.obtained fresh).mpr (.inr hc)) (by simp) rfl
      refine ⟨?_, fun p => ?_⟩
      · simpa [sum] using h.knows.handOut hsafe.1 hnew bytes
      · have hkept : (w.allocator.handOut bytes fresh).cached = w.allocator.cached := rfl
        simp only [if_true, hkept, Dict.mem_keys_cons, map_nil, not_mem_nil,
          not_false_eq_true, decide_true, filter_true, h.obtained]
        tauto
    | flushed =>
      have hnil : (w.allocator.flushed.handOut bytes fresh).cached = [] := rfl
      refine ⟨h.knows.flushed.handOut hsafe.1 (by simp [Allocator.cached, Allocator.flushed]) bytes,
        fun p => ?_⟩
      have hdisj : p ∈ Dict.keys w.live → p ∉ w.allocator.cached.map Prod.snd := h.knows.not_cached
      simp only [if_true, hnil, Dict.mem_keys_cons, mem_keys_filter, h.obtained, map_nil,
        not_mem_nil, or_false]
      tauto
    | refused => exact ⟨h.knows, h.obtained⟩
    | relocked => exact ⟨h.knows, h.obtained⟩

section Runs

variable (pageSize) (maxBytes : UInt64) (type : MemoryType) (ops : List (Op P))
  (hops : Run.Along (next pageSize) Enabled (init maxBytes type) ops)

include hops

/-- No block that a caller holds is handed out again or released. -/
theorem live_safe : Run.Along (next pageSize) LiveSafe (init maxBytes type) ops :=
  hops.of_inv (fun _ _ hw hen => hw.next hen) (fun _ _ hw hen => hw.liveSafe hen)
    (inv_init maxBytes type)

/-- `allocated_bytes_` counts only what was released, downwards from zero, and `used_bytes_` counts
it a second time. -/
theorem counters_eq : Run.Always (next pageSize) (fun w =>
    w.allocator.allocatedBytes = 0 - w.releasedBytes ∧
      w.allocator.usedBytes = sum (w.live.map Prod.snd) - w.releasedBytes)
    (init maxBytes type) ops :=
  (hops.always (fun _ _ hw hen => hw.next hen) (inv_init maxBytes type)).mono fun _ h =>
    ⟨h.knows.allocated, h.knows.used⟩

end Runs

/-- The second request releases the first block. -/
theorem counters_released : Run.Always (next 4096) (fun w : World Nat =>
    w.allocator.allocatedBytes = 0 - w.releasedBytes ∧
      w.allocator.usedBytes = sum (w.live.map Prod.snd) - w.releasedBytes)
    (init 10 .cuda) [.allocate 6 0, .free 0, .allocate 12 1] :=
  counters_eq 4096 10 .cuda _ (by decide)

/-! ## The budget -/

/-- The first request is refused where it is over the budget, and obtains a block otherwise. -/
theorem allocate_init (maxBytes : UInt64) (type : MemoryType) {bytes : UInt64} (hb : bytes ≠ 0)
    (fresh : P) :
    (init maxBytes type : World P).allocator.allocate bytes fresh =
      if maxBytes < bytes then .refused []
      else .returned fresh [] true ((init maxBytes type : World P).allocator.handOut bytes fresh) := by
  have hzero : 0 + bytes = bytes := UInt64.zero_add bytes
  have hnil : (init maxBytes type : World P).allocator.cached = [] := rfl
  have hflush : (init maxBytes type : World P).allocator.freeCached =
      some (init maxBytes type : World P).allocator := by
    rw [Allocator.freeCached, hnil]
    rfl
  rw [Allocator.allocate]
  simp only [init, lookup_nil, Option.bind_none, if_neg hb]
  simp only [init] at hflush hnil
  rw [Allocator.allocateAndCache]
  simp only [hzero, hflush, hnil]
  split
  · rfl
  · rfl

/-- A request over the budget ends the first run that makes one. -/
theorem along_init {maxBytes : UInt64} {type : MemoryType} {ops : List (Op P)}
    (hops : Run.Along (next pageSize) Enabled (init maxBytes type) (op :: ops)) :
    ∃ bytes fresh, op = .allocate bytes fresh ∧ bytes ≠ 0 ∧ (maxBytes < bytes → ops = []) := by
  obtain ⟨hop, hrest⟩ := hops
  cases op with
  | free ptr => exact absurd hop.2 not_mem_nil
  | allocate bytes fresh =>
    refine ⟨bytes, fresh, rfl, hop.2.1, fun hover => ?_⟩
    cases ops with
    | nil => rfl
    | cons op' ops =>
      have hhalted : ((init maxBytes type : World P).next pageSize (.allocate bytes fresh)).halted =
          true := by
        simp only [next, allocate_init maxBytes type hop.2.1 fresh, if_pos hover]
      have hrun := hrest.1.halted
      rw [hhalted] at hrun
      cases hrun

theorem le_systemBytes (hpage : 0 < pageSize) (type : MemoryType) (bytes : UInt64) :
    bytes.toNat ≤ systemBytes pageSize type bytes := by
  cases type with
  | pinShm =>
    have hceil := Nat.lt_mul_div_succ (bytes.toNat + pageSize - 1) hpage
    simp only [systemBytes]
    rw [Nat.mul_comm]
    rw [Nat.mul_add, Nat.mul_one] at hceil
    omega
  | shm => exact Nat.le_refl _
  | pin => exact Nat.le_refl _
  | cuda => exact Nat.le_refl _

/-- The budget and the counters are kept exactly where nothing is ever obtained: every request of the
run is over the budget, so that the first one ends it. -/
theorem budget_iff (pageSize : Nat) (hpage : 0 < pageSize) (maxBytes : UInt64) (type : MemoryType)
    (ops : List (Op P)) (hops : Run.Along (next pageSize) Enabled (init maxBytes type) ops) :
    (Run.Always (next pageSize) Budget (init maxBytes type) ops ∧
        Run.Along (next pageSize) LiveSafe (init maxBytes type) ops ∧
        Run.Along (next pageSize) LocksOnce (init maxBytes type) ops) ↔
      ∀ bytes fresh, .allocate bytes fresh ∈ ops → maxBytes < bytes := by
  have hinit : (init maxBytes type : World P).Budget := ⟨Nat.zero_le _, rfl, rfl⟩
  cases ops with
  | nil => simpa [Run.Along, Run.always_nil] using hinit
  | cons op ops =>
    obtain ⟨bytes, fresh, rfl, hb, hrest⟩ := along_init hops
    have hsafe := live_safe pageSize maxBytes type _ hops
    have hfirst := allocate_init maxBytes type hb fresh
    by_cases hover : maxBytes < bytes
    · obtain rfl := hrest hover
      rw [if_pos hover] at hfirst
      have hnext : (init maxBytes type : World P).next pageSize (.allocate bytes fresh) =
          { (init maxBytes type : World P) with halted := true } := by
        simp only [next, hfirst]
      refine iff_of_true ⟨?_, hsafe, ?_⟩ (by simpa using hover)
      · rw [Run.always_cons, Run.always_nil, hnext]
        exact ⟨hinit, hinit.within, hinit.allocated, hinit.used⟩
      · simp [Run.Along, LocksOnce, hfirst]
    · -- the block is obtained, and `allocated_bytes_` is still zero
      rw [if_neg hover] at hfirst
      refine iff_of_false (fun h => ?_) (fun h => hover (h bytes fresh mem_cons_self))
      have hbudget := (h.1 [.allocate bytes fresh] (by simp)).allocated
      have hpos := le_systemBytes hpage type bytes
      have hnz : bytes.toNat ≠ 0 := fun h0 => hb (UInt64.toNat_inj.mp h0)
      simp only [Run.exec_cons, Run.exec_nil, next, hfirst, if_true, map_cons, sum_cons]
        at hbudget
      have hzero : ((init maxBytes type : World P).allocator.handOut bytes fresh).allocatedBytes.toNat
        = 0 := rfl
      have htype : (init maxBytes type : World P).allocator.type = type := rfl
      rw [hzero, htype] at hbudget
      omega

/-- One request over the budget. -/
theorem overBudget_kept :
    Run.Always (next 4096) Budget (init 10 .cuda : World Nat) [.allocate 12 0] ∧
      Run.Along (next 4096) LiveSafe (init 10 .cuda : World Nat) [.allocate 12 0] ∧
      Run.Along (next 4096) LocksOnce (init 10 .cuda : World Nat) [.allocate 12 0] :=
  (budget_iff 4096 (by decide) 10 .cuda [.allocate 12 0] (by decide)).mpr (by simp)

/-- With a budget of ten bytes: two blocks of six bytes are obtained, and `allocated_bytes_` is zero;
a block of six bytes that was freed makes a request for twelve succeed, since the release wraps
`allocated_bytes_`, and with `PIN_SHM` makes it lock `mutex_` a second time. -/
theorem twoBlocks_not_kept :
    (let ops : List (Op Nat) := [.allocate 6 0, .allocate 6 1];
      Run.Along (next 4096) Enabled (init 10 .cuda) ops ∧
        ((Run.exec (next 4096) (init 10 .cuda) ops).obtained.map Prod.snd).sum = 12 ∧
        (Run.exec (next 4096) (init 10 .cuda) ops).allocator.allocatedBytes = 0) ∧
    (let ops : List (Op Nat) := [.allocate 6 0, .free 0, .allocate 12 1];
      Run.Along (next 4096) Enabled (init 10 .cuda) ops ∧
        ((Run.exec (next 4096) (init 10 .cuda) ops).obtained.map Prod.snd).sum = 12 ∧
        (Run.exec (next 4096) (init 10 .cuda) ops).allocator.usedBytes = 6) ∧
    (let ops : List (Op Nat) := [.allocate 6 0, .free 0, .allocate 12 1];
      Run.Along (next 4096) Enabled (init 10 .pinShm) ops ∧
        ¬ Run.Along (next 4096) LocksOnce (init 10 .pinShm) ops) := by
  refine ⟨by decide, by decide, by decide, fun h => ?_⟩
  exact h.2.2.1 rfl

end World

end Morphling.Memory
