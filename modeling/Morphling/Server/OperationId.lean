import Mathlib.Data.List.Nodup
import Mathlib.Data.List.Range
import Morphling.Lib.Run

/-!
# Reserving operation ids (`operation_id.h`)

`ReserveOperationId` loads the counter, and tries to exchange what it loaded for the next number until
that works, or the counter is at its limit. A weak exchange can fail although the counter has the
expected value. Any number of threads call it, and their loads and exchanges interleave; the rest of a
call is local to its thread.

* `next`: one step of one thread. The result of a call is that of its last step.
* `Inv`: the ids that were given out are those below the counter, in this order.
* `reserves_exec`: what holds after every interleaving (`Reserves`).
-/

namespace Morphling

open List Function

/-- `kMaxLifetimeOperationCount`. -/
def kMaxLifetimeOperationCount : Nat := 65536

namespace OperationId

/-- The counter, the variable `oid` of the threads that are in a call, and the results of the calls
that are complete. -/
structure State (T : Type*) where
  nextOid : Int
  oid : T → Option Int
  results : List Int

inductive Op (T : Type*) where
  /-- The load that a call begins with. -/
  | load (t : T)
  /-- The test of the loop, and `compare_exchange_weak` where it succeeds. -/
  | exchange (t : T) (spurious : Bool)

def init (T : Type*) : State T := ⟨0, fun _ => none, []⟩

variable {T : Type*}

/-- `ReserveOperationId`, one step of a thread. -/
def next [DecidableEq T] (s : State T) : Op T → State T
  | .load t =>
    match s.oid t with
    | none => { s with oid := update s.oid t (some s.nextOid) }
    | some _ => s
  | .exchange t spurious =>
    match s.oid t with
    | none => s
    | some oid =>
      if 0 ≤ oid ∧ oid < kMaxLifetimeOperationCount then
        if s.nextOid = oid ∧ spurious = false then
          ⟨oid + 1, update s.oid t none, s.results ++ [oid]⟩
        else
          -- the exchange that fails loads the counter
          { s with oid := update s.oid t (some s.nextOid) }
      else { s with oid := update s.oid t none, results := s.results ++ [-1] }

/-- The results that are ids. -/
def State.ids (s : State T) : List Int := s.results.filter (0 ≤ ·)

/-- `n` ids were given out. A thread has loaded a value that the counter had. -/
structure Inv (n : Nat) (s : State T) : Prop where
  nextOid : s.nextOid = n
  le : n ≤ kMaxLifetimeOperationCount
  ids : s.ids = (List.range n).map Nat.cast
  rejected : ∀ r ∈ s.results, r < 0 → r = -1 ∧ n = kMaxLifetimeOperationCount
  loaded : ∀ t oid, s.oid t = some oid → 0 ≤ oid ∧ oid ≤ n

/-- What the callers rely on. -/
structure Reserves (s : State T) : Prop where
  distinct : s.ids.Nodup
  initial : ∃ n ≤ kMaxLifetimeOperationCount, ∀ oid : Int, oid ∈ s.ids ↔ 0 ≤ oid ∧ oid < n
  all : kMaxLifetimeOperationCount ≤ s.results.length → s.ids.length = kMaxLifetimeOperationCount
  rejected : ∀ before after, s.results = before ++ after →
    (before.filter (0 ≤ ·)).length = kMaxLifetimeOperationCount → ∀ r ∈ after, r = -1
  counter : 0 ≤ s.nextOid ∧ s.nextOid ≤ kMaxLifetimeOperationCount

variable {s : State T} {n : Nat}

theorem Inv.length_ids (h : Inv n s) : s.ids.length = n := by
  rw [h.ids, length_map, length_range]

/-- Once as many calls are complete as there are ids, all ids were given out. -/
theorem Inv.eq_of_le_length (h : Inv n s) (hlen : kMaxLifetimeOperationCount ≤ s.results.length) :
    n = kMaxLifetimeOperationCount := by
  by_cases hneg : ∃ r ∈ s.results, r < 0
  · obtain ⟨r, hr, hlt⟩ := hneg
    exact (h.rejected r hr hlt).2
  · have hids : s.ids = s.results := filter_eq_self.mpr fun r hr =>
      decide_eq_true (Int.not_lt.mp fun hlt => hneg ⟨r, hr, hlt⟩)
    have := h.length_ids
    have := h.le
    rw [hids] at *
    omega

/-- A call that completes when all ids were given out returns -1. -/
theorem Inv.rejected_after (h : Inv n s) {before after : List Int}
    (hsplit : s.results = before ++ after)
    (hall : (before.filter (0 ≤ ·)).length = kMaxLifetimeOperationCount) {r : Int} (hr : r ∈ after) :
    r = -1 := by
  have hids : s.ids = before.filter (0 ≤ ·) ++ after.filter (0 ≤ ·) := by
    rw [State.ids, hsplit, filter_append]
  have hlen := h.length_ids
  have := h.le
  rw [hids, length_append] at hlen
  have hnone : after.filter (0 ≤ ·) = [] := length_eq_zero_iff.mp (by omega)
  have hneg : ¬ (0 ≤ r) := by simpa using filter_eq_nil_iff.mp hnone r hr
  exact (h.rejected r (hsplit ▸ mem_append_right _ hr) (by omega)).1

variable [DecidableEq T]

/-- A thread loads the counter, or ends its call. -/
theorem Inv.loaded_update (h : Inv n s) (t : T) {o : Option Int}
    (ho : ∀ oid, o = some oid → 0 ≤ oid ∧ oid ≤ n) :
    ∀ t' oid, update s.oid t o t' = some oid → 0 ≤ oid ∧ oid ≤ n := by
  intro t' oid hoid
  by_cases ht : t' = t
  · subst ht
    rw [update_self] at hoid
    exact ho oid hoid
  · rw [update_of_ne ht] at hoid
    exact h.loaded t' oid hoid

theorem Inv.load (h : Inv n s) (t : T) :
    Inv n { s with oid := update s.oid t (some s.nextOid) } := by
  refine { h with loaded := h.loaded_update t ?_ }
  rintro _ ⟨⟩
  have := h.nextOid
  omega

/-- The exchange succeeds. -/
theorem Inv.reserve (h : Inv n s) (t : T) (hlt : s.nextOid < kMaxLifetimeOperationCount) :
    Inv (n + 1) ⟨s.nextOid + 1, update s.oid t none, s.results ++ [s.nextOid]⟩ := by
  rw [h.nextOid] at hlt ⊢
  refine ⟨by simp, by omega, ?_, ?_, ?_⟩
  · rw [range_succ, map_append, ← h.ids]
    simp [State.ids]
  · intro r hr hneg
    rcases mem_append.mp hr with hr | hr
    · have := (h.rejected r hr hneg).2
      omega
    · rw [mem_singleton.mp hr] at hneg
      omega
  · intro t' oid hoid
    have := h.loaded_update t (fun _ ho => by cases ho) t' oid hoid
    omega

/-- The counter is at its limit. -/
theorem Inv.reject (h : Inv n s) (t : T) (hfull : n = kMaxLifetimeOperationCount) :
    Inv n { s with oid := update s.oid t none, results := s.results ++ [-1] } := by
  refine { h with ids := ?_, rejected := ?_, loaded := h.loaded_update t fun _ ho => by cases ho }
  · rw [← h.ids]
    simp [State.ids]
  · intro r hr hneg
    rcases mem_append.mp hr with hr | hr
    · exact h.rejected r hr hneg
    · exact ⟨mem_singleton.mp hr, hfull⟩

theorem Inv.next (h : Inv n s) (op : Op T) : ∃ n', Inv n' (next s op) := by
  cases op with
  | load t =>
    rw [OperationId.next]
    split
    · exact ⟨n, h.load t⟩
    · exact ⟨n, h⟩
  | exchange t spurious =>
    rw [OperationId.next]
    split
    · exact ⟨n, h⟩
    · rename_i oid hoid
      have hloaded := h.loaded t oid hoid
      split
      · rename_i hin
        split
        · rename_i heq
          obtain ⟨rfl, -⟩ := heq
          exact ⟨n + 1, h.reserve t hin.2⟩
        · exact ⟨n, h.load t⟩
      · have := h.le
        exact ⟨n, h.reject t (by omega)⟩

theorem exists_inv_exec (ops : List (Op T)) : ∃ n, Inv n (Run.exec next (init T) ops) := by
  have hinit : ∃ n, Inv n (init T) :=
    ⟨0, rfl, Nat.zero_le _, rfl, by simp [init], by simp [init]⟩
  have hstep : ∀ (s : State T) (op : Op T), (∃ n, Inv n s) → True → ∃ n, Inv n (next s op) :=
    fun s op hs _ => hs.elim fun n h => h.next op
  exact Run.inv_exec hstep (fun _ _ => trivial) hinit

/-- Whatever the threads do, in whatever order. -/
theorem reserves_exec (ops : List (Op T)) : Reserves (Run.exec next (init T) ops) := by
  obtain ⟨n, h⟩ := exists_inv_exec ops
  refine
    { distinct := ?_
      initial := ⟨n, h.le, fun oid => ?_⟩
      all := fun hlen => h.length_ids.trans (h.eq_of_le_length hlen)
      rejected := fun before after hsplit hall r hr => h.rejected_after hsplit hall hr
      counter := ?_ }
  · rw [h.ids]
    exact nodup_range.map fun _ _ h => Int.ofNat_inj.mp h
  · rw [h.ids, mem_map]
    constructor
    · rintro ⟨i, hi, rfl⟩
      rw [mem_range] at hi
      omega
    · rintro ⟨hnonneg, hlt⟩
      exact ⟨oid.toNat, mem_range.mpr (by omega), Int.toNat_of_nonneg hnonneg⟩
  · have := h.le
    rw [h.nextOid]
    omega

/-- Two threads load the same value. The exchange of the second one fails, once more by itself, and
then gives the next id. -/
example : (Run.exec next (init (Fin 2)) [.load 0, .load 1, .exchange 0 false, .exchange 1 false,
    .exchange 1 true, .exchange 1 false]).results = [0, 1] := by
  decide

end OperationId
end Morphling
