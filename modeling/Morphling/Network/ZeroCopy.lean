import Mathlib.Data.List.Nodup
import Morphling.Lib.Run

/-!
# Zero-copy sends (`proxy_cli.cpp`, `proxy_svr.cpp`, `connection_libevent.cpp`)

`ResponseToCaller` and `SendInLoop` hand the segments of a scatter-gather buffer to the connection
without a copy. What the segments point into is kept by a context with a reference count: each
segment has a reference of its own on the heap, which its cleanup deletes.

* `SendDataZeroCopy` queues a segment, and its cleanup runs once at any later time, in any order; or
  it fails, and there is no cleanup. Both callers ignore the result.
* `inv_exec`: the count of the context is the number of references that are left, and what the
  context holds is released when the count becomes 0.
* `released_iff`: so it is released never too early, at most once, and at all exactly if no send
  failed.

The scatter-gather buffer and the partition are shared pointers; released means here that the
reference of the context is dropped. The other references, of the function and of its closure, are
local and end with it.
-/

namespace Morphling.ZeroCopy

open List

/-- What is kept for the segments. -/
inductive Resource where
  | cudaPtr
  | hostPtr
  | sgBuffer
  | partition
  deriving DecidableEq, Repr

/-- The two callers; the pointers of a response may be null. -/
inductive Caller where
  | responseToCaller (cudaPtr hostPtr : Bool)
  | sendInLoop
  deriving DecidableEq, Repr

namespace Caller

/-- The result buffers that `ResponseToCaller` was given. -/
def deferred : Caller → List Resource
  | .responseToCaller cudaPtr hostPtr =>
    (if cudaPtr then [.cudaPtr] else []) ++ if hostPtr then [.hostPtr] else []
  | .sendInLoop => []

/-- `ResponseSendContext`, `ZeroCopySendContext`. -/
def context : Caller → List Resource
  | .responseToCaller cudaPtr hostPtr => .sgBuffer :: deferred (.responseToCaller cudaPtr hostPtr)
  | .sendInLoop => [.sgBuffer, .partition]

theorem nodup_context : ∀ caller : Caller, caller.context.Nodup
  | .responseToCaller cudaPtr hostPtr => by cases cudaPtr <;> cases hostPtr <;> decide
  | .sendInLoop => by decide

theorem nodup_deferred : ∀ caller : Caller, caller.deferred.Nodup
  | .responseToCaller cudaPtr hostPtr => by cases cudaPtr <;> cases hostPtr <;> decide
  | .sendInLoop => by decide

end Caller

/-- A call, with the context it made. -/
structure Send where
  /-- What is to be released. -/
  resources : List Resource
  /-- Segments that are not sent yet. -/
  segments : Nat
  /-- The function has not returned: its own reference is there. -/
  running : Bool
  /-- `use_count` of the context. -/
  useCount : Nat
  /-- Segments whose cleanup is still to come. -/
  queued : List Nat := []
  /-- Sends that returned -1. -/
  failed : Nat := 0
  released : List Resource := []
  deriving DecidableEq

namespace Send

/-- The start of a call. On a closed connection `ResponseToCaller` frees the result buffers by hand,
and `SendInLoop` does nothing. -/
def call (caller : Caller) (isClosed : Bool) (segments : Nat) : Send :=
  if isClosed then
    { resources := caller.deferred, segments := 0, running := false, useCount := 0
      released := caller.deferred }
  else { resources := caller.context, segments, running := true, useCount := 1 }

/-- A reference to the context goes; the last one takes the context with it. -/
def dropRef (s : Send) : Send :=
  if s.useCount = 1 then { s with useCount := 0, released := s.released ++ s.resources }
  else { s with useCount := s.useCount - 1 }

inductive Event where
  /-- The next segment, with a new reference; whether it was queued. -/
  | sendDataZeroCopy (ok : Bool)
  /-- The function returns. -/
  | finish
  /-- The cleanup of the queued segment at place `i`, after it was drained or at the end of the
  connection. -/
  | cleanup (i : Nat)
  deriving DecidableEq

def next (s : Send) : Event → Send
  | .sendDataZeroCopy ok =>
    if s.running ∧ s.segments ≠ 0 then
      let s' := { s with segments := s.segments - 1, useCount := s.useCount + 1 }
      if ok then { s' with queued := s'.queued ++ [s.segments] }
      else { s' with failed := s'.failed + 1 }
    else s
  | .finish => if s.running ∧ s.segments = 0 then { s.dropRef with running := false } else s
  | .cleanup i =>
    if i < s.queued.length then { s.dropRef with queued := s.queued.eraseIdx i } else s

/-- The function has returned, and every cleanup that was to come has run. -/
def Done (s : Send) : Prop := s.running = false ∧ s.queued = []

instance (s : Send) : Decidable s.Done := inferInstanceAs (Decidable (_ ∧ _))

/-- References are those of the function, of the queued segments and of the failed ones. -/
structure Inv (s : Send) : Prop where
  useCount : s.useCount = s.running.toNat + s.queued.length + s.failed
  released : s.released = if s.useCount = 0 then s.resources else []
  nodup : s.resources.Nodup
  /-- A context has something to release. -/
  ne_nil : 0 < s.useCount ∨ 0 < s.failed → s.resources ≠ []

variable {s : Send}

theorem inv_call (caller : Caller) (isClosed : Bool) (segments : Nat) :
    Inv (call caller isClosed segments) := by
  cases isClosed with
  | true => exact ⟨rfl, rfl, caller.nodup_deferred, by simp [call]⟩
  | false =>
    refine ⟨rfl, rfl, caller.nodup_context, fun _ => ?_⟩
    cases caller <;> exact cons_ne_nil _ _

/-- A drop of one of the references that are there. -/
theorem inv_dropRef (h : Inv s) (running : Bool) (queued : List Nat)
    (hcount : running.toNat + queued.length + 1 = s.running.toNat + s.queued.length) :
    Inv { s.dropRef with running, queued } := by
  have huse := h.useCount
  have hpos : 0 < s.useCount := by omega
  have hreleased : s.released = [] := by rw [h.released, if_neg (by omega)]
  unfold dropRef
  split
  · refine ⟨?_, by simp [hreleased], h.nodup, fun _ => h.ne_nil (.inl hpos)⟩
    dsimp only
    omega
  · refine ⟨?_, ?_, h.nodup, fun _ => h.ne_nil (.inl hpos)⟩
    · dsimp only
      omega
    · rw [if_neg (by dsimp only; omega)]
      exact hreleased

theorem inv_next (h : Inv s) (e : Event) : Inv (s.next e) := by
  cases e with
  | sendDataZeroCopy ok =>
    rw [next]
    split
    · rename_i hrun
      have huse := h.useCount
      rw [hrun.1, Bool.toNat_true] at huse
      have hreleased : s.released = [] := by rw [h.released, if_neg (by omega)]
      have hne := h.ne_nil (.inl (by omega))
      cases ok with
      | true =>
        refine ⟨?_, ?_, h.nodup, fun _ => hne⟩
        · simp [hrun.1]
          omega
        · simp [hreleased]
      | false =>
        refine ⟨?_, ?_, h.nodup, fun _ => hne⟩
        · simp [hrun.1]
          omega
        · simp [hreleased]
    · exact h
  | finish =>
    rw [next]
    split
    · rename_i hrun
      have hqueued : s.dropRef.queued = s.queued := by
        unfold dropRef
        split <;> rfl
      have hinv := inv_dropRef h false s.queued (by simp [hrun.1]; omega)
      rwa [← hqueued] at hinv
    · exact h
  | cleanup i =>
    rw [next]
    split
    · rename_i hi
      have hrunning : s.dropRef.running = s.running := by
        unfold dropRef
        split <;> rfl
      have hlen := length_eraseIdx_of_lt hi
      have hinv := inv_dropRef h s.running (s.queued.eraseIdx i) (by rw [hlen]; omega)
      rwa [← hrunning] at hinv
    · exact h

theorem inv_exec (caller : Caller) (isClosed : Bool) (segments : Nat) (events : List Event) :
    Inv (Run.exec next (call caller isClosed segments) events) :=
  (Run.Along.always (P := fun _ _ => True) (I := Inv) (fun _ e h _ => inv_next h e)
    (Run.Along.of_forall fun _ _ => trivial) (inv_call caller isClosed segments)).last

/-- **What a call keeps is released exactly once if no send failed, and never if one did**; and not
before the function has returned and the cleanups of all queued segments have run. -/
theorem released_iff (caller : Caller) (isClosed : Bool) (segments : Nat) (events : List Event) :
    let s := Run.exec next (call caller isClosed segments) events
    (s.released ≠ [] → s.Done) ∧ (∀ r, s.released.count r ≤ 1) ∧
      (s.Done → ((∀ r ∈ s.resources, s.released.count r = 1) ↔ s.failed = 0)) := by
  intro s
  have h : Inv s := inv_exec caller isClosed segments events
  have huse := h.useCount
  refine ⟨fun hne => ?_, fun r => ?_, fun hdone => ?_⟩
  · have hzero : s.useCount = 0 := by
      by_contra hpos
      exact hne (by rw [h.released, if_neg hpos])
    refine ⟨?_, length_eq_zero_iff.mp (by omega)⟩
    cases hrun : s.running with
    | false => rfl
    | true =>
      rw [hrun, Bool.toNat_true] at huse
      omega
  · rw [h.released]
    split
    · exact nodup_iff_count_le_one.mp h.nodup r
    · simp
  · rw [hdone.1, hdone.2, Bool.toNat_false, length_nil, Nat.zero_add] at huse
    rw [h.released, huse]
    constructor
    · intro hcount
      by_contra hfailed
      obtain ⟨r, hr⟩ := exists_mem_of_ne_nil _ (h.ne_nil (.inr (by omega)))
      have := hcount r hr
      rw [if_neg hfailed] at this
      simp at this
    · intro hzero r hr
      rw [if_pos hzero]
      exact count_eq_one_of_mem h.nodup hr

theorem released_twoSegments :
    (Run.exec next (call (.responseToCaller true false) false 2)
      [.sendDataZeroCopy true, .sendDataZeroCopy true, .finish, .cleanup 1,
        .cleanup 0]).released.count .cudaPtr = 1 :=
  ((released_iff _ _ _ _).2.2 (by decide)).mpr (by decide) _ (by decide)

/-- The connection closes after the first of three segments was queued: the context of the response
is never released, although the only cleanup has run. -/
theorem closed_not_released :
    let s := Run.exec next (call (.responseToCaller true false) false 3)
      [.sendDataZeroCopy true, .sendDataZeroCopy false, .sendDataZeroCopy false, .finish, .cleanup 0]
    s.Done ∧ s.useCount = 2 ∧ s.released = [] := by
  decide

end Send
end Morphling.ZeroCopy
