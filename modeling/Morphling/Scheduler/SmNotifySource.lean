import Mathlib.Algebra.Ring.Nat
import Mathlib.Data.List.Forall2
import Morphling.Lib.Run

/-!
# The SM target in shared memory (`scheduler/sm_notify_source.cpp`)

A producer publishes the number of SMs that a worker may use in a slot of a shared segment, under a
seqlock. `Read` takes the target from the slot it is attached to. The two run in different
processes; a step is one load or one store.

* `Producer`, `Reader`: where the producer and `Read` are between two steps.
* `published` and `results` are not in the source: the targets of the completed publishes, and what
  the calls of `Read` returned with how many publishes were completed at the call and at the return.
* `read_latest`: a target that `Read` returns was the latest one at some instant of the call, and
  later calls return later targets.

The other fields of the slot are not read by `Read`.
-/

namespace Morphling.Scheduler

open List

/-- `SmTargetSource::kNoChange`. -/
def kNoChange : Int := -1

/-- `SmNotifySlot`. -/
structure SmNotifySlot where
  seq : UInt32 := 0
  targetSms : Int
  deriving DecidableEq

/-- Where the producer is in a publish of a target. -/
inductive Producer where
  | idle
  /-- `seq` is odd. -/
  | begun (target : Int)
  /-- The target is stored, `seq` is still odd. -/
  | stored (target : Int)
  deriving DecidableEq

/-- Where `Read` is. -/
inductive Reader where
  | idle
  /-- At the head of the loop. -/
  | loop (attempt : Nat)
  /-- It has loaded an even `seq`. -/
  | loaded (attempt : Nat) (s1 : UInt32)
  /-- It has loaded the target. -/
  | sampled (attempt : Nat) (s1 : UInt32) (target : Int)
  deriving DecidableEq

/-- A call of `Read` that returned. -/
structure ReadResult where
  value : Int
  /-- Completed publishes at the call. -/
  since : Nat
  /-- Completed publishes at the return. -/
  upto : Nat
  deriving DecidableEq

/-- The slot, the producer and the worker that reads. -/
structure Channel where
  slot : SmNotifySlot
  producer : Producer := .idle
  reader : Reader := .idle
  /-- Completed publishes at the call of `Read`. -/
  since : Nat := 0
  published : List Int := []
  results : List ReadResult := []
  deriving DecidableEq

inductive ChannelEvent where
  /-- The producer makes `seq` odd. -/
  | publish (target : Int)
  /-- The producer's next store. -/
  | produce
  /-- The worker calls `Read`. -/
  | read
  /-- The next load of `Read`. -/
  | load
  deriving DecidableEq

namespace Channel

variable (s : Channel)

/-- `Read` returns. -/
def ret (value : Int) : Channel :=
  { s with
    reader := .idle
    results := s.results ++ [⟨value, s.since, s.published.length⟩] }

/-- `continue`: the next turn of the loop, if there is one. -/
def retry (attempt : Nat) : Channel :=
  if attempt + 1 < 64 then { s with reader := .loop (attempt + 1) } else s.ret kNoChange

/-- The next load of `Read`. -/
def load : Channel :=
  match s.reader with
  | .idle => s
  | .loop attempt =>
    if s.slot.seq.toNat % 2 = 1 then s.retry attempt
    else { s with reader := .loaded attempt s.slot.seq }
  | .loaded attempt s1 => { s with reader := .sampled attempt s1 s.slot.targetSms }
  | .sampled attempt s1 target => if s1 = s.slot.seq then s.ret target else s.retry attempt

/-- The next store of the producer. -/
def produce : Channel :=
  match s.producer with
  | .idle => s
  | .begun target =>
    { s with producer := .stored target, slot := { s.slot with targetSms := target } }
  | .stored target =>
    { s with
      producer := .idle
      slot := { s.slot with seq := s.slot.seq + 1 }
      published := s.published ++ [target] }

/-- A step. An event that cannot happen changes nothing. -/
def next : ChannelEvent → Channel
  | .publish target =>
    match s.producer with
    | .idle => { s with producer := .begun target, slot := { s.slot with seq := s.slot.seq + 1 } }
    | _ => s
  | .produce => s.produce
  | .read =>
    match s.reader with
    | .idle => { s with reader := .loop 0, since := s.published.length }
    | _ => s
  | .load => s.load

/-- Fewer than `2 ^ 31` publishes are completed during one call of `Read`. -/
def Enabled : ChannelEvent → Prop
  | .produce => s.reader = .idle ∨ s.published.length + 1 < s.since + 2 ^ 31
  | _ => True

/-- The target of the latest publish, when `i` publishes are completed; `first` if there is none. -/
def targetAt (first : Option Int) : Nat → Option Int
  | 0 => first
  | i + 1 => s.published[i]?

/-- What `Read` returned, if not `kNoChange`, was the latest target when `i` publishes were
completed, at an instant of the call. -/
def ExplainedBy (first : Option Int) (r : ReadResult) (i : Nat) : Prop :=
  r.since ≤ i ∧ i ≤ r.upto ∧ (r.value ≠ kNoChange → s.targetAt first i = some r.value)

/-- Every call of `Read` has such an instant, and these are in the order of the calls. -/
def Explained (first : Option Int) : Prop := ∃ instants : List Nat,
  List.Forall₂ (s.ExplainedBy first) s.results instants ∧ instants.Pairwise (· ≤ ·)

/-! ## The invariant -/

variable {s}

/-- Whether a publish is in progress. -/
def busy (s : Channel) : Nat := if s.producer = .idle then 0 else 1

/-- The target is that of the first `c` publishes, unless a later one was stored. -/
def Samples (s : Channel) (first : Int) (c : Nat) (target : Int) : Prop :=
  c < s.published.length ∨ (∃ t, s.producer = .stored t) ∨
    s.targetAt (some first) c = some target

/-- What `Read` knows: `c` publishes were completed when it loaded `seq`. -/
def Knows (s : Channel) (first : Int) : Reader → Prop
  | .idle | .loop _ => True
  | .loaded _ s1 => ∃ c, s.since ≤ c ∧ c ≤ s.published.length ∧ s1.toNat = 2 * c % 2 ^ 32
  | .sampled _ s1 target => ∃ c, s.since ≤ c ∧ c ≤ s.published.length ∧
    s1.toNat = 2 * c % 2 ^ 32 ∧ s.Samples first c target

structure Inv (first : Int) (s : Channel) : Prop where
  seq : s.slot.seq.toNat = (2 * s.published.length + s.busy) % 2 ^ 32
  target : (∀ t, s.producer ≠ .stored t) →
    s.targetAt (some first) s.published.length = some s.slot.targetSms
  stored : ∀ t, s.producer = .stored t → s.slot.targetSms = t
  since_le : s.since ≤ s.published.length
  /-- The bound on the publishes during a call. -/
  bound : s.reader ≠ .idle → s.published.length < s.since + 2 ^ 31
  knows : s.Knows first s.reader
  explained : ∃ instants : List Nat,
    List.Forall₂ (s.ExplainedBy (some first)) s.results instants ∧ instants.Pairwise (· ≤ ·) ∧
    ∀ i ∈ instants, i ≤ s.published.length ∧ (s.reader ≠ .idle → i ≤ s.since)

variable {first value target : Int} {c i : Nat} {r : Reader}

theorem Inv.start (first : Int) : Inv first ⟨⟨0, first⟩, .idle, .idle, 0, [], []⟩ where
  seq := rfl
  target _ := rfl
  stored _ h := by cases h
  since_le := Nat.le_refl 0
  bound h := absurd rfl h
  knows := trivial
  explained := ⟨[], .nil, .nil, by simp⟩

/-! ## The producer -/

theorem targetAt_append (hi : i ≤ s.published.length) :
    targetAt { s with published := s.published ++ [target] } (some first) i =
      s.targetAt (some first) i := by
  cases i with
  | zero => rfl
  | succ i => exact getElem?_append_left hi

theorem targetAt_self (first target : Int) :
    targetAt { s with published := s.published ++ [target] } (some first)
      (s.published.length + 1) = some target := by
  simp [targetAt]

/-- A store of the producer. -/
theorem Knows.produce {s' : Channel} (h : s.Knows first r) (hsince : s'.since = s.since)
    (hlen : s.published.length ≤ s'.published.length)
    (hsamples : ∀ c target, c ≤ s.published.length → s.Samples first c target →
      s'.Samples first c target) : s'.Knows first r := by
  cases r with
  | idle => trivial
  | loop attempt => trivial
  | loaded attempt s1 =>
    obtain ⟨c, hc, hle, hs1⟩ := h
    exact ⟨c, hsince ▸ hc, Nat.le_trans hle hlen, hs1⟩
  | sampled attempt s1 target =>
    obtain ⟨c, hc, hle, hs1, htarget⟩ := h
    exact ⟨c, hsince ▸ hc, Nat.le_trans hle hlen, hs1, hsamples c target hle htarget⟩

theorem Inv.publish (h : Inv first s) (target : Int) : Inv first (s.next (.publish target)) := by
  simp only [next]
  split
  · rename_i hidle
    have hseq := h.seq
    refine ⟨?_, fun _ => h.target (by simp [hidle]), by simp, h.since_le, h.bound,
      h.knows.produce rfl (Nat.le_refl _) ?_, h.explained⟩
    · simp only [busy, hidle, if_true, reduceCtorEq, if_false] at hseq ⊢
      rw [UInt32.toNat_add, hseq]
      simp
    · rintro c target' - (hlater | ⟨t, hstored⟩ | htarget)
      · exact .inl hlater
      · cases hidle.symm.trans hstored
      · exact .inr (.inr htarget)
  · exact h

/-- The target is stored while `seq` is odd. -/
theorem Inv.store (h : Inv first s) (hp : s.producer = .begun target) :
    Inv first { s with
      producer := .stored target
      slot := { s.slot with targetSms := target } } := by
  refine ⟨?_, fun hne => absurd rfl (hne target), by simp, h.since_le, h.bound,
    h.knows.produce rfl (Nat.le_refl _) fun _ _ _ _ => .inr (.inl ⟨target, rfl⟩), h.explained⟩
  simpa [busy, hp] using h.seq

theorem forall₂_imp_mem {α β : Type*} {P Q : α → β → Prop} {as : List α} {bs : List β}
    (h : List.Forall₂ P as bs) (himp : ∀ a, ∀ b ∈ bs, P a b → Q a b) : List.Forall₂ Q as bs := by
  induction h with
  | nil => exact .nil
  | cons hab _ ih =>
    exact .cons (himp _ _ mem_cons_self hab)
      (ih fun a b hb => himp a b (mem_cons_of_mem _ hb))

section Step
variable (h : Inv first s)
include h

/-- The publish is completed. -/
theorem Inv.complete (hp : s.producer = .stored target)
    (hbound : s.reader = .idle ∨ s.published.length + 1 < s.since + 2 ^ 31) :
    Inv first { s with
      producer := .idle
      slot := { s.slot with seq := s.slot.seq + 1 }
      published := s.published ++ [target] } := by
  have hseq := h.seq
  have hlen : (s.published ++ [target]).length = s.published.length + 1 := by simp
  refine ⟨?_, fun _ => ?_, by simp, ?_, fun hr => ?_, h.knows.produce rfl ?_ ?_, ?_⟩
  · simp only [busy, hp, reduceCtorEq, if_true, if_false, hlen] at hseq ⊢
    rw [UInt32.toNat_add, hseq, UInt32.toNat_one]
    omega
  · rw [hlen, h.stored target hp]
    exact targetAt_self first target
  · exact hlen ▸ Nat.le_succ_of_le h.since_le
  · exact hlen ▸ hbound.resolve_left hr
  · exact hlen ▸ Nat.le_succ _
  · exact fun c _ hc _ => .inl (hlen ▸ Nat.lt_succ_of_le hc)
  · obtain ⟨instants, hby, hsorted, hle⟩ := h.explained
    refine ⟨instants, ?_, hsorted, fun i hi => ⟨?_, (hle i hi).2⟩⟩
    · exact forall₂_imp_mem hby fun r i hi hr =>
        ⟨hr.1, hr.2.1, fun hv => (targetAt_append (hle i hi).1).trans (hr.2.2 hv)⟩
    · exact hlen ▸ Nat.le_succ_of_le (hle i hi).1

/-! ## The reader -/

/-- `Read` returns the latest target of an instant of the call, or `kNoChange`. -/
theorem Inv.ret (hr : s.reader ≠ .idle) (hsince : s.since ≤ c) (hc : c ≤ s.published.length)
    (hv : value ≠ kNoChange → s.targetAt (some first) c = some value) :
    Inv first (s.ret value) := by
  refine ⟨h.seq, h.target, h.stored, h.since_le, fun hne => absurd rfl hne, trivial, ?_⟩
  obtain ⟨instants, hby, hsorted, hle⟩ := h.explained
  refine ⟨instants ++ [c], rel_append hby (.cons ⟨hsince, hc, hv⟩ .nil), ?_, fun i hi => ?_⟩
  · refine pairwise_append.mpr ⟨hsorted, pairwise_singleton _ _, fun i hi j hj => ?_⟩
    rw [mem_singleton.mp hj]
    exact Nat.le_trans ((hle i hi).2 hr) hsince
  · refine ⟨?_, fun hne => absurd rfl hne⟩
    rcases mem_append.mp hi with hi | hi
    · exact (hle i hi).1
    · exact mem_singleton.mp hi ▸ hc

theorem Inv.retry (hr : s.reader ≠ .idle) (attempt : Nat) : Inv first (s.retry attempt) := by
  unfold Channel.retry
  split
  · obtain ⟨instants, hby, hsorted, hle⟩ := h.explained
    exact ⟨h.seq, h.target, h.stored, h.since_le, fun _ => h.bound hr, trivial, instants, hby,
      hsorted, fun i hi => ⟨(hle i hi).1, fun _ => (hle i hi).2 hr⟩⟩
  · exact h.ret hr (Nat.le_refl _) h.since_le fun hv => absurd rfl hv

/-- Where `seq` is what it was `c` publishes ago, nothing was published since: a publish adds two,
and there are fewer than `2 ^ 31` of them. -/
theorem Inv.seq_eq (hr : s.reader ≠ .idle) {s1 : UInt32} (hsince : s.since ≤ c)
    (hc : c ≤ s.published.length) (hs1 : s1.toNat = 2 * c % 2 ^ 32) (heq : s1 = s.slot.seq) :
    s.published.length = c ∧ s.producer = .idle := by
  have hseq := h.seq
  have hbound := h.bound hr
  rw [← heq, hs1] at hseq
  by_cases hidle : s.producer = .idle
  · simp only [busy, hidle, if_true] at hseq
    exact ⟨by omega, hidle⟩
  · simp only [busy, hidle, if_false] at hseq
    omega

/-- A load that leaves `Read` in the loop. -/
theorem Inv.reads (hr : s.reader ≠ .idle) (hknows : s.Knows first r) :
    Inv first { s with reader := r } := by
  obtain ⟨instants, hby, hsorted, hle⟩ := h.explained
  refine ⟨h.seq, h.target, h.stored, h.since_le, fun _ => h.bound hr, ?_, instants, hby, hsorted,
    fun i hi => ⟨(hle i hi).1, fun _ => (hle i hi).2 hr⟩⟩
  cases r <;> exact hknows

theorem Inv.load : Inv first s.load := by
  have hknows := h.knows
  unfold Channel.load
  split
  case h_1 => exact h
  all_goals rename_i hreader; rw [hreader] at hknows
  all_goals have hr : s.reader ≠ .idle := by simp [hreader]
  case h_2 attempt =>
    split
    · exact h.retry hr attempt
    · rename_i heven
      refine h.reads hr ⟨s.published.length, h.since_le, Nat.le_refl _, ?_⟩
      have hseq := h.seq
      by_cases hidle : s.producer = .idle
      · simpa [busy, hidle] using hseq
      · simp only [busy, hidle, if_false] at hseq
        omega
  case h_3 attempt s1 =>
    obtain ⟨c, hsince, hc, hs1⟩ := hknows
    refine h.reads hr ⟨c, hsince, hc, hs1, ?_⟩
    by_cases hstored : ∃ t, s.producer = .stored t
    · exact .inr (.inl hstored)
    · have htarget := h.target (not_exists.mp hstored)
      rcases Nat.lt_or_eq_of_le hc with hlt | rfl
      · exact .inl hlt
      · exact .inr (.inr htarget)
  case h_4 attempt s1 target =>
    obtain ⟨c, hsince, hc, hs1, hsamples⟩ := hknows
    split
    · rename_i heq
      obtain ⟨hlen, hidle⟩ := h.seq_eq hr hsince hc hs1 heq
      refine h.ret hr hsince hc fun _ => ?_
      rcases hsamples with hlater | ⟨t, hstored⟩ | htarget
      · omega
      · cases hidle.symm.trans hstored
      · exact htarget
    · exact h.retry hr attempt

theorem Inv.read : Inv first (s.next .read) := by
  simp only [next]
  split
  · obtain ⟨instants, hby, hsorted, hle⟩ := h.explained
    exact ⟨h.seq, h.target, h.stored, Nat.le_refl _, fun _ => by simp, trivial, instants, hby,
      hsorted, fun i hi => ⟨(hle i hi).1, fun _ => (hle i hi).1⟩⟩
  · exact h

theorem Inv.step {e : ChannelEvent} (hen : s.Enabled e) : Inv first (s.next e) := by
  cases e with
  | publish target => exact h.publish target
  | produce =>
    simp only [next, Channel.produce]
    split
    · exact h
    · exact h.store ‹_›
    · exact h.complete ‹_› hen
  | read => exact h.read
  | load => exact h.load

end Step

/-- An attached slot that holds the target `first`, before its first publish. -/
def attached (first : Int) : Channel := { slot := { targetSms := first } }

/-- Every target that `Read` returns was the latest one at an instant of the call, the initial
target of the slot being the first; the instants are in the order of the calls. -/
theorem read_latest (first : Int) (es : List ChannelEvent)
    (hen : Run.Along next Enabled (attached first) es) :
    Run.Always next (fun s => s.Explained (some first)) (attached first) es := by
  refine Run.Always.mono (fun s h => ?_) (hen.always (fun s e h hen => h.step hen) (Inv.start first))
  obtain ⟨instants, hby, hsorted, -⟩ := h.explained
  exact ⟨instants, hby, hsorted⟩

instance Enabled.decidable (s : Channel) : ∀ e, Decidable (s.Enabled e)
  | .produce => inferInstanceAs (Decidable (_ ∨ _))
  | .publish _ | .read | .load => .isTrue trivial

/-- A call of `Read` while the second publish is stored but not completed, and one after it. -/
def twoReads : List ChannelEvent :=
  [.publish 24, .produce, .produce, .read, .load, .publish 32, .produce, .load, .produce, .load,
    .load, .load, .load, .read, .load, .load, .load]

theorem twoReads_latest :
    (Run.exec next (attached 42) twoReads).results = [⟨32, 1, 2⟩, ⟨32, 2, 2⟩] ∧
      (Run.exec next (attached 42) twoReads).Explained (some 42) :=
  ⟨by decide +kernel, (read_latest 42 twoReads (by decide +kernel)).last⟩

/-- A call of `Read` before the first publish returns the target the slot was made with. -/
theorem unpublished_not_explained :
    Run.Along next Enabled (attached 42) [.read, .load, .load, .load] ∧
      ¬(Run.exec next (attached 42) [.read, .load, .load, .load]).Explained none := by
  refine ⟨by decide +kernel, ?_⟩
  have hresults : (Run.exec next (attached 42) [.read, .load, .load, .load]).results =
      [⟨42, 0, 0⟩] := by decide +kernel
  rintro ⟨instants, hby, -⟩
  rw [hresults] at hby
  obtain ⟨i, -, ⟨-, hi, hvalue⟩, -⟩ := List.forall₂_cons_left_iff.mp hby
  obtain rfl := Nat.le_zero.mp hi
  cases hvalue (by decide)

end Channel
end Morphling.Scheduler
