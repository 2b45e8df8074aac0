import Morphling.Lib.Run
import Mathlib.Algebra.Order.BigOperators.Group.Finset
import Mathlib.Data.Finset.Max

/-!
# Processes that sum their tensors

A group of processes that work in rounds. In a round a process runs a program: it launches all-reduces
of its tensors, and waits for them, the oldest one first. The `k`-th all-reduce that a process launches
belongs to the `k`-th one of every other process. It can complete, at each process for itself and in
any order, once every process has launched it, and it then puts the sum into the tensor in place.

* `Matched`: in every round all processes launch the same slots, in the same order, and what they
  compute from the sums is the same.
* `Inv.next`: what a process has done, from the slots that are finished, that it waits for, and that it
  has not launched. It does not depend on how far the others are.
* `Matched.state_eq`: in every run, each process has the state that its round has.
* `Matched.finished_of_rounds`: no process waits for ever.
-/

namespace Morphling.AllReduce

open List Function

/-- Start the all-reduce of a slot, or wait for the oldest one that is pending. -/
inductive Action (ι : Type*) where
  | launch (s : ι)
  | finish

/-- A process: the program of a round and the tensors it starts with, and the state after it. -/
structure Task (σ ι T : Type*) where
  program : σ → List (Action ι)
  tensors : σ → ι → Option T
  next : σ → (ι → Option T) → σ

structure Proc (σ ι T : Type*) where
  state : σ
  step : Nat
  todo : List (Action ι)
  tensors : ι → Option T
  /-- The all-reduces that were launched, each with what the process gives to it. -/
  calls : List (ι × T)
  /-- Those that it did not wait for yet, with their numbers. -/
  pending : List (ι × Nat)
  completed : List Nat

/-- A process goes on, or an all-reduce completes at a process. -/
inductive Op (R : Type*) where
  | advance (r : R)
  | complete (r : R) (k : Nat)

/-- The slots that a program launches. -/
def launches {ι : Type*} : List (Action ι) → List ι
  | [] => []
  | .launch s :: todo => s :: launches todo
  | .finish :: todo => launches todo

/-- A program that finds `n` all-reduces pending waits for all of them and for its own. -/
def WellPaired {ι : Type*} : Nat → List (Action ι) → Prop
  | n, [] => n = 0
  | n, .launch _ :: todo => WellPaired (n + 1) todo
  | 0, .finish :: _ => False
  | n + 1, .finish :: todo => WellPaired n todo

section Programs

variable {ι : Type*}

@[simp] theorem launches_append (todo todo' : List (Action ι)) :
    launches (todo ++ todo') = launches todo ++ launches todo' := by
  induction todo with
  | nil => rfl
  | cons a todo ih => cases a <;> simp [launches, ih]

@[simp] theorem launches_map_launch {α : Type*} (f : α → ι) (xs : List α) :
    launches (xs.map fun x => .launch (f x)) = xs.map f := by
  induction xs with
  | nil => rfl
  | cons x xs ih => simp [launches, ih]

@[simp] theorem launches_replicate_finish (n : Nat) :
    launches (List.replicate n (.finish : Action ι)) = [] := by
  induction n with
  | zero => rfl
  | succ n ih => exact ih

theorem wellPaired_map_launch_append {α : Type*} (f : α → ι) (xs : List α) (n : Nat)
    (todo : List (Action ι)) :
    WellPaired n ((xs.map fun x => .launch (f x)) ++ todo) ↔ WellPaired (n + xs.length) todo := by
  induction xs generalizing n with
  | nil => rfl
  | cons x xs ih =>
    rw [length_cons, ← Nat.add_assoc, Nat.add_right_comm]
    exact ih (n + 1)

theorem wellPaired_map_finish_append {α : Type*} (xs : List α) (n : Nat) (todo : List (Action ι)) :
    WellPaired (n + xs.length) ((xs.map fun _ => .finish) ++ todo) ↔ WellPaired n todo := by
  induction xs with
  | nil => rfl
  | cons x xs ih => exact ih

end Programs

section Model

variable {σ ι T R : Type*}

/-- The processes, what is done to a sum that was waited for, and the number of rounds. -/
structure Group (R σ ι T : Type*) where
  task : R → Task σ ι T
  after : T → T
  total : Nat

/-- A round starts; after the last one there is nothing to do. -/
def Group.start (g : Group R σ ι T) (r : R) (step : Nat) (state : σ) (calls : List (ι × T))
    (completed : List Nat) : Proc σ ι T where
  state
  step
  todo := if step < g.total then (g.task r).program state else []
  tensors := (g.task r).tensors state
  calls
  pending := []
  completed

variable [DecidableEq ι] [AddCommMonoid T]

/-- The next action of a process. -/
def Group.advance (g : Group R σ ι T) (r : R) (p : Proc σ ι T) : Proc σ ι T :=
  match p.todo with
  | .launch s :: todo =>
    { p with
      todo
      calls := p.calls ++ [(s, (p.tensors s).getD 0)]
      pending := p.pending ++ [(s, p.calls.length)] }
  | .finish :: todo =>
    match p.pending with
    | [] => { p with todo }
    | (s, k) :: pending =>
      if k ∈ p.completed then
        { p with
          todo
          pending
          tensors := update p.tensors s ((p.tensors s).map g.after) }
      else p
  | [] =>
    if p.step < g.total then
      g.start r (p.step + 1) ((g.task r).next p.state p.tensors) p.calls p.completed
    else p

/-- The all-reduce `k` writes the sum. -/
def Proc.complete (p : Proc σ ι T) (k : Nat) (sum : T) : Proc σ ι T :=
  match p.calls[k]? with
  | none => p
  | some (s, _) =>
    { p with
      tensors := update p.tensors s (some sum)
      completed := k :: p.completed }

/-- What a process gives to the all-reduce `k`. -/
def Proc.given (p : Proc σ ι T) (k : Nat) : T := (p.calls[k]?.map Prod.snd).getD 0

variable [Fintype R]

/-- The all-reduce `k` can complete at `r`. -/
def Ready (w : R → Proc σ ι T) (r : R) (k : Nat) : Prop :=
  k ∉ (w r).completed ∧ ∀ r', k < (w r').calls.length

instance (w : R → Proc σ ι T) (r : R) (k : Nat) : Decidable (Ready w r k) :=
  inferInstanceAs (Decidable (_ ∧ _))

def Group.next [DecidableEq R] (g : Group R σ ι T) (w : R → Proc σ ι T) : Op R → R → Proc σ ι T
  | .advance r => update w r (g.advance r (w r))
  | .complete r k =>
    if Ready w r k then update w r ((w r).complete k (∑ r', (w r').given k)) else w

/-- The processes after some steps, where all start in `state`. -/
def Group.run [DecidableEq R] (g : Group R σ ι T) (state : σ) (ops : List (Op R)) :
    R → Proc σ ι T :=
  Run.exec g.next (fun r => g.start r 0 state [] []) ops

end Model

/-! ## Rounds that match -/

section Matched

variable {σ ι T R : Type*} {t : Nat}

/-- What a group should do: the state before round `t` is `ideal t`, and all launch `slots t`. -/
structure Plan (σ ι : Type*) where
  ideal : Nat → σ
  slots : Nat → List ι

namespace Plan

variable (plan : Plan σ ι)

/-- All all-reduces of the first `t` rounds. -/
def rounds (t : Nat) : List (Nat × ι) :=
  (List.range t).flatMap fun i => (plan.slots i).map (i, ·)

theorem rounds_succ (t : Nat) :
    plan.rounds (t + 1) = plan.rounds t ++ (plan.slots t).map (t, ·) := by
  rw [rounds, range_succ, flatMap_append, flatMap_singleton, ← rounds]

theorem rounds_prefix {t' : Nat} (h : t ≤ t') : plan.rounds t <+: plan.rounds t' := by
  induction t', h using Nat.le_induction with
  | base => exact prefix_rfl
  | succ t' _ ih => exact ih.trans (plan.rounds_succ t' ▸ prefix_append _ _)

end Plan

variable [AddCommMonoid T]

/-- What `r` gives to the all-reduce of `s` in round `t`. -/
def Group.given (g : Group R σ ι T) (plan : Plan σ ι) (r : R) (t : Nat) (s : ι) : T :=
  ((g.task r).tensors (plan.ideal t) s).getD 0

/-- What `r` gives to an all-reduce, with its slot. -/
def Group.call (g : Group R σ ι T) (plan : Plan σ ι) (r : R) (e : Nat × ι) : ι × T :=
  (e.2, g.given plan r e.1 e.2)

variable [Fintype R]

/-- The sum of a slot in round `t`. -/
def Group.sum (g : Group R σ ι T) (plan : Plan σ ι) (t : Nat) (s : ι) : T :=
  ∑ r, g.given plan r t s

/-- All processes follow the plan. -/
structure Matched [DecidableEq ι] (g : Group R σ ι T) (plan : Plan σ ι) : Prop where
  launches : ∀ t < g.total, ∀ r, launches ((g.task r).program (plan.ideal t)) = plan.slots t
  paired : ∀ t < g.total, ∀ r, WellPaired 0 ((g.task r).program (plan.ideal t))
  nodup : ∀ t, (plan.slots t).Nodup
  stop : plan.slots g.total = []
  isSome : ∀ t < g.total, ∀ r s, ((g.task r).tensors (plan.ideal t) s).isSome ↔ s ∈ plan.slots t
  next : ∀ t < g.total, ∀ r, (g.task r).next (plan.ideal t)
    (fun s => if s ∈ plan.slots t then some (g.after (g.sum plan t s)) else none) =
      plan.ideal (t + 1)

/-- Where a process is: in its round the slots `finished` have their results, and it waits for the slots
`waiting`. -/
structure At (g : Group R σ ι T) (plan : Plan σ ι) (r : R) (p : Proc σ ι T)
    (finished waiting : List ι) : Prop where
  le : p.step ≤ g.total
  state : p.state = plan.ideal p.step
  split : plan.slots p.step = finished ++ waiting ++ launches p.todo
  paired : WellPaired waiting.length p.todo
  pending : p.pending = waiting.zipIdx ((plan.rounds p.step).length + finished.length)
  calls : p.calls =
    (plan.rounds p.step ++ (finished ++ waiting).map (p.step, ·)).map (g.call plan r)
  completed : ∀ k < (plan.rounds p.step).length + finished.length, k ∈ p.completed
  completed_lt : ∀ k ∈ p.completed, k < p.calls.length
  completed_nodup : p.completed.Nodup
  tensors_finished : ∀ s ∈ finished, p.tensors s = some (g.after (g.sum plan p.step s))
  tensors_pending : ∀ s k, (s, k) ∈ p.pending → p.tensors s =
    some (if k ∈ p.completed then g.sum plan p.step s else g.given plan r p.step s)
  tensors_todo : ∀ s ∈ launches p.todo, p.tensors s = some (g.given plan r p.step s)
  tensors_none : p.step < g.total → ∀ s ∉ plan.slots p.step, p.tensors s = none

variable {g : Group R σ ι T} {plan : Plan σ ι} {r : R} {p : Proc σ ι T} {finished waiting : List ι}
  {k : Nat} {e : Nat × ι}

namespace At

section Place

variable (h : At g plan r p finished waiting)
include h

theorem length_calls :
    p.calls.length = (plan.rounds p.step).length + finished.length + waiting.length := by
  simp only [h.calls, length_map, length_append]
  omega

theorem mem_pending {s : ι} :
    (s, k) ∈ p.pending ↔ (plan.rounds p.step).length + finished.length ≤ k ∧
      waiting[k - ((plan.rounds p.step).length + finished.length)]? = some s := by
  rw [h.pending, mem_zipIdx_iff_le_and_getElem?_sub]

/-- An all-reduce that was launched and did not complete is pending. -/
theorem pending_of_not_completed (hk : k < p.calls.length) (hcompleted : k ∉ p.completed) :
    ∃ s, (s, k) ∈ p.pending ∧
      (plan.rounds p.step ++ (finished ++ waiting).map (p.step, ·))[k]? = some (p.step, s) := by
  have hle : (plan.rounds p.step).length + finished.length ≤ k :=
    Nat.le_of_not_lt fun hlt => hcompleted (h.completed k hlt)
  have hlen := h.length_calls
  obtain ⟨i, rfl⟩ := Nat.exists_eq_add_of_le hle
  have hi : i < waiting.length := by omega
  refine ⟨waiting[i], h.mem_pending.mpr ⟨hle, by simp [hi]⟩, ?_⟩
  rw [map_append, ← append_assoc, getElem?_append_right (by simp)]
  simp [hi]

variable [DecidableEq ι] (hm : Matched g plan)
include hm

/-- A process has launched a first part of all all-reduces. -/
theorem launched_prefix :
    plan.rounds p.step ++ (finished ++ waiting).map (p.step, ·) <+: plan.rounds g.total := by
  rcases h.le.lt_or_eq with hlt | heq
  · refine List.IsPrefix.trans ?_ (plan.rounds_prefix hlt)
    rw [plan.rounds_succ, h.split]
    simp only [map_append, ← append_assoc]
    exact prefix_append _ _
  · have hnil := h.split
    rw [heq, hm.stop] at hnil
    have hempty : finished ++ waiting = [] := (append_eq_nil_iff.mp hnil.symm).1
    rw [hempty, heq, map_nil, append_nil]

theorem length_calls_le :
    p.calls.length ≤ (plan.rounds g.total).length := by
  rw [h.calls, length_map]
  exact (h.launched_prefix hm).length_le

theorem getElem?_rounds (hk : k < p.calls.length) :
    (plan.rounds g.total)[k]? =
      (plan.rounds p.step ++ (finished ++ waiting).map (p.step, ·))[k]? := by
  obtain ⟨rest, hrest⟩ := h.launched_prefix hm
  rw [h.calls, length_map] at hk
  rw [← hrest, getElem?_append_left hk]

/-- What a process gave to an all-reduce. -/
theorem getElem?_calls (hk : k < p.calls.length) (he : (plan.rounds g.total)[k]? = some e) :
    p.calls[k]? = some (g.call plan r e) := by
  rw [h.getElem?_rounds hm hk] at he
  rw [h.calls, getElem?_map, he, Option.map_some]

end Place

variable [DecidableEq ι] {todo : List (Action ι)}

/-- A round starts. -/
theorem start (hm : Matched g plan) (ht : t ≤ g.total) {calls : List (ι × T)} {completed : List Nat}
    (hcalls : calls = (plan.rounds t).map (g.call plan r))
    (hall : ∀ k < (plan.rounds t).length, k ∈ completed) (hlt : ∀ k ∈ completed, k < calls.length)
    (hnodup : completed.Nodup) :
    At g plan r (g.start r t (plan.ideal t) calls completed) [] [] := by
  have hsplit : plan.slots t = launches (if t < g.total then (g.task r).program (plan.ideal t) else []) := by
    split
    · exact (hm.launches t ‹_› r).symm
    · rw [Nat.le_antisymm ht (not_lt.mp ‹_›), hm.stop, launches]
  have htensors : t < g.total → ∀ s ∈ plan.slots t,
      (g.task r).tensors (plan.ideal t) s = some (g.given plan r t s) := by
    intro hround s hs
    obtain ⟨v, hv⟩ := Option.isSome_iff_exists.mp ((hm.isSome t hround r s).mpr hs)
    rw [Group.given, hv, Option.getD_some]
  have htotal : ∀ s ∈ plan.slots t, t < g.total := fun s hs => ht.lt_of_ne fun heq => by
    rw [heq, hm.stop] at hs
    cases hs
  refine
    { le := ht
      state := rfl
      split := hsplit
      paired := ?_
      pending := rfl
      calls := by simpa [Group.start] using hcalls
      completed := hall
      completed_lt := hlt
      completed_nodup := hnodup
      tensors_finished := by simp
      tensors_pending := by simp [Group.start]
      tensors_todo := fun s hs => ?_
      tensors_none := fun hround s hs => ?_ }
  · simp only [Group.start, length_nil]
    split
    · exact hm.paired t ‹_› r
    · rfl
  · have hmem : s ∈ plan.slots t := hsplit ▸ hs
    exact htensors (htotal s hmem) s hmem
  · exact Option.not_isSome_iff_eq_none.mp fun hsome => hs ((hm.isSome t hround r s).mp hsome)

/-- A launch gives what the process has computed. -/
theorem launch (h : At g plan r p finished waiting) {s : ι} (htodo : p.todo = .launch s :: todo) :
    At g plan r (g.advance r p) finished (waiting ++ [s]) := by
  have hadvance : g.advance r p =
      { p with
        todo
        calls := p.calls ++ [(s, (p.tensors s).getD 0)]
        pending := p.pending ++ [(s, p.calls.length)] } := by
    simp only [Group.advance, htodo]
  have hs : p.tensors s = some (g.given plan r p.step s) :=
    h.tensors_todo s (by rw [htodo]; exact mem_cons_self)
  have hsplit := h.split
  have hpaired := h.paired
  rw [htodo] at hsplit hpaired
  rw [hadvance]
  refine
    { h with
      split := by simpa [launches] using hsplit
      paired := by simpa [WellPaired] using hpaired
      pending := ?_
      calls := ?_
      completed_lt := fun k hk => ?_
      tensors_pending := fun s' k hk => ?_
      tensors_todo := fun s' hs' => h.tensors_todo s' ?_ }
  · rw [zipIdx_append, ← h.pending, h.length_calls]
    rfl
  · simp [h.calls, hs, Group.call]
  · rw [length_append]
    exact Nat.lt_add_right _ (h.completed_lt k hk)
  · rcases mem_append.mp hk with hk | hk
    · exact h.tensors_pending s' k hk
    · obtain ⟨rfl, rfl⟩ := Prod.mk.inj (mem_singleton.mp hk)
      rw [if_neg fun hmem => absurd (h.completed_lt _ hmem) (Nat.lt_irrefl _)]
      exact hs
  · rw [htodo]
    exact mem_cons_of_mem _ hs'

/-- A wait returns when the all-reduce has completed. -/
theorem finish (h : At g plan r p finished waiting) (hm : Matched g plan)
    (htodo : p.todo = .finish :: todo) :
    ∃ s k rest waiting', p.pending = (s, k) :: rest ∧ waiting = s :: waiting' ∧
      (k ∈ p.completed →
        At g plan r
          { p with todo, pending := rest,
                   tensors := update p.tensors s ((p.tensors s).map g.after) }
          (finished ++ [s]) waiting') := by
  have hpaired := h.paired
  have hsplit := h.split
  rw [htodo] at hpaired hsplit
  cases waiting with
  | nil => cases hpaired
  | cons s waiting' =>
    have hpending := h.pending
    rw [zipIdx_cons] at hpending
    refine ⟨s, _, _, waiting', hpending, rfl, fun hcompleted => ?_⟩
    have hsum : p.tensors s = some (g.sum plan p.step s) := by
      have hs := h.tensors_pending s _ (hpending ▸ mem_cons_self)
      rwa [if_pos hcompleted] at hs
    -- The slots of a round differ, so that no other tensor is written.
    have hnodup := hm.nodup p.step
    rw [hsplit, append_assoc, cons_append, nodup_middle, nodup_cons,
      mem_append, mem_append, not_or, not_or] at hnodup
    have hother : ∀ s', s' ≠ s →
        update p.tensors s ((p.tensors s).map g.after) s' = p.tensors s' :=
      fun s' hne => update_of_ne hne _ _
    refine
      { h with
        split := by simpa [launches] using hsplit
        paired := hpaired
        pending := by rw [length_append, ← Nat.add_assoc]; rfl
        calls := by simpa using h.calls
        completed := fun k hk => ?_
        tensors_finished := fun s' hs' => ?_
        tensors_pending := fun s' k hk => ?_
        tensors_todo := fun s' hs' => ?_
        tensors_none := fun hround s' hs' => ?_ }
    · rw [length_append, length_singleton, ← Nat.add_assoc] at hk
      rcases Nat.lt_succ_iff_lt_or_eq.mp hk with hlt | rfl
      · exact h.completed k hlt
      · exact hcompleted
    · rcases mem_append.mp hs' with hs' | hs'
      · exact (hother s' fun heq => hnodup.1.1 (heq ▸ hs')).trans (h.tensors_finished s' hs')
      · obtain rfl := mem_singleton.mp hs'
        exact (update_self _ _ _).trans (by rw [hsum, Option.map_some])
    · have hmem : s' ∈ waiting' := fst_mem_of_mem_zipIdx hk
      exact (hother s' fun heq => hnodup.1.2.1 (heq ▸ hmem)).trans
        (h.tensors_pending s' k (hpending ▸ mem_cons_of_mem _ hk))
    · exact (hother s' fun heq => hnodup.1.2.2 (heq ▸ hs')).trans
        (h.tensors_todo s' (by rw [htodo]; exact hs'))
    · have hne : s' ≠ s := fun heq => hs' (by rw [heq]; simp [hsplit])
      exact (hother s' hne).trans (h.tensors_none hround s' hs')

/-- A round ends with the sums. -/
theorem endRound (h : At g plan r p finished waiting)
    (hm : Matched g plan) (htodo : p.todo = []) (hround : p.step < g.total) :
    At g plan r
      (g.start r (p.step + 1) ((g.task r).next p.state p.tensors) p.calls p.completed)
      [] [] := by
  have hwaiting : waiting = [] := by
    have hpaired := h.paired
    rw [htodo] at hpaired
    exact length_eq_zero_iff.mp hpaired
  have hsplit : plan.slots p.step = finished := by simpa [htodo, hwaiting, launches] using h.split
  have htensors : p.tensors = fun s =>
      if s ∈ plan.slots p.step then some (g.after (g.sum plan p.step s)) else none := by
    funext s
    split
    · exact h.tensors_finished s (hsplit ▸ ‹_›)
    · exact h.tensors_none hround s ‹_›
  have hlen : (plan.rounds (p.step + 1)).length =
      (plan.rounds p.step).length + finished.length := by
    rw [plan.rounds_succ, length_append, length_map, hsplit]
  rw [h.state, htensors, hm.next p.step hround r]
  refine At.start hm hround ?_ (fun k hk => h.completed k (hlen ▸ hk)) h.completed_lt h.completed_nodup
  rw [h.calls, plan.rounds_succ, hsplit, hwaiting, append_nil]

/-- An all-reduce that completes writes the sum of its slot. -/
theorem complete (h : At g plan r p finished waiting) (hm : Matched g plan) {v : T}
    (hk : k < p.calls.length) (hcompleted : k ∉ p.completed)
    (hv : ∀ e, (plan.rounds g.total)[k]? = some e → v = g.sum plan e.1 e.2) :
    At g plan r (p.complete k v) finished waiting := by
  obtain ⟨s, hpending, hlaunched⟩ := h.pending_of_not_completed hk hcompleted
  have hrounds : (plan.rounds g.total)[k]? = some (p.step, s) :=
    (h.getElem?_rounds hm hk).trans hlaunched
  have hcomplete : p.complete k v =
      { p with
        tensors := update p.tensors s (some (g.sum plan p.step s))
        completed := k :: p.completed } := by
    simp only [Proc.complete, h.getElem?_calls hm hk hrounds, Group.call, hv _ hrounds]
  obtain ⟨hle, hs⟩ := h.mem_pending.mp hpending
  have hmem : s ∈ waiting := mem_of_getElem? hs
  have hnodup := hm.nodup p.step
  rw [h.split, append_assoc, List.nodup_append, List.nodup_append] at hnodup
  obtain ⟨-, ⟨hwaiting, -, htodo⟩, hfinished⟩ := hnodup
  have hother : ∀ s', s' ≠ s →
      update p.tensors s (some (g.sum plan p.step s)) s' = p.tensors s' :=
    fun s' hne => update_of_ne hne _ _
  rw [hcomplete]
  refine
    { h with
      completed := fun k' hk' => mem_cons_of_mem _ (h.completed k' hk')
      completed_lt := fun k' hk' => ?_
      completed_nodup := nodup_cons.mpr ⟨hcompleted, h.completed_nodup⟩
      tensors_finished := fun s' hs' => ?_
      tensors_pending := fun s' k' hk' => ?_
      tensors_todo := fun s' hs' => ?_
      tensors_none := fun hround s' hs' => ?_ }
  · rcases mem_cons.mp hk' with rfl | hk'
    · exact hk
    · exact h.completed_lt k' hk'
  · have hne : s' ≠ s := hfinished s' hs' s (mem_append_left _ hmem)
    exact (hother s' hne).trans (h.tensors_finished s' hs')
  · obtain ⟨hle', hs'⟩ := h.mem_pending.mp hk'
    by_cases heq : k' = k
    · subst heq
      obtain rfl := Option.some.inj (hs.symm.trans hs')
      rw [if_pos mem_cons_self]
      exact update_self _ _ _
    · -- A slot is launched once in a round.
      have hne : s' ≠ s := by
        rintro rfl
        have hlt := (List.getElem?_eq_some_iff.mp hs).1
        have hindex := (getElem?_inj hlt hwaiting).mp (hs.trans hs'.symm)
        omega
      rw [if_congr (mem_cons.trans (or_iff_right heq)) rfl rfl]
      exact (hother s' hne).trans (h.tensors_pending s' k' hk')
  · have hne : s' ≠ s := fun heq => htodo s hmem s (heq ▸ hs') rfl
    exact (hother s' hne).trans (h.tensors_todo s' hs')
  · have hne : s' ≠ s := fun heq => hs' (by rw [heq]; simp [h.split, hmem])
    exact (hother s' hne).trans (h.tensors_none hround s' hs')

end At

/-! ## Runs -/

/-- The process does not wait, and is not done. -/
def Group.CanAdvance (g : Group R σ ι T) (p : Proc σ ι T) : Prop :=
  match p.todo, p.pending with
  | [], _ => p.step < g.total
  | .launch _ :: _, _ => True
  | .finish :: _, [] => True
  | .finish :: _, (_, k) :: _ => k ∈ p.completed

/-- What a process has done: all-reduces launched, waited for and completed, and rounds. -/
def effort (p : Proc σ ι T) : Nat :=
  p.calls.length + (p.calls.length - p.pending.length) + p.completed.length + p.step

variable [DecidableEq ι]

omit [Fintype R] in
theorem advance_of_not_canAdvance (h : ¬g.CanAdvance p) :
    g.advance r p = p := by
  unfold Group.CanAdvance at h
  unfold Group.advance
  split at h <;> simp_all

namespace At

/-- The next action of a process. -/
theorem advance (h : At g plan r p finished waiting)
    (hm : Matched g plan) (hcan : g.CanAdvance p) :
    ∃ finished' waiting',
      At g plan r (g.advance r p) finished' waiting' ∧
        effort (g.advance r p) = effort p + 1 := by
  have hlen := h.length_calls
  have hpending : p.pending.length = waiting.length := by rw [h.pending, length_zipIdx]
  cases htodo : p.todo with
  | nil =>
    have hround : p.step < g.total := by simpa [Group.CanAdvance, htodo] using hcan
    have hpaired := h.paired
    rw [htodo] at hpaired
    have hadvance : g.advance r p =
        g.start r (p.step + 1) ((g.task r).next p.state p.tensors) p.calls p.completed := by
      simp only [Group.advance, htodo, if_pos hround]
    rw [hadvance]
    refine ⟨[], [], h.endRound hm htodo hround, ?_⟩
    have hzero : waiting.length = 0 := hpaired
    simp only [effort, Group.start, length_nil]
    omega
  | cons a todo =>
    cases a with
    | launch s =>
      refine ⟨finished, waiting ++ [s], h.launch htodo, ?_⟩
      simp only [effort, Group.advance, htodo, length_append, length_singleton]
      omega
    | finish =>
      obtain ⟨s, k, rest, waiting', hp, rfl, hfinish⟩ := h.finish hm htodo
      have hcompleted : k ∈ p.completed := by simpa [Group.CanAdvance, htodo, hp] using hcan
      have hadvance : g.advance r p =
          { p with todo, pending := rest,
                   tensors := update p.tensors s ((p.tensors s).map g.after) } := by
        simp only [Group.advance, htodo, hp, if_pos hcompleted]
      rw [hadvance]
      refine ⟨finished ++ [s], waiting', hfinish hcompleted, ?_⟩
      rw [length_cons] at hlen
      rw [hp, length_cons, length_cons] at hpending
      simp only [effort, hp, length_cons]
      omega

theorem effort_le (h : At g plan r p finished waiting)
    (hm : Matched g plan) :
    effort p ≤ 3 * (plan.rounds g.total).length + g.total := by
  have hcalls := h.length_calls_le hm
  have hcompleted : p.completed.length ≤ p.calls.length := by
    have hsub : p.completed ⊆ List.range p.calls.length := fun k hk =>
      mem_range.mpr (h.completed_lt k hk)
    simpa using (subperm_of_subset h.completed_nodup hsub).length_le
  have hle := h.le
  simp only [effort]
  omega

/-- A process that waits has launched what it waits for. -/
theorem blocked (h : At g plan r p finished waiting)
    (hm : Matched g plan) (hround : p.step < g.total)
    (hcan : ¬g.CanAdvance p) : ∃ k < p.calls.length, k ∉ p.completed := by
  have hlen := h.length_calls
  cases htodo : p.todo with
  | nil => exact absurd hround (by simpa [Group.CanAdvance, htodo] using hcan)
  | cons a todo =>
    cases a with
    | launch s => simp [Group.CanAdvance, htodo] at hcan
    | finish =>
      obtain ⟨s, k, rest, waiting', hp, rfl, -⟩ := h.finish hm htodo
      have hk := h.mem_pending.mp (hp ▸ mem_cons_self)
      have hlt := (List.getElem?_eq_some_iff.mp hk.2).1
      rw [length_cons] at hlt hlen
      exact ⟨k, by omega, by simpa [Group.CanAdvance, htodo, hp] using hcan⟩

omit [DecidableEq ι] in
/-- A process that is done has launched everything. -/
theorem length_calls_of_done (h : At g plan r p finished waiting)
    (hdone : p.step = g.total) : (plan.rounds g.total).length ≤ p.calls.length := by
  rw [h.length_calls, hdone]
  omega

end At

variable [DecidableEq R] {w : R → Proc σ ι T} {op : Op R} {ranks : List R}

/-- Every process is somewhere in its rounds. -/
def Inv (g : Group R σ ι T) (plan : Plan σ ι) (w : R → Proc σ ι T) : Prop :=
  ∀ r, ∃ finished waiting, At g plan r (w r) finished waiting

/-- The op has an effect. -/
def Group.Helps (g : Group R σ ι T) (w : R → Proc σ ι T) : Op R → Prop
  | .advance r => g.CanAdvance (w r)
  | .complete r k => Ready w r k

theorem next_of_not_helps (h : ¬g.Helps w op) : g.next w op = w := by
  cases op with
  | advance r => rw [Group.next, advance_of_not_canAdvance h, update_eq_self]
  | complete r k => exact if_neg h

/-- No process goes back to an earlier round. -/
theorem step_le_next (op : Op R) (r : R) : (w r).step ≤ (g.next w op r).step := by
  have hupdate : ∀ (r' : R) (p : Proc σ ι T), (w r').step ≤ p.step →
      (w r).step ≤ (update w r' p r).step := by
    intro r' p hp
    by_cases hr : r = r'
    · subst hr
      rwa [update_self]
    · rw [update_of_ne hr]
  cases op with
  | advance r' =>
    refine hupdate r' _ ?_
    unfold Group.advance
    split
    · exact Nat.le_refl _
    · split
      · exact Nat.le_refl _
      · split <;> exact Nat.le_refl _
    · split
      · exact Nat.le_succ _
      · exact Nat.le_refl _
  | complete r' k =>
    by_cases hready : Ready w r' k
    · rw [Group.next, if_pos hready]
      refine hupdate r' _ ?_
      unfold Proc.complete
      split <;> exact Nat.le_refl _
    · rw [Group.next, if_neg hready]

/-- All that can happen, for the processes `ranks` and `n` all-reduces. -/
def threads (ranks : List R) (n : Nat) : List (Op R) :=
  ranks.flatMap fun r => .advance r :: (List.range n).map (.complete r)

/-- What is left to do. -/
def left (g : Group R σ ι T) (plan : Plan σ ι) (w : R → Proc σ ι T) : Nat :=
  ∑ r, (3 * (plan.rounds g.total).length + g.total - effort (w r))

section Steps

variable (h : Inv g plan w) (hm : Matched g plan)
include h hm

omit [DecidableEq R] in
/-- What an all-reduce sums. -/
theorem Inv.sum_given (hk : ∀ r, k < (w r).calls.length) (he : (plan.rounds g.total)[k]? = some e) :
    ∑ r, (w r).given k = g.sum plan e.1 e.2 := by
  refine Finset.sum_congr rfl fun r _ => ?_
  obtain ⟨finished, waiting, hr⟩ := h r
  rw [Proc.given, hr.getElem?_calls hm (hk r) he]
  rfl

/-- An op that has an effect is one step of one process. -/
theorem Inv.step (hhelps : g.Helps w op) :
    ∃ r p finished waiting, g.next w op = update w r p ∧ At g plan r p finished waiting ∧
      effort p = effort (w r) + 1 := by
  cases op with
  | advance r =>
    obtain ⟨finished, waiting, hr⟩ := h r
    obtain ⟨finished', waiting', hr', heffort⟩ := hr.advance hm hhelps
    exact ⟨r, _, finished', waiting', rfl, hr', heffort⟩
  | complete r k =>
    obtain ⟨finished, waiting, hr⟩ := h r
    have hk := hhelps.2 r
    have hr' := hr.complete hm hk hhelps.1 fun e he => h.sum_given hm hhelps.2 he
    refine ⟨r, _, finished, waiting, if_pos hhelps, hr', ?_⟩
    have hsome := getElem?_eq_getElem hk
    simp only [effort, Proc.complete, hsome, length_cons]
    omega

theorem Inv.next (op : Op R) : Inv g plan (g.next w op) := by
  by_cases hhelps : g.Helps w op
  · obtain ⟨r, p, finished, waiting, hnext, hp, -⟩ := h.step hm hhelps
    rw [hnext]
    intro r'
    by_cases hr : r' = r
    · subst hr
      rw [update_self]
      exact ⟨finished, waiting, hp⟩
    · rw [update_of_ne hr]
      exact h r'
  · rwa [next_of_not_helps hhelps]

theorem Inv.left_lt (hhelps : g.Helps w op) : left g plan (g.next w op) < left g plan w := by
  obtain ⟨r, p, finished, waiting, hnext, hp, heffort⟩ := h.step hm hhelps
  have hle := hp.effort_le hm
  rw [hnext]
  refine Finset.sum_lt_sum (fun r' _ => ?_) ⟨r, Finset.mem_univ r, ?_⟩
  · by_cases hr : r' = r
    · subst hr
      rw [update_self]
      omega
    · rw [update_of_ne hr]
  · rw [update_self]
    omega

omit [DecidableEq R] in
/-- While a process is not done, one can go on: the one that has launched least waits for an all-reduce
that all have launched. -/
theorem Inv.exists_helps (hranks : ∀ r, r ∈ ranks) (hr : (w r).step < g.total) :
    ∃ op ∈ threads ranks (plan.rounds g.total).length, g.Helps w op := by
  obtain ⟨least, -, hleast⟩ := Finset.exists_min_image Finset.univ (fun r => (w r).calls.length)
    ⟨r, Finset.mem_univ r⟩
  -- A process before its end that no other one is behind.
  obtain ⟨r₀, hround, hmin⟩ : ∃ r₀, (w r₀).step < g.total ∧
      ∀ r', (w r₀).calls.length ≤ (w r').calls.length := by
    by_cases hdone : (w least).step < g.total
    · exact ⟨least, hdone, fun r' => hleast r' (Finset.mem_univ r')⟩
    · obtain ⟨_, _, hl⟩ := h least
      obtain ⟨_, _, hr'⟩ := h r
      have hall := hl.length_calls_of_done (Nat.le_antisymm hl.le (not_lt.mp hdone))
      exact ⟨r, hr, fun r' => (hr'.length_calls_le hm).trans
        (hall.trans (hleast r' (Finset.mem_univ r')))⟩
  obtain ⟨_, _, hat⟩ := h r₀
  by_cases hcan : g.CanAdvance (w r₀)
  · exact ⟨.advance r₀, mem_flatMap.mpr ⟨r₀, hranks r₀, mem_cons_self⟩, hcan⟩
  · obtain ⟨k, hk, hcompleted⟩ := hat.blocked hm hround hcan
    have hmem := mem_range.mpr (hk.trans_le (hat.length_calls_le hm))
    exact ⟨.complete r₀ k, mem_flatMap.mpr ⟨r₀, hranks r₀,
      mem_cons_of_mem _ (mem_map_of_mem hmem)⟩, hcompleted, fun r' => hk.trans_le (hmin r')⟩

end Steps

namespace Matched

variable (hm : Matched g plan)
include hm

omit [DecidableEq R] in
theorem inv_start : Inv g plan fun r => g.start r 0 (plan.ideal 0) [] [] := fun _ =>
  ⟨[], [], At.start hm (Nat.zero_le _) rfl (by simp [Plan.rounds]) (by simp) .nil⟩

/-- In every run each process has the state of its round. -/
theorem state_eq (ops : List (Op R)) (r : R) :
    (g.run (plan.ideal 0) ops r).step ≤ g.total ∧
      (g.run (plan.ideal 0) ops r).state = plan.ideal (g.run (plan.ideal 0) ops r).step := by
  have hinv : Inv g plan (g.run (plan.ideal 0) ops) :=
    Run.inv_exec (fun _ op h (_ : True) => h.next hm op) (fun _ _ => trivial) hm.inv_start
  obtain ⟨finished, waiting, hr⟩ := hinv r
  exact ⟨hr.le, hr.state⟩

/-- The group makes progress. -/
theorem progress (hranks : ∀ r, r ∈ ranks) :
    Run.Progress g.next (Inv g plan) (fun _ => True) (fun w => ∀ r, (w r).step = g.total)
      (left g plan) (threads ranks (plan.rounds g.total).length) g.Helps where
  inv _ op h _ := h.next hm op
  stays w op h _ hdone r := by
    obtain ⟨_, _, hat⟩ := h.next hm op r
    have hle : (w r).step ≤ (g.next w op r).step := step_le_next op r
    exact Nat.le_antisymm hat.le (hdone r ▸ hle)
  step w op h _ _ := by
    by_cases hhelps : g.Helps w op
    · exact .inl (h.left_lt hm hhelps)
    · rw [next_of_not_helps hhelps]
      exact .inr ⟨rfl, fun _ _ hkeep => hkeep⟩
  exists_helps w h hdone := by
    obtain ⟨r, hr⟩ := not_forall.mp hdone
    obtain ⟨_, _, hat⟩ := h r
    exact h.exists_helps hm hranks (hat.le.lt_of_ne hr)
  down _ _ _ h _ hhelps := h.left_lt hm hhelps

/-- Where all can happen often enough, every process ends its rounds. -/
theorem finished_of_rounds (hranks : ∀ r, r ∈ ranks) {n : Nat}
    (hn : Fintype.card R * (3 * (plan.rounds g.total).length + g.total) < n) {ops : List (Op R)}
    (hops : Run.Rounds (threads ranks (plan.rounds g.total).length) n ops) (r : R) :
    (g.run (plan.ideal 0) ops r).step = g.total := by
  refine (hm.progress hranks).done_of_rounds hm.inv_start (fun _ _ => trivial) ?_ hops r
  refine lt_of_le_of_lt ?_ hn
  refine (Finset.sum_le_card_nsmul _ _ _ fun r _ => Nat.sub_le _ _).trans ?_
  simp [Finset.card_univ]

end Matched

end Matched

end Morphling.AllReduce
