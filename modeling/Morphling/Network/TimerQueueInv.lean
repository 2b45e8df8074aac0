import Mathlib.Data.List.TakeWhile
import Morphling.Network.TimerQueue

/-!
# What every step of a timer queue keeps

* `Sets`: where the timers are. `out` are those that `TimerfdReadCb` took out of the sets and has
  not put back or deleted.
* `Log`: what was started, and what the batch may still start.
* `Fd`: the timerfd.
* `timers_contract`: the contract, in every run.
-/

namespace Morphling.Network

open List

instance : IsTrans Timer Timer.Before := ⟨fun t u v htu huv => by
  simp only [Timer.Before] at *
  omega⟩

instance : Std.Total Timer.Before := ⟨fun t u => by
  simp only [Timer.Before]
  omega⟩

variable {t u : Timer}

theorem Timer.Before.le (h : t.Before u) : t.expiration ≤ u.expiration := by
  simp only [Before] at h
  omega

@[simp] theorem Timer.restart_sequence (t : Timer) (now : Int) :
    (t.restart now).sequence = t.sequence := by
  unfold restart
  split <;> rfl

@[simp] theorem Timer.restart_repeats (t : Timer) (now : Int) :
    (t.restart now).repeats = t.repeats := by
  unfold restart
  split <;> simp_all [repeats]

theorem Timer.restart_expiration (h : t.repeats = true) (now : Int) :
    now ≤ (t.restart now).expiration := by
  obtain ⟨interval, hi⟩ := Option.isSome_iff_exists.mp h
  simp only [restart, hi]
  omega

variable {l : List Timer}

/-- A timer of a list in which the sequence numbers differ. -/
theorem erase_eq_filter (hnodup : (l.map Timer.sequence).Nodup) (ht : t ∈ l) :
    l.erase t = l.filter (·.sequence ≠ t.sequence) := by
  induction l with
  | nil => cases ht
  | cons u l ih =>
    rw [map_cons, nodup_cons] at hnodup
    by_cases hut : u = t
    · subst hut
      have hall : ∀ v ∈ l, v.sequence ≠ u.sequence :=
        fun v hv heq => hnodup.1 (heq ▸ mem_map_of_mem hv)
      rw [erase_cons_head, filter_cons_of_neg (by simp),
        filter_eq_self.mpr (by simpa using hall)]
    · have ht' : t ∈ l := (mem_cons.mp ht).resolve_left (Ne.symm hut)
      have hne : u.sequence ≠ t.sequence :=
        fun heq => hnodup.1 (heq ▸ mem_map_of_mem ht')
      rw [erase_cons_tail (by simpa using hut), filter_cons_of_pos (by simpa using hne),
        ih hnodup.2 ht']

/-- What is left of such a list once its first timers are taken out. -/
theorem filter_dropWhile (hnodup : (l.map Timer.sequence).Nodup) (p : Timer → Bool) :
    l.filter (fun t => t.sequence ∉ (l.takeWhile p).map Timer.sequence) = l.dropWhile p := by
  have hsplit := takeWhile_append_dropWhile (p := p) (l := l)
  rw [← hsplit, map_append, List.nodup_append] at hnodup
  conv_lhs => rw [← hsplit, filter_append]
  rw [filter_eq_nil_iff.mpr, filter_eq_self.mpr, nil_append]
  · intro t ht
    simp only [decide_eq_true_eq, hsplit]
    exact fun hmem => hnodup.2.2 _ hmem _ (mem_map_of_mem ht) rfl
  · intro t ht
    simp only [decide_eq_true_eq, hsplit, not_not]
    exact mem_map_of_mem ht

variable {now : Int}

/-- The timers that have not expired. -/
theorem lt_of_mem_dropWhile (hsorted : l.Pairwise Timer.Before)
    (ht : t ∈ l.dropWhile (·.expiration ≤ now)) : now < t.expiration := by
  have hhead := head?_dropWhile_not (fun t : Timer => t.expiration ≤ now) l
  have hsorted := hsorted.sublist (dropWhile_sublist (fun t : Timer => t.expiration ≤ now))
  revert ht hhead hsorted
  cases l.dropWhile (·.expiration ≤ now) with
  | nil => simp
  | cons u l =>
    intro ht hhead hsorted
    simp only [head?_cons, decide_eq_false_iff_not, Int.not_le] at hhead
    rcases mem_cons.mp ht with rfl | ht
    · exact hhead
    · exact Int.lt_of_lt_of_le hhead ((pairwise_cons.mp hsorted).1 t ht).le

namespace TimerQueue

variable {s : TimerQueue} {out : List Timer} {t : Timer} {sequence : Nat}

/-! ## The sets -/

structure Sets (s : TimerQueue) (out : List Timer) : Prop where
  same : s.activeTimers.Perm (s.timers.map fun t => (t.sequence, t))
  deleted : (s.deleted ++ (out ++ s.timers).map Timer.sequence).Perm s.ids
  ids_nodup : s.ids.Nodup
  ids_lt : ∀ i ∈ s.ids, i < s.createdNum
  sorted : s.timers.Pairwise Timer.Before
  started : ∀ x ∈ s.started, x.timer.sequence ∈ s.ids
  /-- A timer in the sets that has started is periodic. -/
  pending : ∀ t ∈ s.timers, ∀ x ∈ s.started, x.timer.sequence = t.sequence →
    x.timer.repeats = true ∧ t.repeats = true
  outside : ∀ t ∈ out, ∀ x ∈ s.started, x.timer.sequence = t.sequence →
    x.timer.repeats = t.repeats
  /-- A timer that was cancelled is in no set, and will not be put back. -/
  cancelled : ∀ i ∈ s.cancelled, i ∈ s.ids ∧ i ∉ s.timers.map Timer.sequence ∧
    (i ∈ out.map Timer.sequence → i ∈ s.cancelingTimers)

namespace Sets

variable (h : s.Sets out)
include h

theorem nodup : (s.deleted ++ (out ++ s.timers).map Timer.sequence).Nodup :=
  h.deleted.nodup_iff.mpr h.ids_nodup

theorem timers_nodup : (s.timers.map Timer.sequence).Nodup := by
  have := h.nodup
  rw [map_append] at this
  exact (List.nodup_append.mp (List.nodup_append.mp this).2.1).2.1

theorem mem_ids (ht : t ∈ out ++ s.timers) : t.sequence ∈ s.ids :=
  h.deleted.mem_iff.mp (mem_append_right _ (mem_map_of_mem ht))

theorem out_ne (ht : t ∈ out) (hu : u ∈ s.timers) : t.sequence ≠ u.sequence := by
  have := h.nodup
  rw [map_append] at this
  exact (List.nodup_append.mp (List.nodup_append.mp this).2.1).2.2 _ (mem_map_of_mem ht) _
    (mem_map_of_mem hu)

theorem find_some {k : Nat} (hfind : s.activeTimers.find? (·.1 = sequence) = some (k, t)) :
    t ∈ s.timers ∧ t.sequence = sequence := by
  have hmem := h.same.mem_iff.mp (mem_of_find?_eq_some hfind)
  obtain ⟨u, hu, heq⟩ := mem_map.mp hmem
  rw [Prod.mk.injEq] at heq
  obtain ⟨hk, rfl⟩ := heq
  have hp := find?_some hfind
  simp only [decide_eq_true_eq] at hp
  exact ⟨hu, hk.trans hp⟩

theorem find_none (hfind : s.activeTimers.find? (·.1 = sequence) = none) :
    sequence ∉ s.timers.map Timer.sequence := by
  intro hmem
  obtain ⟨u, hu, rfl⟩ := mem_map.mp hmem
  have hactive := h.same.mem_iff.mpr (mem_map_of_mem (f := fun t => (t.sequence, t)) hu)
  have := find?_eq_none.mp hfind _ hactive
  simp at this

theorem out_inj (ht : t ∈ out) (hu : u ∈ out) (heq : t.sequence = u.sequence) : t = u := by
  have := h.nodup
  rw [map_append] at this
  exact inj_on_of_nodup_map (List.nodup_append.mp (List.nodup_append.mp this).2.1).1 ht hu heq

/-- A new timer, before it is put into the sets. -/
theorem create (hnew : t.sequence = s.createdNum) :
    Sets { s with createdNum := s.createdNum + 1, ids := s.createdNum :: s.ids } (t :: out) where
  same := h.same
  deleted := by
    simp only [cons_append, map_cons, hnew]
    exact perm_middle.trans (h.deleted.cons _)
  ids_nodup := nodup_cons.mpr ⟨fun hmem => Nat.lt_irrefl _ (h.ids_lt _ hmem), h.ids_nodup⟩
  ids_lt := by
    intro i hi
    rcases mem_cons.mp hi with rfl | hi
    · exact Nat.lt_succ_self _
    · exact Nat.lt_succ_of_lt (h.ids_lt i hi)
  sorted := h.sorted
  started x hx := mem_cons_of_mem _ (h.started x hx)
  pending := h.pending
  outside u hu x hx heq := by
    rcases mem_cons.mp hu with rfl | hu
    · have := h.ids_lt _ (h.started x hx)
      omega
    · exact h.outside u hu x hx heq
  cancelled i hi := by
    obtain ⟨hids, htimers, hout⟩ := h.cancelled i hi
    refine ⟨mem_cons_of_mem _ hids, htimers, fun hmem => ?_⟩
    rcases mem_cons.mp hmem with rfl | hmem
    · exact absurd (h.ids_lt _ hids) (by omega)
    · exact hout hmem

end Sets

namespace Sets

/-- A timer is put into the sets, with a new expiration or not. -/
theorem insert (h : s.Sets (t :: out)) (hseq : u.sequence = t.sequence)
    (hpending : ∀ x ∈ s.started, x.timer.sequence = u.sequence →
      x.timer.repeats = true ∧ u.repeats = true) (hcancelled : u.sequence ∉ s.cancelled) :
    (s.insert u).Sets out := by
  have hperm := perm_orderedInsert Timer.Before u s.timers
  have hmem : ∀ v, v ∈ s.timers.orderedInsert Timer.Before u ↔ v = u ∨ v ∈ s.timers :=
    fun v => mem_orderedInsert Timer.Before
  refine ⟨?_, ?_, h.ids_nodup, h.ids_lt, h.sorted.orderedInsert u _, h.started, ?_, ?_, ?_⟩
  · exact (h.same.cons _).trans (hperm.map fun t : Timer => (t.sequence, t)).symm
  · refine List.Perm.trans ?_ h.deleted
    refine List.Perm.append_left _ ?_
    simp only [cons_append, map_append, map_cons, ← hseq]
    exact ((hperm.map _).append_left _).trans perm_middle
  · intro v hv
    rcases (hmem v).mp hv with rfl | hv
    · exact hpending
    · exact h.pending v hv
  · exact fun v hv => h.outside v (mem_cons_of_mem _ hv)
  · intro i hi
    obtain ⟨hids, htimers, hout⟩ := h.cancelled i hi
    refine ⟨hids, fun hmap => ?_, fun hmem => hout (mem_cons_of_mem _ hmem)⟩
    obtain ⟨v, hv, rfl⟩ := mem_map.mp hmap
    rcases (hmem v).mp hv with rfl | hv
    · exact hcancelled hi
    · exact htimers (mem_map_of_mem hv)

theorem delete (h : s.Sets (t :: out)) :
    Sets { s with deleted := t.sequence :: s.deleted } out where
  same := h.same
  deleted := by
    refine List.Perm.trans ?_ h.deleted
    simp only [cons_append, map_cons]
    exact perm_middle.symm
  ids_nodup := h.ids_nodup
  ids_lt := h.ids_lt
  sorted := h.sorted
  started := h.started
  pending := h.pending
  outside v hv := h.outside v (mem_cons_of_mem _ hv)
  cancelled i hi := by
    obtain ⟨hids, htimers, hout⟩ := h.cancelled i hi
    exact ⟨hids, htimers, fun hmem => hout (mem_cons_of_mem _ hmem)⟩

theorem resetOne (h : s.Sets (t :: out)) (now : Int) : (TimerQueue.resetOne now s t).Sets out := by
  unfold TimerQueue.resetOne
  split
  · rename_i hrepeats
    refine h.insert (t.restart_sequence now) (fun x hx heq => ?_) fun hmem => ?_
    · rw [Timer.restart_sequence] at heq
      rw [Timer.restart_repeats, h.outside t mem_cons_self x hx heq]
      exact ⟨hrepeats.1, hrepeats.1⟩
    · rw [Timer.restart_sequence] at hmem
      exact hrepeats.2 ((h.cancelled _ hmem).2.2 (by simp))
  · exact h.delete

theorem cancelInLoop (h : s.Sets out) (hids : sequence ∈ s.ids)
    (hout : sequence ∈ out.map Timer.sequence → s.callingExpiredTimers = true) :
    (s.cancelInLoop sequence).Sets out := by
  unfold TimerQueue.cancelInLoop
  split
  · rename_i k t hfind
    obtain ⟨ht, rfl⟩ := h.find_some hfind
    have herase := erase_eq_filter h.timers_nodup ht
    have hmem : ∀ v, v ∈ s.timers.erase t ↔ v ∈ s.timers ∧ v.sequence ≠ t.sequence := by
      simp [herase]
    refine ⟨?_, ?_, h.ids_nodup, h.ids_lt, h.sorted.sublist erase_sublist, h.started,
      fun v hv => h.pending v ((hmem v).mp hv).1, h.outside, fun i hi => ?_⟩
    · rw [herase]
      refine (h.same.filter _).trans (List.Perm.of_eq ?_)
      rw [filter_map]
      rfl
    · refine List.Perm.trans ?_ h.deleted
      have hperm := (List.perm_cons_erase ht).map Timer.sequence
      simp only [cons_append, map_append]
      refine List.Perm.trans ?_ ((hperm.symm.append_left _).append_left _)
      simp only [map_cons, ← append_assoc]
      exact perm_middle.symm
    · rcases mem_cons.mp hi with rfl | hi
      · refine ⟨hids, fun hmap => ?_, fun hmap => ?_⟩
        · obtain ⟨v, hv, heq⟩ := mem_map.mp hmap
          exact ((hmem v).mp hv).2 heq
        · obtain ⟨v, hv, heq⟩ := mem_map.mp hmap
          exact absurd heq (h.out_ne hv ht)
      · obtain ⟨hids, htimers, hcanceling⟩ := h.cancelled i hi
        refine ⟨hids, fun hmap => htimers ?_, hcanceling⟩
        obtain ⟨v, hv, rfl⟩ := mem_map.mp hmap
        exact mem_map_of_mem ((hmem v).mp hv).1
  · rename_i hfind
    refine ⟨h.same, h.deleted, h.ids_nodup, h.ids_lt, h.sorted, h.started, h.pending, h.outside,
      fun i hi => ?_⟩
    rcases mem_cons.mp hi with rfl | hi
    · refine ⟨hids, h.find_none hfind, fun hmap => ?_⟩
      simp [hout hmap]
    · obtain ⟨hids, htimers, hcanceling⟩ := h.cancelled i hi
      refine ⟨hids, htimers, fun hmap => ?_⟩
      simp only
      split
      · exact mem_cons_of_mem _ (hcanceling hmap)
      · exact hcanceling hmap

/-- The expired timers are taken out of the sets. None of them was cancelled. -/
theorem getExpired (h : s.Sets []) (now : Int) :
    Sets { s.getExpired now with cancelingTimers := [] }
      (s.timers.takeWhile (·.expiration ≤ now)) := by
  have hsplit := takeWhile_append_dropWhile (p := fun t : Timer => t.expiration ≤ now)
    (l := s.timers)
  have hleft : ∀ v ∈ s.timers.takeWhile (·.expiration ≤ now), v ∈ s.timers :=
    fun v hv => (takeWhile_sublist _).subset hv
  have hright : ∀ v ∈ s.timers.dropWhile (·.expiration ≤ now), v ∈ s.timers :=
    fun v hv => (dropWhile_sublist _).subset hv
  refine ⟨?_, ?_, h.ids_nodup, h.ids_lt, h.sorted.sublist (dropWhile_sublist _), h.started,
    fun v hv => h.pending v (hright v hv), fun v hv x hx heq => ?_, fun i hi => ?_⟩
  · refine (h.same.filter _).trans (List.Perm.of_eq ?_)
    rw [filter_map]
    exact congrArg _ (filter_dropWhile h.timers_nodup _)
  · have hdeleted := h.deleted
    rw [nil_append, ← hsplit] at hdeleted
    exact hdeleted
  · obtain ⟨hx, hv⟩ := h.pending v (hleft v hv) x hx heq
    rw [hx, hv]
  · obtain ⟨hids, htimers, -⟩ := h.cancelled i hi
    refine ⟨hids, fun hmap => htimers ?_, fun hmap => absurd ?_ htimers⟩
    · obtain ⟨v, hv, rfl⟩ := mem_map.mp hmap
      exact mem_map_of_mem (hright v hv)
    · obtain ⟨v, hv, rfl⟩ := mem_map.mp hmap
      exact mem_map_of_mem (hleft v hv)

/-- A callback of a timer that is out of the sets is called. -/
theorem start (h : s.Sets out) {x : TimerStart} (hx : x.timer ∈ out) :
    Sets { s with position := s.position + 1, started := s.started ++ [x] } out := by
  refine ⟨h.same, h.deleted, h.ids_nodup, h.ids_lt, h.sorted, ?_, ?_, ?_, h.cancelled⟩
  · intro y hy
    rcases mem_append.mp hy with hy | hy
    · exact h.started y hy
    · rw [mem_singleton.mp hy]
      exact h.mem_ids (mem_append_left _ hx)
  · intro v hv y hy heq
    rcases mem_append.mp hy with hy | hy
    · exact h.pending v hv y hy heq
    · rw [mem_singleton.mp hy] at heq
      exact absurd heq (h.out_ne hx hv)
  · intro v hv y hy heq
    rcases mem_append.mp hy with hy | hy
    · exact h.outside v hv y hy heq
    · rw [mem_singleton.mp hy] at heq ⊢
      rw [h.out_inj hx hv heq]

/-- The loop of `Reset`. -/
theorem foldl_resetOne (now : Int) (h : s.Sets out) :
    (out.foldl (TimerQueue.resetOne now) s).Sets [] := by
  induction out generalizing s with
  | nil => exact h
  | cons t out ih => exact ih (h.resetOne now)

end Sets

/-! ## The loop of `Reset` -/

/-- What the loop of `Reset` leaves alone. -/
theorem foldl_resetOne_eq (out : List Timer) (now : Int) : ∃ timers activeTimers deleted,
    out.foldl (resetOne now) s =
      { s with timers := timers, activeTimers := activeTimers, deleted := deleted } := by
  induction out generalizing s with
  | nil => exact ⟨_, _, _, rfl⟩
  | cons t out ih =>
    obtain ⟨timers, activeTimers, deleted, heq⟩ := ih (s := resetOne now s t)
    refine ⟨timers, activeTimers, deleted, heq.trans ?_⟩
    unfold resetOne
    split <;> rfl

/-- The timers that it puts back expire at `now` or later. -/
theorem mem_foldl_resetOne (ht : t ∈ (out.foldl (resetOne now) s).timers) :
    t ∈ s.timers ∨ now ≤ t.expiration := by
  induction out generalizing s with
  | nil => exact .inl ht
  | cons u out ih =>
    rcases ih ht with ht | ht
    · unfold resetOne at ht
      split at ht
      · rename_i hrepeats
        rcases (mem_orderedInsert Timer.Before).mp ht with rfl | ht
        · exact .inr (Timer.restart_expiration hrepeats.1 now)
        · exact .inl ht
      · exact .inl ht
    · exact .inr ht

/-! ## The log -/

structure Log (s : TimerQueue) : Prop where
  once : s.started.Pairwise fun a b => a.timer.sequence = b.timer.sequence →
    (a.timer.repeats = true ∧ b.timer.repeats = true) ∧ a.batch ≠ b.batch
  due : ∀ x ∈ s.started, x.timer.expiration ≤ x.now ∧ x.cancelled = false
  fresh : ∀ x ∈ s.started, x.batch ≤ s.batch
  /-- The rest of the batch has not started in it. -/
  rest : ∀ t ∈ s.expired.drop s.position, ∀ x ∈ s.started, x.timer.sequence = t.sequence →
    (x.timer.repeats = true ∧ t.repeats = true) ∧ x.batch ≠ s.batch
  expired : ∀ t ∈ s.expired, t.expiration ≤ s.now

namespace Log

theorem timerfdReadCb (h : s.Log) (hsets : s.Sets []) (now : Int) : (s.timerfdReadCb now).Log where
  once := h.once
  due := h.due
  fresh x hx := Nat.le_succ_of_le (h.fresh x hx)
  rest t ht x hx heq := by
    have ht := (takeWhile_sublist _).subset ((drop_sublist _ _).subset ht)
    refine ⟨hsets.pending t ht x hx heq, ?_⟩
    exact Nat.ne_of_lt (Nat.lt_succ_of_le (h.fresh x hx))
  expired t ht := by
    have := mem_takeWhile_imp ht
    exact of_decide_eq_true this

theorem skip (h : s.Log) : Log { s with position := s.position + 1 } :=
  { h with
    rest := fun t ht => h.rest t (by
      rw [← drop_drop] at ht
      exact mem_of_mem_drop ht) }

/-- The callback of the next timer of the batch is called. -/
theorem start (h : s.Log) (hsets : s.Sets s.expired) (ht : s.expired[s.position]? = some t)
    (hcancelled : t.sequence ∉ s.cancelled) :
    Log { s with
      position := s.position + 1
      started := s.started ++ [⟨t, s.now, s.batch, decide (t.sequence ∈ s.cancelled)⟩] } := by
  obtain ⟨hlt, rfl⟩ := List.getElem?_eq_some_iff.mp ht
  have hdrop := drop_eq_getElem_cons hlt
  have hmem : s.expired[s.position] ∈ s.expired.drop s.position := by
    rw [hdrop]
    exact mem_cons_self
  have hnodup := hsets.nodup
  rw [map_append] at hnodup
  have hnodup := (List.nodup_append.mp (List.nodup_append.mp hnodup).2.1).1.sublist
    ((drop_sublist s.position _).map Timer.sequence)
  rw [hdrop, map_cons, nodup_cons] at hnodup
  refine ⟨?_, ?_, ?_, ?_, h.expired⟩
  · refine pairwise_append.mpr ⟨h.once, pairwise_singleton _ _, fun a ha b hb heq => ?_⟩
    rw [mem_singleton] at hb
    subst hb
    exact h.rest _ hmem a ha heq
  · intro x hx
    rcases mem_append.mp hx with hx | hx
    · exact h.due x hx
    · rw [mem_singleton] at hx
      subst hx
      exact ⟨h.expired _ (getElem_mem hlt), decide_eq_false hcancelled⟩
  · intro x hx
    rcases mem_append.mp hx with hx | hx
    · exact h.fresh x hx
    · rw [mem_singleton] at hx
      subst hx
      exact Nat.le_refl _
  · intro v hv x hx heq
    rcases mem_append.mp hx with hx | hx
    · exact h.rest v (by rw [hdrop]; exact mem_cons_of_mem _ hv) x hx heq
    · -- A timer is in the batch once.
      rw [mem_singleton] at hx
      subst hx
      exact absurd (heq ▸ mem_map_of_mem hv) hnodup.1

end Log

/-! ## The timerfd -/

structure Fd (s : TimerQueue) : Prop where
  armed : s.callingExpiredTimers = false → s.timers ≠ [] → s.armed = true ∨ s.readable = true
  /-- During a batch, for what `Reset` takes for no timer. -/
  invalid : ∀ t ∈ s.timers, valid t.expiration = false → s.armed = true ∨ s.readable = true

theorem addTimerInLoop_eq : s.addTimerInLoop t =
    { s.insert t with
      armed := s.earliestChanged t || s.armed
      readable := !s.earliestChanged t && s.readable } := by
  unfold addTimerInLoop
  split <;> simp_all [insert, resetTimerfd]

theorem reset_eq (now : Int) : s.reset out now =
    { out.foldl (resetOne now) s with
      armed := (out.foldl (resetOne now) s).timers.head?.any (valid ·.expiration) ||
        (out.foldl (resetOne now) s).armed
      readable := !(out.foldl (resetOne now) s).timers.head?.any (valid ·.expiration) &&
        (out.foldl (resetOne now) s).readable } := by
  simp only [reset]
  obtain ⟨timers⟩ := out.foldl (resetOne now) s
  cases timers with
  | nil => rfl
  | cons t timers => cases hvalid : valid t.expiration <;> simp [hvalid, resetTimerfd]

/-- What `Cancel` leaves alone. -/
theorem cancelInLoop_eq (sequence : Nat) : ∃ timers activeTimers cancelingTimers deleted,
    s.cancelInLoop sequence = { s with
      timers := timers, activeTimers := activeTimers, cancelingTimers := cancelingTimers,
      deleted := deleted, cancelled := sequence :: s.cancelled } := by
  unfold cancelInLoop
  split <;> exact ⟨_, _, _, _, rfl⟩

namespace Fd

theorem addTimerInLoop (h : s.Fd) : (s.addTimerInLoop t).Fd := by
  rw [addTimerInLoop_eq]
  cases hchanged : s.earliestChanged t with
  | true => exact ⟨fun _ _ => .inl rfl, fun _ _ _ => .inl rfl⟩
  | false =>
    simp only [Bool.false_or, Bool.not_false, Bool.true_and]
    unfold earliestChanged at hchanged
    split at hchanged
    · cases hchanged
    · rename_i u timers htimers
      refine ⟨fun hcalling _ => h.armed hcalling (by simp [htimers]), fun v hv hvalid => ?_⟩
      -- The timer in front is no later than the new one.
      rcases (mem_orderedInsert Timer.Before).mp hv with rfl | hv
      · refine h.invalid u (by simp [htimers]) ?_
        simp only [valid, decide_eq_false_iff_not] at hchanged hvalid ⊢
        omega
      · exact h.invalid v hv hvalid

theorem cancelInLoop (h : s.Fd) (sequence : Nat) : (s.cancelInLoop sequence).Fd := by
  unfold TimerQueue.cancelInLoop
  split
  · rename_i k t _
    refine ⟨fun hcalling hne => h.armed hcalling fun hnil => hne ?_,
      fun v hv => h.invalid v (mem_of_mem_erase hv)⟩
    simp [hnil]
  · exact { h with }

theorem fire : Fd { s with armed := false, readable := true } :=
  ⟨fun _ _ => .inr rfl, fun _ _ _ => .inr rfl⟩

theorem timerfdReadCb (hsorted : s.timers.Pairwise Timer.Before) (hnow : valid now = true) :
    (s.timerfdReadCb now).Fd where
  armed hcalling := by cases hcalling
  invalid t ht hvalid := by
    have := lt_of_mem_dropWhile hsorted ht
    simp only [valid, decide_eq_true_eq, decide_eq_false_iff_not] at hnow hvalid
    omega

theorem reset (h : ∀ t ∈ s.timers, valid t.expiration = false → s.armed = true ∨ s.readable = true)
    (out : List Timer) (hnow : valid now = true) : (s.reset out now).Fd := by
  obtain ⟨timers, activeTimers, deleted, heq⟩ := foldl_resetOne_eq (s := s) out now
  have hinvalid : ∀ t ∈ timers, valid t.expiration = false →
      s.armed = true ∨ s.readable = true := by
    intro t ht hvalid
    have hmem := mem_foldl_resetOne (show t ∈ (out.foldl (resetOne now) s).timers by rwa [heq])
    refine h t (hmem.resolve_right ?_) hvalid
    simp only [valid, decide_eq_true_eq, decide_eq_false_iff_not] at hnow hvalid
    omega
  rw [reset_eq, heq]
  cases timers with
  | nil => exact ⟨fun _ hne => absurd rfl hne, hinvalid⟩
  | cons t timers =>
    simp only [head?_cons, Option.any_some]
    cases hvalid : valid t.expiration with
    | true => exact ⟨fun _ _ => .inl rfl, fun _ _ _ => .inl rfl⟩
    | false => exact ⟨fun _ _ => hinvalid t mem_cons_self hvalid, hinvalid⟩

end Fd

/-! ## Runs -/

structure Inv (s : TimerQueue) : Prop where
  sets : s.Sets s.expired
  log : s.Log
  fd : s.Fd
  idle : s.callingExpiredTimers = false → s.expired = []
  clock : s.callingExpiredTimers = true → valid s.now = true

namespace Inv

theorem start : Inv {} := by
  refine ⟨⟨?_, ?_, ?_, ?_, ?_, ?_, ?_, ?_, ?_⟩, ⟨?_, ?_, ?_, ?_, ?_⟩, ⟨?_, ?_⟩, ?_, ?_⟩ <;> simp

theorem addTimer (h : s.Inv) (when' : Int) (interval : Option Nat) (address : Nat) :
    (s.addTimer when' interval address).Inv := by
  have hsets := (h.sets.create (t := ⟨when', interval, s.createdNum, address⟩) rfl).insert rfl
    (fun x hx heq => absurd (h.sets.ids_lt _ (h.sets.started x hx)) (by simp only at heq; omega))
    fun hmem => absurd (h.sets.ids_lt _ (h.sets.cancelled _ hmem).1) (Nat.lt_irrefl _)
  have hfd : Fd { s with createdNum := s.createdNum + 1, ids := s.createdNum :: s.ids } :=
    { h.fd with }
  have hfd := hfd.addTimerInLoop (t := ⟨when', interval, s.createdNum, address⟩)
  unfold TimerQueue.addTimer
  rw [addTimerInLoop_eq] at hfd ⊢
  exact ⟨{ hsets with }, { h.log with }, hfd, h.idle, h.clock⟩

theorem cancelInLoop (h : s.Inv) (hids : sequence ∈ s.ids) : (s.cancelInLoop sequence).Inv := by
  have hsets := h.sets.cancelInLoop hids fun hmem => by
    by_contra hcalling
    simp [h.idle (by simpa using hcalling)] at hmem
  have hfd := h.fd.cancelInLoop sequence
  obtain ⟨timers, activeTimers, cancelingTimers, deleted, heq⟩ := cancelInLoop_eq (s := s) sequence
  rw [heq] at hsets hfd ⊢
  exact ⟨hsets, { h.log with }, hfd, h.idle, h.clock⟩

theorem timerfdReadCb (h : s.Inv) (hcalling : s.callingExpiredTimers = false)
    (hnow : valid now = true) : (s.timerfdReadCb now).Inv := by
  have hsets : s.Sets [] := h.idle hcalling ▸ h.sets
  refine ⟨{ hsets.getExpired now with }, h.log.timerfdReadCb hsets now,
    Fd.timerfdReadCb h.sets.sorted hnow, fun hfalse => ?_, fun _ => hnow⟩
  cases hfalse

theorem runTimer (h : s.Inv) (ht : s.expired[s.position]? = some t) : (s.runTimer t).Inv := by
  unfold TimerQueue.runTimer
  split
  · exact ⟨{ h.sets with }, h.log.skip, { h.fd with }, h.idle, h.clock⟩
  · rename_i hcanceling
    have hmem := mem_of_getElem? ht
    have hcancelled : t.sequence ∉ s.cancelled := fun hc =>
      hcanceling ((h.sets.cancelled _ hc).2.2 (mem_map_of_mem hmem))
    exact ⟨h.sets.start hmem, h.log.start h.sets ht hcancelled, { h.fd with }, h.idle, h.clock⟩

/-- The end of `TimerfdReadCb`. -/
theorem reset (h : s.Inv) (hcalling : s.callingExpiredTimers = true) :
    ({ s with callingExpiredTimers := false, expired := [] }.reset s.expired s.now).Inv := by
  have hfd := Fd.reset (s := { s with callingExpiredTimers := false, expired := [] })
    h.fd.invalid s.expired (h.clock hcalling)
  have hsets : Sets { s with callingExpiredTimers := false, expired := [] } s.expired :=
    { h.sets with }
  have hsets := hsets.foldl_resetOne s.now
  obtain ⟨timers, activeTimers, deleted, heq⟩ := foldl_resetOne_eq
    (s := { s with callingExpiredTimers := false, expired := [] }) s.expired s.now
  have hlog : Log { s with
      callingExpiredTimers := false, expired := [], timers := timers, activeTimers := activeTimers,
      deleted := deleted } :=
    ⟨h.log.once, h.log.due, h.log.fresh, by simp, by simp⟩
  rw [heq] at hsets
  rw [reset_eq, heq] at hfd ⊢
  exact ⟨{ hsets with }, { hlog with }, hfd, fun _ => rfl, nofun⟩

theorem step (h : s.Inv) (e : TimerEvent) (he : s.Enabled e) : (s.next e).Inv := by
  cases e with
  | addTimer when' interval address => exact h.addTimer when' interval address
  | cancel sequence => exact h.cancelInLoop he
  | createElsewhere =>
    refine ⟨{ h.sets with ids_lt := fun i hi => ?_ }, { h.log with }, { h.fd with }, h.idle,
      h.clock⟩
    exact Nat.lt_succ_of_lt (h.sets.ids_lt i hi)
  | fire =>
    simp only [TimerQueue.next]
    split
    · exact ⟨{ h.sets with }, { h.log with }, Fd.fire, h.idle, h.clock⟩
    · exact h
  | readCb now =>
    simp only [TimerQueue.next]
    split
    · exact h
    · rename_i hcalling
      exact h.timerfdReadCb (by simpa using hcalling) he
  | next =>
    simp only [TimerQueue.next]
    split
    · rename_i hcalling
      split
      · rename_i t ht
        exact h.runTimer ht
      · exact h.reset hcalling
    · exact h

theorem contract (h : s.Inv) : s.Contract where
  same := h.sets.same
  once := h.log.once
  due := h.log.due
  deleted := ⟨h.sets.deleted, h.sets.ids_nodup⟩
  destroyed hcalling := by simpa [destroyed, h.idle hcalling] using h.sets.deleted
  armed := h.fd.armed

end Inv

/-- The queue keeps its contract in every run, whatever the callbacks add and cancel. -/
theorem timers_contract (es : List TimerEvent) (hes : Run.Along next Enabled {} es) :
    Run.Always next Contract {} es :=
  Run.Always.mono (fun _ => Inv.contract) (hes.always (fun _ e h he => h.step e he) Inv.start)

/-- A periodic timer cancels itself and the next timer of its batch, and adds a third one. -/
def cancelInCallback : List TimerEvent :=
  [.addTimer 5 (some 3) 1, .addTimer 5 none 2, .fire, .readCb 6, .next, .cancel 0, .cancel 1,
    .addTimer 4 none 3, .next, .next, .cancel 0, .fire, .readCb 9, .next, .next]

theorem cancelInCallback_contract : Run.Along next Enabled {} cancelInCallback ∧
    Run.Always next Contract {} cancelInCallback ∧
    (Run.exec next {} cancelInCallback).started.map (fun x => x.timer.sequence) = [0, 2] ∧
    (Run.exec next {} cancelInCallback).deleted.Perm [0, 1, 2] :=
  have h : Run.Along next Enabled {} cancelInCallback := by decide
  ⟨h, timers_contract _ h, by decide, by decide⟩

end TimerQueue
end Morphling.Network
