import Morphling.Tracker.PartitionInv

/-!
# What the tracker says about a key

A caller of the tracker names partitions by their keys. `find k` is the object that the tracker has
for `k`. Where the indexes agree, each operation is an update of this map, and the objects keep
their key and operation (`labelOf`):

* `find_addPartition`, `find_removePartitionByKey`: a key appears and goes.
* `find_markPartition`, `find_reassignPartitionToDevice`: one key changes its state or its owner.
* `find_markDevicePartitionsFailed`: the running partitions of a device go back to idle.
* `find_claimIdlePartitions`, `claimed_count`: every idle partition starts to run, and is claimed
  once.
-/

namespace Morphling.PartitionTracker

open List Option

section Objects
variable {K : Type*} {t : PartitionTracker K} {f : PartitionInfo K → PartitionInfo K} {p : Nat}
  {k : K}

/-- The operation and the key of an object. -/
def labelOf (t : PartitionTracker K) (p : Nat) : Option (Int × K) :=
  t.heap[p]?.map fun info => (info.oid, info.key)

/-- The object that the tracker has for a key. -/
def find (t : PartitionTracker K) (k : K) : Option (PartitionInfo K) :=
  (t.partitionMap k).bind (t.heap[·]?)

/-- The state of that object. -/
def stateAt (t : PartitionTracker K) (k : K) : Option PartitionState := (t.find k).map (·.state)

theorem keyOf_eq_labelOf (p : Nat) : t.keyOf p = (t.labelOf p).map Prod.snd := by
  simp [keyOf, labelOf, Function.comp_def]

theorem keyOf_congr {t' : PartitionTracker K} (h : t'.labelOf = t.labelOf) :
    t'.keyOf = t.keyOf := by
  funext p
  rw [keyOf_eq_labelOf, keyOf_eq_labelOf, h]

theorem find_eq_none_iff (h : Consistent t) : t.find k = none ↔ t.partitionMap k = none := by
  unfold find
  cases hp : t.partitionMap k with
  | none => simp
  | some p =>
    have := (h.info hp).1
    simp only [keyOf, map_eq_some_iff] at this
    obtain ⟨info, hi, -⟩ := this
    simp [hi]

/-- A tracked object has its key. -/
theorem key_of_find (h : Consistent t) {info : PartitionInfo K} (hf : t.find k = some info) :
    info.key = k := by
  obtain ⟨p, hp, hi⟩ := bind_eq_some_iff.mp hf
  simpa [keyOf, hi] using (h.info hp).1

/-! ## Writes through pointers -/

theorem labelOf_modify (hf : ∀ i, (f i).oid = i.oid ∧ (f i).key = i.key) (p : Nat) :
    (t.modify p f).labelOf = t.labelOf := by
  funext q
  simp only [labelOf, modify, getElem?_modify]
  split <;> cases t.heap[q]? <;> simp [hf]

theorem labelOf_foldl_modify (hf : ∀ i, (f i).oid = i.oid ∧ (f i).key = i.key) (ps : List Nat) :
    (ps.foldl (fun t p => t.modify p f) t).labelOf = t.labelOf := by
  induction ps generalizing t with
  | nil => rfl
  | cons p ps ih => exact ih.trans (labelOf_modify hf p)

theorem find_modify :
    (t.modify p f).find k = if t.partitionMap k = some p then (t.find k).map f else t.find k := by
  unfold find modify
  cases hk : t.partitionMap k with
  | none => simp
  | some q =>
    simp only [bind_some, getElem?_modify, some.injEq]
    by_cases hpq : q = p
    · subst hpq
      cases t.heap[q]? <;> simp
    · rw [if_neg hpq]
      cases t.heap[q]? <;> simp [Ne.symm hpq]

theorem partitionMap_foldl_modify (ps : List Nat) :
    (ps.foldl (fun t p => t.modify p f) t).partitionMap = t.partitionMap := by
  induction ps generalizing t with
  | nil => rfl
  | cons p ps ih => exact ih

/-- The same write through several different pointers. -/
theorem find_foldl_modify {ps : List Nat} (hps : ps.Nodup)
 : (ps.foldl (fun t p => t.modify p f) t).find k =
      if ∃ p ∈ ps, t.partitionMap k = some p then (t.find k).map f else t.find k := by
  induction ps generalizing t with
  | nil => simp
  | cons p ps ih =>
    obtain ⟨hp, hps⟩ := nodup_cons.mp hps
    rw [foldl_cons, ih hps, find_modify, show (t.modify p f).partitionMap = t.partitionMap from rfl]
    by_cases hk : t.partitionMap k = some p
    · have hno : ¬ ∃ q ∈ ps, t.partitionMap k = some q := by
        rintro ⟨q, hq, hkq⟩
        rw [hk] at hkq
        exact hp (some.inj hkq ▸ hq)
      rw [if_neg hno, if_pos hk, if_pos ⟨p, mem_cons_self, hk⟩]
    · have hiff : (∃ q ∈ p :: ps, t.partitionMap k = some q) ↔
          ∃ q ∈ ps, t.partitionMap k = some q := by
        simp [hk]
      simp only [if_neg hk, hiff]

/-- Different keys have different objects. -/
theorem Consistent.key_inj (h : Consistent t) {k' : K} (hp : t.partitionMap k = some p)
    (hp' : t.partitionMap k' = some p) : k = k' :=
  some.inj ((h.info hp).1.symm.trans (h.info hp').1)

theorem partitionMap_markPartition (st : PartitionState) :
    (t.markPartition st k).partitionMap = t.partitionMap := by
  unfold markPartition
  split <;> rfl

theorem labelOf_markPartition (st : PartitionState) :
    (t.markPartition st k).labelOf = t.labelOf := by
  unfold markPartition
  split
  · rfl
  · exact labelOf_modify (f := fun info => { info with state := st }) (fun _ => ⟨rfl, rfl⟩) _

theorem partitionMap_markDevicePartitionsFailed (d : Int) :
    (t.markDevicePartitionsFailed d).partitionMap = t.partitionMap :=
  partitionMap_foldl_modify _

theorem labelOf_markDevicePartitionsFailed (d : Int) :
    (t.markDevicePartitionsFailed d).labelOf = t.labelOf :=
  labelOf_foldl_modify (fun i => by split <;> exact ⟨rfl, rfl⟩) _

/-- The running partitions in the list of the device go back to idle. -/
theorem find_markDevicePartitionsFailed (h : Consistent t) (d : Int) :
    (t.markDevicePartitionsFailed d).find k =
      if t.partitionToDevice k = some d then
        (t.find k).map fun info =>
          if info.state = .running then { info with state := .idle, ownerDeviceId := -1 } else info
      else t.find k := by
  have hr := h.represents
  rw [markDevicePartitionsFailed, find_foldl_modify (hr.list_nodup d)]
  cases hk : t.find k with
  | none => simp
  | some info =>
    have hiff : (∃ p ∈ t.deviceList d, t.partitionMap k = some p) ↔
        t.partitionToDevice k = some d := by
      obtain ⟨p, hp, -⟩ := bind_eq_some_iff.mp hk
      constructor
      · rintro ⟨q, hq, hkq⟩
        obtain ⟨k', hk'⟩ := (hr.mem_list d q).mp hq
        obtain rfl := h.key_inj (hr.map_some.mpr ⟨d, hk'⟩) hkq
        exact hr.device_some.mpr ⟨q, hk'⟩
      · intro hd
        obtain ⟨q, hq⟩ := hr.device_some.mp hd
        exact ⟨q, (hr.mem_list d q).mpr ⟨k, hq⟩, hr.map_some.mpr ⟨d, hq⟩⟩
    simp only [hiff]

/-! ## Claims -/

/-- Writes that do the same to the object. -/
theorem modify_congr {g : PartitionInfo K → PartitionInfo K}
    (h : ∀ info, t.heap[p]? = some info → f info = g info) : t.modify p f = t.modify p g := by
  unfold modify
  congr 1
  refine ext_getElem? fun q => ?_
  rw [getElem?_modify, getElem?_modify]
  by_cases hq : p = q
  · subst hq
    cases hp : t.heap[p]? with
    | none => rfl
    | some info => simp [h info hp]
  · simp [hq]

theorem modify_id (h : ∀ info, t.heap[p]? = some info → f info = info) : t.modify p f = t := by
  rw [modify_congr (g := id) h, modify, List.modify_id]

/-- The loop of `ClaimIdlePartitions`: it collects the idle objects, and marks them. -/
theorem foldl_claimOne_eq (ps acc : List Nat) (hps : ps.Nodup) :
    ps.foldl claimOne (acc, t) = (acc ++ ps.filter (t.stateOf · = some .idle),
      ps.foldl (fun t p => t.modify p fun info =>
        if info.state = .idle then { info with state := .running } else info) t) := by
  induction ps generalizing t acc with
  | nil => simp
  | cons p ps ih =>
    obtain ⟨hp, hps⟩ := nodup_cons.mp hps
    have hstate : ∀ f, ∀ q ∈ ps, (t.modify p f).stateOf q = t.stateOf q := by
      intro f q hq
      have hpq : p ≠ q := fun e => hp (e ▸ hq)
      simp [stateOf, modify, hpq]
    rw [foldl_cons, foldl_cons, claimOne]
    by_cases hi : t.stateOf p = some .idle
    · have hone : (t.modify p fun info => { info with state := .running }) = t.modify p fun info =>
          if info.state = .idle then { info with state := .running } else info := by
        refine modify_congr fun info hinfo => ?_
        simp only [stateOf, hinfo, map_some, some.injEq] at hi
        rw [if_pos hi]
      rw [if_pos hi, hone, ih _ hps, filter_cons_of_pos (by simpa using hi),
        append_assoc, singleton_append]
      congr 3
      exact filter_congr fun q hq => by rw [hstate _ q hq]
    · have hone : (t.modify p fun info =>
          if info.state = .idle then { info with state := .running } else info) = t := by
        refine modify_id fun info hinfo => ?_
        simp only [stateOf, hinfo, map_some, some.injEq] at hi
        rw [if_neg hi]
      rw [if_neg hi, hone, ih _ hps, filter_cons_of_neg (by simpa using hi)]

end Objects
/-! ## The operations -/

section Operations
variable {K : Type*} [DecidableEq K] {t : PartitionTracker K} {k k' : K}

/-- A write through the pointer that a key has. -/
theorem find_modify_of_map (h : Consistent t) {f : PartitionInfo K → PartitionInfo K} {p : Nat}
    (hp : t.partitionMap k = some p) :
    (t.modify p f).find k' = if k' = k then (t.find k').map f else t.find k' := by
  rw [find_modify]
  by_cases hk : k' = k
  · rw [if_pos hk, if_pos (hk ▸ hp)]
  · rw [if_neg hk, if_neg fun hp' => hk (h.key_inj hp' hp)]

theorem find_addPartition (h : Consistent t) (d oid : Int) (part : MatrixPartition DataPtr) :
    (t.addPartition d k oid part).find k' = if k' = k then
      some { key := k, oid := oid, ownerDeviceId := d, partition := part } else t.find k' := by
  unfold find addPartition
  by_cases hkk : k' = k
  · simp [hkk]
  · simp only [Function.update_of_ne hkk, if_neg hkk]
    cases hp : t.partitionMap k' with
    | none => rfl
    | some p =>
      have hlt : p < t.heap.length := by
        have := (h.info hp).1
        simp only [keyOf, map_eq_some_iff] at this
        obtain ⟨info, hi, -⟩ := this
        exact (List.getElem?_eq_some_iff.mp hi).1
      simp [getElem?_append_left hlt]

theorem labelOf_addPartition (d oid : Int) (part : MatrixPartition DataPtr) (p : Nat) :
    (t.addPartition d k oid part).labelOf p =
      if p = t.heap.length then some (oid, k) else t.labelOf p := by
  unfold labelOf addPartition
  rcases Nat.lt_trichotomy p t.heap.length with hp | hp | hp
  · simp [getElem?_append_left hp, Nat.ne_of_lt hp]
  · simp [hp]
  · simp only [if_neg (Nat.ne_of_gt hp)]
    rw [getElem?_eq_none (by simp; omega), getElem?_eq_none (by omega)]

theorem find_markPartition (h : Consistent t) (st : PartitionState) :
    (t.markPartition st k).find k' =
      if k' = k then (t.find k').map fun info => { info with state := st } else t.find k' := by
  unfold markPartition
  split
  next hp =>
    by_cases hkk : k' = k
    · simp [hkk, (find_eq_none_iff h).mpr hp]
    · rw [if_neg hkk]
  next p hp => exact find_modify_of_map h hp

theorem reassignPartitionToDevice_eq (h : Consistent t) (d : Int) :
    (t.reassignPartitionToDevice k d).1 = (t.find k).isSome ∧
      (t.reassignPartitionToDevice k d).2.partitionMap = t.partitionMap ∧
      (t.reassignPartitionToDevice k d).2.labelOf = t.labelOf ∧
      ∀ k', (t.reassignPartitionToDevice k d).2.find k' = if k' = k then
        (t.find k').map fun info => { info with
          ownerDeviceId := d, partition := { info.partition with devId := d } } else t.find k' := by
  obtain ⟨hheap, -, hmap, -⟩ := h.represents.detach_fields k
  unfold reassignPartitionToDevice
  split
  next hp =>
    have hf := (find_eq_none_iff h).mpr hp
    refine ⟨by simp [hf], rfl, rfl, fun k' => ?_⟩
    by_cases hkk : k' = k
    · simp [hkk, hf]
    · rw [if_neg hkk]
  next p hp =>
    have hf : (t.find k).isSome = true := by
      rw [isSome_iff_ne_none, ne_eq, find_eq_none_iff h, hp]
      exact some_ne_none p
    refine ⟨hf.symm, hmap, ?_, fun k' => ?_⟩
    · refine (labelOf_modify (f := fun info => { info with
        ownerDeviceId := d, partition := { info.partition with devId := d } })
        (fun _ => ⟨rfl, rfl⟩) p).trans ?_
      funext q
      simp only [labelOf, hheap]
    · rw [find_modify]
      simp only [find, hmap, hheap]
      by_cases hkk : k' = k
      · rw [if_pos hkk, if_pos (hkk ▸ hp)]
      · rw [if_neg hkk, if_neg fun hp' => hkk (h.key_inj hp' hp)]

theorem heap_removePartitionByKey : (t.removePartitionByKey k).heap = t.heap := by
  unfold removePartitionByKey
  split
  · rfl
  · dsimp only
    cases t.partitionMap k <;> dsimp only <;> split <;> (try split) <;> rfl

theorem labelOf_removePartitionByKey : (t.removePartitionByKey k).labelOf = t.labelOf := by
  funext p
  rw [labelOf, heap_removePartitionByKey, labelOf]

theorem partitionMap_removePartitionByKey (h : Consistent t) :
    (t.removePartitionByKey k).partitionMap k' =
      if k' = k then none else t.partitionMap k' := by
  have hr := h.represents
  rw [(hr.removePartitionByKey k).map_eq, Function.update_apply, hr.map_eq]
  split <;> rfl

theorem find_removePartitionByKey (h : Consistent t) :
    (t.removePartitionByKey k).find k' = if k' = k then none else t.find k' := by
  rw [find, heap_removePartitionByKey, partitionMap_removePartitionByKey h]
  split <;> rfl

end Operations

/-! ## What is claimed -/

section Claims
variable {K : Type*} {t : PartitionTracker K} {p : Nat}

theorem partitionMap_claimIdlePartitions (h : Consistent t) :
    t.claimIdlePartitions.2.partitionMap = t.partitionMap := by
  rw [claimIdlePartitions, foldl_claimOne_eq _ _ h.set_nodup]
  exact partitionMap_foldl_modify _

theorem labelOf_claimIdlePartitions (h : Consistent t) :
    t.claimIdlePartitions.2.labelOf = t.labelOf := by
  rw [claimIdlePartitions, foldl_claimOne_eq _ _ h.set_nodup]
  exact labelOf_foldl_modify (fun i => by split <;> exact ⟨rfl, rfl⟩) _

/-- Every idle partition starts to run. -/
theorem find_claimIdlePartitions (h : Consistent t) (k : K) :
    t.claimIdlePartitions.2.find k = (t.find k).map fun info =>
      if info.state = .idle then { info with state := .running } else info := by
  rw [claimIdlePartitions, foldl_claimOne_eq _ _ h.set_nodup, find_foldl_modify h.set_nodup]
  cases hk : t.find k with
  | none => simp
  | some info =>
    obtain ⟨p, hp, -⟩ := bind_eq_some_iff.mp hk
    rw [if_pos ⟨p, (h.info hp).2, hp⟩]

/-- Of the objects in the set, the one with key `k` is the one that `k` has. -/
theorem Consistent.keyOf_iff (h : Consistent t) (hp : p ∈ t.partitionsSet) {k : K} :
    t.keyOf p = some k ↔ t.partitionMap k = some p := by
  have hr := h.represents
  refine ⟨fun hk => ?_, fun hk => (h.info hk).1⟩
  obtain ⟨k', d, hk'⟩ := (hr.mem_set p).mp hp
  obtain rfl := some.inj ((hr.key_eq hk').symm.trans hk)
  exact hr.map_some.mpr ⟨d, hk'⟩

/-- The claimed objects are those of the idle keys, each once. -/
theorem claimed_count [DecidableEq K] (h : Consistent t) (k : K) :
    t.claimIdlePartitions.1.countP (t.keyOf · = some k) =
      if (t.find k).any (·.state = .idle) then 1 else 0 := by
  rw [claimIdlePartitions, foldl_claimOne_eq _ _ h.set_nodup, nil_append, countP_filter]
  cases hp : t.partitionMap k with
  | none =>
    rw [(find_eq_none_iff h).mpr hp, any_none, if_neg Bool.false_ne_true]
    refine countP_eq_zero.mpr fun q hq => ?_
    simp [h.keyOf_iff hq, hp]
  | some p =>
    have hmem := (h.info hp).2
    have hfind : t.find k = t.heap[p]? := by simp [find, hp]
    have hiff : ∀ q ∈ t.partitionsSet, (decide (t.keyOf q = some k) &&
        decide (t.stateOf q = some .idle)) = (decide (t.stateOf p = some .idle) && q == p) := by
      intro q hq
      rw [Bool.eq_iff_iff]
      simp only [Bool.and_eq_true, decide_eq_true_eq, beq_iff_eq, h.keyOf_iff hq, hp,
        some.injEq]
      exact ⟨fun ⟨e, hi⟩ => ⟨e ▸ hi, e.symm⟩, fun ⟨hi, e⟩ => ⟨e.symm, e ▸ hi⟩⟩
    have hidle : (t.find k).any (·.state = .idle) = decide (t.stateOf p = some .idle) := by
      rw [hfind, stateOf]
      cases t.heap[p]? <;> simp
    rw [countP_congr fun q hq => by rw [hiff q hq], hidle]
    by_cases hi : t.stateOf p = some .idle
    · simp only [hi, decide_true, Bool.true_and, if_true]
      exact count_eq_one_of_mem h.set_nodup hmem
    · simp [hi]

/-- A claimed object is one of the heap. -/
theorem claimed_label (h : Consistent t) (hp : p ∈ t.claimIdlePartitions.1) :
    t.labelOf p ≠ none := by
  rw [claimIdlePartitions, foldl_claimOne_eq _ _ h.set_nodup, nil_append] at hp
  have := (mem_filter.mp hp).2
  simp only [stateOf, decide_eq_true_eq, map_eq_some_iff] at this
  obtain ⟨info, hi, -⟩ := this
  simp [labelOf, hi]

end Claims

/-! ## What callers rely on -/

/-- `t'` has the objects of `t` under their labels, and tracks no other keys. -/
structure Kept {K : Type*} (t t' : PartitionTracker K) : Prop where
  consistent : Consistent t'
  labelOf_eq : t'.labelOf = t.labelOf
  untracked : ∀ k, t.partitionMap k = none → t'.partitionMap k = none

section Kept
variable {K : Type*} {t : PartitionTracker K}

theorem Consistent.kept (h : Consistent t) : Kept t t := ⟨h, rfl, fun _ => id⟩

theorem Kept.trans {t' t'' : PartitionTracker K} (h : Kept t t') (h' : Kept t' t'') : Kept t t'' :=
  ⟨h'.consistent, h'.labelOf_eq.trans h.labelOf_eq, fun k hk => h'.untracked k (h.untracked k hk)⟩

theorem Consistent.kept_modify (h : Consistent t) {f : PartitionInfo K → PartitionInfo K}
    (hf : ∀ i, (f i).oid = i.oid ∧ (f i).key = i.key) (p : Nat) : Kept t (t.modify p f) :=
  ⟨(h.represents.modify (fun i => (hf i).2) p).consistent, labelOf_modify hf p, fun _ => id⟩

theorem Consistent.kept_markDevicePartitionsFailed (h : Consistent t) (d : Int) :
    Kept t (t.markDevicePartitionsFailed d) :=
  ⟨(h.represents.markDevicePartitionsFailed d).consistent, labelOf_markDevicePartitionsFailed d,
    fun k hk => by rwa [partitionMap_markDevicePartitionsFailed]⟩

theorem Consistent.kept_claimIdlePartitions (h : Consistent t) :
    Kept t t.claimIdlePartitions.2 :=
  ⟨(h.represents.foldl_claimOne (s := ([], t)) t.partitionsSet).consistent,
    labelOf_claimIdlePartitions h, fun k hk => by rwa [partitionMap_claimIdlePartitions h]⟩

variable [DecidableEq K]

theorem Consistent.kept_markPartition (h : Consistent t) (st : PartitionState) (k : K) :
    Kept t (t.markPartition st k) :=
  ⟨(h.represents.markPartition st k).consistent, labelOf_markPartition st,
    fun k' hk => by rwa [partitionMap_markPartition]⟩

theorem Consistent.kept_reassignPartitionToDevice (h : Consistent t) (k : K) (d : Int) :
    Kept t (t.reassignPartitionToDevice k d).2 := by
  obtain ⟨-, hmap, hlabel, -⟩ := reassignPartitionToDevice_eq (k := k) h d
  exact ⟨(h.represents.reassignPartitionToDevice k d).consistent, hlabel,
    fun k' hk => by rwa [hmap]⟩

theorem Consistent.kept_removePartitionByKey (h : Consistent t) (k : K) :
    Kept t (t.removePartitionByKey k) := by
  refine ⟨(h.represents.removePartitionByKey k).consistent, labelOf_removePartitionByKey,
    fun k' hk => ?_⟩
  rw [partitionMap_removePartitionByKey h]
  split
  · rfl
  · exact hk

end Kept

end Morphling.PartitionTracker
