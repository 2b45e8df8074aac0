import Morphling.Tracker.Partition
import Morphling.Lib.PartialMap
import Morphling.Lib.Run

/-!
# The indexes of the partition tracker agree

What the tracker is for is one finite map: a key has an object and a device. `Represents t a` says
that the four indexes of `t` describe the map `a`, and each operation refines an update of it.
`Consistent` is the same statement about the indexes alone (`consistent_iff`).

One operation can break it: `redistributeFailedDevicePartitions` drops the whole list of the failed
device, although it moved only the idle partitions that the policy gave a device.
`RedistributeOk` is the exact condition (`redistribute_consistent_iff`).
-/

namespace Morphling.PartitionTracker

open List Function PartialMap

variable {K : Type*} {t : PartitionTracker K} {a : K → Option (Nat × Int)} {k : K} {p q : Nat}
  {d d' : Int} {f : PartitionInfo K → PartitionInfo K} {ps : List Nat}

/-- The four indexes describe the same set of partitions. -/
structure Consistent (t : PartitionTracker K) : Prop where
  /-- The list stands for a set. -/
  set_nodup : t.partitionsSet.Nodup
  /-- The object of a tracked key is the key's own and is in the set. -/
  info : ∀ {k p}, t.partitionMap k = some p → t.keyOf p = some k ∧ p ∈ t.partitionsSet
  /-- It is once in the list of its device and in no other list. -/
  device : ∀ {k p}, t.partitionMap k = some p → ∃ d, t.partitionToDevice k = some d ∧
    (t.deviceList d).count p = 1 ∧ ∀ d', d' ≠ d → p ∉ t.deviceList d'
  no_empty : ∀ d, t.devicePartitions d ≠ some []
  /-- Nothing else is in the set, the reverse index or a list. -/
  set_tracked : ∀ {p}, p ∈ t.partitionsSet → ∃ k, t.partitionMap k = some p
  device_tracked : ∀ {k d}, t.partitionToDevice k = some d → ∃ p, t.partitionMap k = some p
  list_tracked : ∀ {d p}, p ∈ t.deviceList d → ∃ k, t.partitionMap k = some p

/-- The indexes describe the map `a` from keys to objects and devices. -/
structure Represents (t : PartitionTracker K) (a : K → Option (Nat × Int)) : Prop where
  map_eq : ∀ k, t.partitionMap k = (a k).map Prod.fst
  device_eq : ∀ k, t.partitionToDevice k = (a k).map Prod.snd
  key_eq : ∀ {k p d}, a k = some (p, d) → t.keyOf p = some k
  set_nodup : t.partitionsSet.Nodup
  mem_set : ∀ p, p ∈ t.partitionsSet ↔ ∃ k d, a k = some (p, d)
  list_nodup : ∀ d, (t.deviceList d).Nodup
  mem_list : ∀ d p, p ∈ t.deviceList d ↔ ∃ k, a k = some (p, d)
  no_empty : ∀ d, t.devicePartitions d ≠ some []

/-- The map that the indexes describe. -/
def abs (t : PartitionTracker K) (k : K) : Option (Nat × Int) :=
  (t.partitionMap k).bind fun p => (t.partitionToDevice k).map fun d => (p, d)

theorem Consistent.represents (h : Consistent t) : Represents t t.abs := by
  have habs : ∀ {k p d}, t.abs k = some (p, d) ↔
      t.partitionMap k = some p ∧ t.partitionToDevice k = some d := by
    intro k p d
    simp [abs, Option.bind_eq_some_iff]
  refine ⟨fun k => ?_, fun k => ?_, fun hk => (h.info (habs.mp hk).1).1, h.set_nodup, fun p => ?_,
    fun d => ?_, fun d p => ?_, h.no_empty⟩
  · cases hp : t.partitionMap k with
    | none => simp [abs, hp]
    | some p =>
      obtain ⟨d, hd, -⟩ := h.device hp
      simp [abs, hp, hd]
  · cases hd : t.partitionToDevice k with
    | none => cases hp : t.partitionMap k <;> simp [abs, hp, hd]
    | some d =>
      obtain ⟨p, hp⟩ := h.device_tracked hd
      simp [abs, hp, hd]
  · refine ⟨fun hp => ?_, fun ⟨k, d, hk⟩ => (h.info (habs.mp hk).1).2⟩
    obtain ⟨k, hk⟩ := h.set_tracked hp
    obtain ⟨d, hd, -⟩ := h.device hk
    exact ⟨k, d, habs.mpr ⟨hk, hd⟩⟩
  · -- An object that is twice in a list is its device's, where it is only once.
    refine nodup_iff_count_le_one.mpr fun p => ?_
    by_cases hp : p ∈ t.deviceList d
    · obtain ⟨k, hk⟩ := h.list_tracked hp
      obtain ⟨d', -, hc, hne⟩ := h.device hk
      by_cases hd : d = d'
      · rw [hd, hc]
      · exact absurd hp (hne d hd)
    · rw [count_eq_zero_of_not_mem hp]
      exact Nat.zero_le 1
  · constructor
    · intro hp
      obtain ⟨k, hk⟩ := h.list_tracked hp
      obtain ⟨d', hd', -, hne⟩ := h.device hk
      have hd : d = d' := by
        by_contra hd
        exact hne d hd hp
      exact ⟨k, habs.mpr ⟨hk, hd ▸ hd'⟩⟩
    · rintro ⟨k, hk⟩
      obtain ⟨hp, hd⟩ := habs.mp hk
      obtain ⟨d', hd', hc, -⟩ := h.device hp
      obtain rfl : d = d' := Option.some.inj (hd.symm.trans hd')
      exact count_pos_iff.mp (by omega)

namespace Represents

section
variable (h : Represents t a)
include h

theorem map_some : t.partitionMap k = some p ↔ ∃ d, a k = some (p, d) := by
  simp [h.map_eq]

theorem device_some : t.partitionToDevice k = some d ↔ ∃ p, a k = some (p, d) := by
  simp [h.device_eq]

/-- An object belongs to one key. -/
theorem key_inj {k' : K} (hk : a k = some (p, d)) (hk' : a k' = some (p, d')) : k = k' :=
  Option.some.inj ((h.key_eq hk).symm.trans (h.key_eq hk'))

/-- An object belongs to one device. -/
theorem device_inj {k' : K} (hk : a k = some (p, d)) (hk' : a k' = some (p, d')) : d = d' := by
  obtain rfl := h.key_inj hk hk'
  rw [hk] at hk'
  exact (Prod.mk.inj (Option.some.inj hk')).2

/-- The keys of the objects in the list of a device are the keys of the device. -/
theorem exists_listed_key :
    (∃ p ∈ t.deviceList d, t.keyOf p = some k) ↔ ∃ p, a k = some (p, d) := by
  constructor
  · rintro ⟨p, hp, hk⟩
    obtain ⟨k', hk'⟩ := (h.mem_list d p).mp hp
    obtain rfl := Option.some.inj ((h.key_eq hk').symm.trans hk)
    exact ⟨p, hk'⟩
  · rintro ⟨p, hk⟩
    exact ⟨p, (h.mem_list d p).mpr ⟨k, hk⟩, h.key_eq hk⟩

/-- Among the tracked objects, the one with the key `k` is the one that `k` has. -/
theorem keyOf_eq_iff (hk : a k = some (p, d)) (hq : ∃ k' d', a k' = some (q, d')) :
    t.keyOf q = some k ↔ q = p := by
  obtain ⟨k', d', hq⟩ := hq
  rw [h.key_eq hq]
  constructor
  · rintro hkk
    obtain rfl := Option.some.inj hkk
    rw [hk] at hq
    exact (Prod.mk.inj (Option.some.inj hq)).1.symm
  · rintro rfl
    rw [h.key_inj hq hk]

/-- The device of a key has a list, with the object of the key. -/
theorem listed (hk : a k = some (p, d)) :
    p ∈ t.deviceList d ∧ t.devicePartitions d = some (t.deviceList d) := by
  have hp := (h.mem_list d p).mpr ⟨k, hk⟩
  refine ⟨hp, ?_⟩
  cases hd : t.devicePartitions d with
  | none => simp [deviceList, hd] at hp
  | some parts => simp [deviceList, hd]

theorem consistent : Consistent t where
  set_nodup := h.set_nodup
  info hp := by
    obtain ⟨d, hk⟩ := h.map_some.mp hp
    exact ⟨h.key_eq hk, (h.mem_set _).mpr ⟨_, d, hk⟩⟩
  device hp := by
    obtain ⟨d, hk⟩ := h.map_some.mp hp
    refine ⟨d, h.device_some.mpr ⟨_, hk⟩,
      count_eq_one_of_mem (h.list_nodup d) ((h.mem_list d _).mpr ⟨_, hk⟩), fun d' hne hp' => ?_⟩
    obtain ⟨k', hk'⟩ := (h.mem_list d' _).mp hp'
    exact hne (h.device_inj hk' hk)
  no_empty := h.no_empty
  set_tracked hp := by
    obtain ⟨k, d, hk⟩ := (h.mem_set _).mp hp
    exact ⟨k, h.map_some.mpr ⟨d, hk⟩⟩
  device_tracked hd := by
    obtain ⟨p, hk⟩ := h.device_some.mp hd
    exact ⟨p, h.map_some.mpr ⟨_, hk⟩⟩
  list_tracked hp := by
    obtain ⟨k, hk⟩ := (h.mem_list _ _).mp hp
    exact ⟨k, h.map_some.mpr ⟨_, hk⟩⟩

end

end Represents

theorem consistent_iff : Consistent t ↔ ∃ a, Represents t a :=
  ⟨fun h => ⟨_, h.represents⟩, fun ⟨_, h⟩ => h.consistent⟩

/-! ## Each operation refines an update of the map -/

/-- Writes through pointers that keep the keys do not touch the indexes. -/
theorem Represents.modify (h : Represents t a) (hf : ∀ i, (f i).key = i.key) (p : Nat) :
    Represents (t.modify p f) a where
  map_eq := h.map_eq
  device_eq := h.device_eq
  key_eq hk := by rw [keyOf_modify t hf]; exact h.key_eq hk
  set_nodup := h.set_nodup
  mem_set := h.mem_set
  list_nodup := h.list_nodup
  mem_list := h.mem_list
  no_empty := h.no_empty

theorem Represents.foldl_modify (h : Represents t a) (hf : ∀ i, (f i).key = i.key) (ps : List Nat) :
    Represents (ps.foldl (fun t p => t.modify p f) t) a := by
  induction ps generalizing t with
  | nil => exact h
  | cons p ps ih => exact ih (h.modify hf p)

theorem Represents.markDevicePartitionsFailed (h : Represents t a) (d : Int) :
    Represents (t.markDevicePartitionsFailed d) a :=
  h.foldl_modify (fun i => by split <;> rfl) _

theorem Represents.markDevicePartitionsRunning (h : Represents t a) (d : Int) :
    Represents (t.markDevicePartitionsRunning d) a :=
  h.foldl_modify (fun i => by split <;> rfl) _

theorem Represents.markPartition [DecidableEq K] (h : Represents t a) (st : PartitionState)
    (k : K) : Represents (t.markPartition st k) a := by
  unfold PartitionTracker.markPartition
  split
  · exact h
  · exact h.modify (f := fun info => { info with state := st }) (fun _ => rfl) _

theorem Represents.foldl_claimOne {s : List Nat × PartitionTracker K} (h : Represents s.2 a)
    (ps : List Nat) : Represents (ps.foldl claimOne s).2 a := by
  induction ps generalizing s with
  | nil => exact h
  | cons p ps ih =>
    refine ih ?_
    unfold claimOne
    split
    · exact h.modify (f := fun info => { info with state := .running }) (fun _ => rfl) p
    · exact h

/-- New devices for the same objects. -/
theorem Represents.moved (h : Represents t a) {t' : PartitionTracker K} {a' : K → Option (Nat × Int)}
    (hkey : t'.keyOf = t.keyOf) (hset : t'.partitionsSet = t.partitionsSet)
    (hmap : t'.partitionMap = t.partitionMap) (ha : ∀ k, (a' k).map Prod.fst = (a k).map Prod.fst)
    (device_eq : ∀ k, t'.partitionToDevice k = (a' k).map Prod.snd)
    (list_nodup : ∀ d, (t'.deviceList d).Nodup)
    (mem_list : ∀ d p, p ∈ t'.deviceList d ↔ ∃ k, a' k = some (p, d))
    (no_empty : ∀ d, t'.devicePartitions d ≠ some []) : Represents t' a' := by
  have hfst : ∀ k p, (∃ d, a' k = some (p, d)) ↔ ∃ d, a k = some (p, d) := by
    intro k p
    simpa using congrArg (· = some p) (ha k)
  refine ⟨fun k => ?_, device_eq, fun {k p d} hk => ?_, hset ▸ h.set_nodup, fun p => ?_, list_nodup,
    mem_list, no_empty⟩
  · rw [hmap, h.map_eq, ha]
  · obtain ⟨d', hk'⟩ := (hfst k p).mp ⟨d, hk⟩
    rw [hkey]
    exact h.key_eq hk'
  · simp only [hset, h.mem_set, hfst]

@[simp] theorem getD_nonEmpty (parts : List Nat) : (nonEmpty parts).getD [] = parts := by
  unfold nonEmpty
  split <;> simp_all

theorem nodup_concat (h : ps.Nodup) (hp : p ∉ ps) : (ps ++ [p]).Nodup :=
  concat_eq_append ▸ h.concat hp

theorem nonEmpty_ne (parts : List Nat) : nonEmpty parts ≠ some [] := by
  unfold nonEmpty
  split <;> simp_all

variable [DecidableEq K] {failed : Int} {m : K → Option Int}

/-- The lists after an update of one of them. -/
theorem getD_update (f : Int → Option (List Nat)) (d d' : Int) (x : Option (List Nat)) :
    (update f d x d').getD [] = if d' = d then x.getD [] else (f d').getD [] := by
  rw [update_apply]
  split <;> rfl

theorem Represents.addPartition (h : Represents t a) (hk : t.partitionMap k = none) (d oid : Int)
    (part : MatrixPartition DataPtr) :
    Represents (t.addPartition d k oid part)
      (update a k (some (t.heap.length, d))) := by
  have hak : a k = none := by simpa [h.map_eq] using hk
  -- A tracked object is in the heap, so the new one is not tracked yet.
  have hlt : ∀ {k p d}, a k = some (p, d) → p < t.heap.length := by
    intro k p d hk
    have := h.key_eq hk
    by_contra hge
    simp [keyOf, getElem?_eq_none (Nat.le_of_not_lt hge)] at this
  have hkey : ∀ p < t.heap.length, (t.addPartition d k oid part).keyOf p = t.keyOf p := by
    intro p hp
    simp [keyOf, PartitionTracker.addPartition, getElem?_append_left hp]
  have hcases : ∀ {k' p d'}, update a k (some (t.heap.length, d)) k' = some (p, d') ↔
      (k' = k ∧ p = t.heap.length ∧ d' = d) ∨ a k' = some (p, d') := by
    intro k' p d'
    rw [update_some_iff hak, Prod.mk.injEq]
  have hlist : ∀ d', (t.addPartition d k oid part).deviceList d' =
      if d' = d then t.deviceList d ++ [t.heap.length] else t.deviceList d' :=
    fun d' => getD_update _ _ _ _
  refine ⟨fun k' => ?_, fun k' => ?_, fun {k' p d'} hk' => ?_, ?_, fun p => ?_, fun d' => ?_,
    fun d' p => ?_, fun d' => ?_⟩
  · simp only [PartitionTracker.addPartition, update_apply, h.map_eq]
    split <;> rfl
  · simp only [PartitionTracker.addPartition, update_apply, h.device_eq]
    split <;> rfl
  · rcases hcases.mp hk' with ⟨rfl, rfl, rfl⟩ | hk'
    · simp [keyOf, PartitionTracker.addPartition]
    · rw [hkey p (hlt hk')]
      exact h.key_eq hk'
  · refine nodup_concat h.set_nodup fun hp => ?_
    obtain ⟨k', d', hk'⟩ := (h.mem_set _).mp hp
    exact Nat.lt_irrefl _ (hlt hk')
  · simp only [PartitionTracker.addPartition, mem_append, mem_singleton, h.mem_set, hcases]
    constructor
    · rintro (⟨k', d', hk'⟩ | rfl)
      · exact ⟨k', d', .inr hk'⟩
      · exact ⟨k, d, .inl ⟨rfl, rfl, rfl⟩⟩
    · rintro ⟨k', d', ⟨-, rfl, -⟩ | hk'⟩
      · exact .inr rfl
      · exact .inl ⟨k', d', hk'⟩
  · rw [hlist]
    split
    · refine nodup_concat (h.list_nodup d) fun hp => ?_
      obtain ⟨k', hk'⟩ := (h.mem_list d _).mp hp
      exact Nat.lt_irrefl _ (hlt hk')
    · exact h.list_nodup d'
  · rw [hlist]
    simp only [hcases]
    split
    next e =>
      subst e
      simp only [mem_append, mem_singleton, h.mem_list]
      constructor
      · rintro (⟨k', hk'⟩ | rfl)
        · exact ⟨k', .inr hk'⟩
        · exact ⟨k, .inl ⟨rfl, rfl, trivial⟩⟩
      · rintro ⟨k', ⟨-, rfl, -⟩ | hk'⟩
        · exact .inr rfl
        · exact .inl ⟨k', hk'⟩
    next e => simp [h.mem_list, e]
  · exact update_ne (by simp) h.no_empty d'

/-- The first element with a property that one element has is that element. -/
theorem eraseP_eq_erase {f : Nat → Bool} (h : ∀ q ∈ ps, f q = true ↔ q = p) :
    ps.eraseP f = ps.erase p := by
  induction ps with
  | nil => rfl
  | cons q ps ih =>
    by_cases hq : q = p
    · rw [eraseP_cons_of_pos ((h q (by simp)).mpr hq), hq, erase_cons_head]
    · rw [eraseP_cons_of_neg (fun hf => hq ((h q (by simp)).mp hf)),
        erase_cons_tail (by simpa using hq), ih fun r hr => h r (by simp [hr])]

/-- In the list of its device, the object of a key is the one with the key. -/
theorem Represents.keyOf_listed (h : Represents t a) (hk : a k = some (p, d))
    (hq : q ∈ t.deviceList d') : decide (t.keyOf q = some k) = true ↔ q = p := by
  obtain ⟨k', hk'⟩ := (h.mem_list d' q).mp hq
  simpa using h.keyOf_eq_iff hk ⟨k', d', hk'⟩

/-- The tracker without the key `k`, which has the object `p` in the list of `d`. -/
def untrack (t : PartitionTracker K) (k : K) (p : Nat) (d : Int) : PartitionTracker K :=
  { t with
    partitionsSet := t.partitionsSet.erase p
    partitionMap := update t.partitionMap k none
    partitionToDevice := update t.partitionToDevice k none
    devicePartitions :=
      update t.devicePartitions d (nonEmpty ((t.deviceList d).erase p)) }

section
variable (h : Represents t a)
include h

theorem Represents.untrack (hk : a k = some (p, d)) :
    Represents (t.untrack k p d) (update a k none) := by
  have hcases : ∀ {k' q d'}, update a k none k' = some (q, d') ↔
      a k' = some (q, d') ∧ q ≠ p := by
    intro k' q d'
    rw [update_apply]
    split
    next e =>
      subst e
      simp only [hk, reduceCtorEq, Option.some.injEq, Prod.mk.injEq, false_iff]
      omega
    next e =>
      refine ⟨fun hq => ⟨hq, ?_⟩, And.left⟩
      rintro rfl
      exact e (h.key_inj hq hk)
  have hlist : ∀ d', (t.untrack k p d).deviceList d' =
      if d' = d then (t.deviceList d).erase p else t.deviceList d' := by
    intro d'
    have := getD_update t.devicePartitions d d' (nonEmpty ((t.deviceList d).erase p))
    rwa [getD_nonEmpty] at this
  refine ⟨fun k' => ?_, fun k' => ?_, fun hk' => h.key_eq (hcases.mp hk').1, h.set_nodup.erase p,
    fun q => ?_, fun d' => ?_, fun d' q => ?_, fun d' => ?_⟩
  · simp only [PartitionTracker.untrack, update_apply, h.map_eq]
    split <;> rfl
  · simp only [PartitionTracker.untrack, update_apply, h.device_eq]
    split <;> rfl
  · simp only [PartitionTracker.untrack, h.set_nodup.mem_erase_iff, h.mem_set, hcases]
    constructor
    · rintro ⟨hne, k', d', hk'⟩
      exact ⟨k', d', hk', hne⟩
    · rintro ⟨k', d', hk', hne⟩
      exact ⟨hne, k', d', hk'⟩
  · rw [hlist]
    split
    · exact (h.list_nodup d).erase p
    · exact h.list_nodup d'
  · rw [hlist]
    simp only [hcases]
    split
    next e =>
      subst e
      rw [(h.list_nodup d').mem_erase_iff, h.mem_list]
      constructor
      · rintro ⟨hne, k', hk'⟩
        exact ⟨k', hk', hne⟩
      · rintro ⟨k', hk', hne⟩
        exact ⟨hne, k', hk'⟩
    next e =>
      rw [h.mem_list]
      refine ⟨fun ⟨k', hk'⟩ => ⟨k', hk', ?_⟩, fun ⟨k', hk', _⟩ => ⟨k', hk'⟩⟩
      rintro rfl
      exact e (h.device_inj hk' hk)
  · exact update_ne (nonEmpty_ne _) h.no_empty d'

theorem Represents.removePartition (d : Int) (k : K) :
    Represents (t.removePartition d k)
      (if (a k).map Prod.snd = some d then update a k none else a) := by
  by_cases hs : (a k).map Prod.snd = some d
  · obtain ⟨⟨p, d⟩, hk, rfl⟩ := Option.map_eq_some_iff.mp hs
    obtain ⟨hp, hd⟩ := h.listed hk
    obtain ⟨q, hf⟩ : ∃ q, (t.deviceList d).find? (t.keyOf · = some k) = some q :=
      Option.isSome_iff_exists.mp (find?_isSome.mpr ⟨p, hp, (h.keyOf_listed hk hp).mpr rfl⟩)
    have hq := find?_some hf
    obtain rfl := (h.keyOf_listed hk (mem_of_find?_eq_some hf)).mp hq
    have he : (t.deviceList d).eraseP (t.keyOf · = some k) = _ :=
      eraseP_eq_erase fun r => h.keyOf_listed hk
    simp only [PartitionTracker.removePartition, hd, hf, he]
    rw [if_pos hs]
    exact h.untrack hk
  · have hno : ∀ q ∈ t.deviceList d, ¬ decide (t.keyOf q = some k) = true := by
      intro q hq hkey
      obtain ⟨k', hk'⟩ := (h.mem_list d q).mp hq
      obtain rfl := Option.some.inj ((h.key_eq hk').symm.trans (of_decide_eq_true hkey))
      exact hs (by rw [hk']; rfl)
    rw [if_neg hs]
    unfold PartitionTracker.removePartition
    split
    · exact h
    next parts hd =>
      rw [show t.deviceList d = parts by simp [deviceList, hd]] at hno
      rw [find?_eq_none.mpr hno]
      exact h

theorem Represents.removePartitionByKey (k : K) :
    Represents (t.removePartitionByKey k) (update a k none) := by
  cases hk : a k with
  | none =>
    have hd : t.partitionToDevice k = none := by simp [h.device_eq, hk]
    have ha : update a k none = a := by rw [← hk, update_eq_self]
    simpa [PartitionTracker.removePartitionByKey, hd, ha] using h
  | some e =>
    obtain ⟨p, d⟩ := e
    obtain ⟨hp, hd⟩ := h.listed hk
    have hany : (t.deviceList d).any (t.keyOf · = some k) = true :=
      any_eq_true.mpr ⟨p, hp, (h.keyOf_listed hk hp).mpr rfl⟩
    have he : (t.deviceList d).eraseP (t.keyOf · = some k) = _ :=
      eraseP_eq_erase fun r => h.keyOf_listed hk
    have hr : t.removePartitionByKey k = t.untrack k p d := by
      simp only [PartitionTracker.removePartitionByKey, h.device_some.mpr ⟨p, hk⟩,
        h.map_some.mpr ⟨d, hk⟩, hd]
      rw [PartitionTracker.untrack, ← he]
      exact if_pos hany
    rw [hr]
    exact h.untrack hk

/-- Dropping a key from a list drops the object of the key and nothing else. -/
theorem Represents.mem_filter_key (hk : a k = some (p, d)) (d' : Int) (q : Nat) :
    q ∈ (t.deviceList d').filter (t.keyOf · ≠ some k) ↔ q ∈ t.deviceList d' ∧ q ≠ p := by
  rw [mem_filter]
  refine and_congr_right fun hq => ?_
  simpa using not_congr (h.keyOf_listed hk hq)

/-- A detached partition is in no list; the others are where they were. -/
theorem Represents.deviceList_detach (hk : a k = some (p, d)) (d' : Int) :
    (t.detach k).deviceList d' = (t.deviceList d').filter (t.keyOf · ≠ some k) := by
  simp only [detach, h.device_some.mpr ⟨p, hk⟩, (h.listed hk).2]
  refine (getD_update _ _ _ _).trans ?_
  split
  next e => simp [e, deviceList]
  next e =>
    refine (filter_eq_self.mpr fun q hq => ?_).symm
    -- The object of `k` is only in the list of `d`.
    have hne : q ≠ p := by
      rintro rfl
      obtain ⟨k', hk'⟩ := (h.mem_list d' q).mp hq
      exact e (h.device_inj hk' hk)
    exact (mem_filter.mp ((h.mem_filter_key hk d' q).mpr ⟨hq, hne⟩)).2

theorem Represents.detach_fields (k : K) :
    (t.detach k).heap = t.heap ∧ (t.detach k).partitionsSet = t.partitionsSet ∧
      (t.detach k).partitionMap = t.partitionMap ∧
      (t.detach k).partitionToDevice = t.partitionToDevice ∧
      ∀ d, (t.detach k).devicePartitions d ≠ some [] := by
  unfold detach
  split
  · exact ⟨rfl, rfl, rfl, rfl, h.no_empty⟩
  · split
    · exact ⟨rfl, rfl, rfl, rfl, h.no_empty⟩
    · exact ⟨rfl, rfl, rfl, rfl, update_ne (nonEmpty_ne _) h.no_empty⟩

/-- The objects of a device after a partition got a new one. -/
theorem Represents.exists_update_device {target : Int} (hk : a k = some (p, d)) :
    (∃ k', update a k (some (p, target)) k' = some (q, d')) ↔
      (q = p ∧ d' = target) ∨ (q ∈ t.deviceList d' ∧ q ≠ p) := by
  rw [h.mem_list]
  constructor
  · rintro ⟨k', hk'⟩
    rw [update_apply] at hk'
    split at hk'
    · obtain ⟨rfl, rfl⟩ := Prod.mk.inj (Option.some.inj hk')
      exact .inl ⟨rfl, rfl⟩
    next e =>
      refine .inr ⟨⟨k', hk'⟩, ?_⟩
      rintro rfl
      exact e (h.key_inj hk' hk)
  · rintro (⟨rfl, rfl⟩ | ⟨⟨k', hk'⟩, hqp⟩)
    · exact ⟨k, update_self ..⟩
    · refine ⟨k', ?_⟩
      rwa [update_of_ne]
      rintro rfl
      rw [hk] at hk'
      exact hqp (Prod.mk.inj (Option.some.inj hk')).1.symm

/-- A reassigned partition is in the list of its new device only. -/
theorem Represents.reassignPartitionToDevice (k : K) (target : Int) :
    Represents (t.reassignPartitionToDevice k target).2
      (update a k ((a k).map fun e => (e.1, target))) := by
  cases hk : a k with
  | none =>
    have hm : t.partitionMap k = none := by simp [h.map_eq, hk]
    have ha : update a k none = a := by rw [← hk, update_eq_self]
    simpa [PartitionTracker.reassignPartitionToDevice, hm, ha] using h
  | some e =>
    obtain ⟨p, d⟩ := e
    have hm : t.partitionMap k = some p := h.map_some.mpr ⟨d, hk⟩
    obtain ⟨hheap, hset, hmap, hdev, hne⟩ := h.detach_fields k
    have hkey : (t.detach k).keyOf = t.keyOf := by funext q; simp [keyOf, hheap]
    have hmem := h.mem_filter_key hk
    simp only [PartitionTracker.reassignPartitionToDevice, hm, Option.map_some, hkey,
      h.deviceList_detach hk, filter_filter, Bool.and_self]
    refine Represents.modify (f := fun info => { info with
      ownerDeviceId := target
      partition := { info.partition with devId := target } }) ?_ (fun _ => rfl) p
    set lists := update (t.detach k).devicePartitions target
      (some ((t.deviceList target).filter (t.keyOf · ≠ some k) ++ [p])) with hlists
    have hlist : ∀ d', (lists d').getD [] = if d' = target then
        (t.deviceList target).filter (t.keyOf · ≠ some k) ++ [p]
        else (t.deviceList d').filter (t.keyOf · ≠ some k) := by
      intro d'
      rw [hlists, getD_update]
      split
      · rfl
      · exact h.deviceList_detach hk d'
    refine h.moved hkey hset hmap (fun k' => ?_) (fun k' => ?_) (fun d' => ?_) (fun d' q => ?_)
      fun d' => ?_
    · rw [update_apply]
      split
      next e => rw [e, hk]; rfl
      next => rfl
    · simp only [hdev, update_apply, h.device_eq]
      split <;> rfl
    · show ((lists d').getD []).Nodup
      rw [hlist]
      split
      · exact nodup_concat ((h.list_nodup target).filter _) fun hp => ((hmem target p).mp hp).2 rfl
      · exact (h.list_nodup d').filter _
    · show q ∈ (lists d').getD [] ↔ _
      rw [h.exists_update_device hk, hlist]
      split
      next e => rw [mem_append, hmem, mem_singleton]; subst e; tauto
      next e => rw [hmem]; tauto
    · exact update_ne (by simp) hne d'

end

/-- What the loop of `ClearDevicePartitions` leaves: the listed objects and their keys are gone. -/
theorem foldl_clearOne (ps : List Nat) (hps : ∀ p ∈ ps, t.keyOf p ≠ none)
    (hset : t.partitionsSet.Nodup) :
    (ps.foldl (fun t p => t.clearOne p) t).heap = t.heap ∧
      (ps.foldl (fun t p => t.clearOne p) t).devicePartitions = t.devicePartitions ∧
      (ps.foldl (fun t p => t.clearOne p) t).partitionsSet = t.partitionsSet.filter (· ∉ ps) ∧
      (∀ k, (ps.foldl (fun t p => t.clearOne p) t).partitionMap k =
        if ∃ p ∈ ps, t.keyOf p = some k then none else t.partitionMap k) ∧
      ∀ k, (ps.foldl (fun t p => t.clearOne p) t).partitionToDevice k =
        if ∃ p ∈ ps, t.keyOf p = some k then none else t.partitionToDevice k := by
  induction ps generalizing t with
  | nil => simp
  | cons p ps ih =>
    obtain ⟨key, hkey⟩ := Option.ne_none_iff_exists'.mp (hps p (by simp))
    have hone : t.clearOne p = { t with
        partitionsSet := t.partitionsSet.erase p
        partitionMap := update t.partitionMap key none
        partitionToDevice := update t.partitionToDevice key none } := by
      simp [clearOne, hkey]
    have hk : (t.clearOne p).keyOf = t.keyOf := by rw [hone]; rfl
    obtain ⟨h₁, h₂, h₃, h₄, h₅⟩ := ih (t := t.clearOne p)
      (fun q hq => by rw [hk]; exact hps q (by simp [hq]))
      (by rw [hone]; exact hset.erase p)
    have hcut : ∀ {β : Type} (f : K → Option β) k,
        (if ∃ q ∈ ps, t.keyOf q = some k then none else update f key none k) =
          if ∃ q ∈ p :: ps, t.keyOf q = some k then none else f k := by
      intro β f k
      simp only [exists_mem_cons_iff, hkey, Option.some.injEq, eq_comm (a := key)]
      by_cases e : k = key <;> simp [e]
    rw [foldl_cons]
    refine ⟨h₁.trans (by rw [hone]), h₂.trans (by rw [hone]), ?_, fun k => ?_, fun k => ?_⟩
    · rw [h₃, hone]
      show (t.partitionsSet.erase p).filter _ = _
      rw [hset.erase_eq_filter, filter_filter]
      refine filter_congr fun q _ => ?_
      by_cases hq : q = p <;> simp [hq]
    · rw [h₄, hk, hone]
      exact hcut t.partitionMap k
    · rw [h₅, hk, hone]
      exact hcut t.partitionToDevice k

theorem Represents.clearDevicePartitions (h : Represents t a) (d : Int) :
    Represents (t.clearDevicePartitions d) fun k => (a k).filter (·.2 ≠ d) := by
  have hfil : ∀ {k p d'}, (a k).filter (fun e => decide (e.2 ≠ d)) = some (p, d') ↔
      a k = some (p, d') ∧ d' ≠ d := by
    intro k p d'
    simp only [Option.filter_eq_some_iff, decide_eq_true_eq]
  cases hd : t.devicePartitions d with
  | none =>
    have ha : (fun k => (a k).filter (·.2 ≠ d)) = a := by
      funext k
      cases hk : a k with
      | none => rfl
      | some e =>
        refine Option.filter_eq_some_iff.mpr ⟨rfl, ?_⟩
        simp only [decide_eq_true_eq]
        rintro rfl
        cases hd.symm.trans (h.listed hk).2
    rw [ha]
    simpa [PartitionTracker.clearDevicePartitions, hd] using h
  | some parts =>
    have hl : t.deviceList d = parts := by simp [deviceList, hd]
    have hmem : ∀ p, p ∈ parts ↔ ∃ k, a k = some (p, d) := fun p => hl ▸ h.mem_list d p
    obtain ⟨h₁, h₂, h₃, h₄, h₅⟩ := foldl_clearOne (t := t) parts (fun p hp => by
      obtain ⟨k, hk⟩ := (hmem p).mp hp
      simp [h.key_eq hk]) h.set_nodup
    -- The cleared keys are those of the device.
    have hkeys : ∀ k, (∃ p ∈ parts, t.keyOf p = some k) ↔ ∃ p, a k = some (p, d) :=
      fun k => hl ▸ h.exists_listed_key
    have hcut : ∀ {β : Type} (f : Nat × Int → β) k,
        (if ∃ p ∈ parts, t.keyOf p = some k then none else (a k).map f) =
          ((a k).filter (·.2 ≠ d)).map f := by
      intro β f k
      split
      next hp =>
        obtain ⟨p, hk⟩ := (hkeys k).mp hp
        simp [hk]
      next hp =>
        cases hk : a k with
        | none => rfl
        | some e =>
          have hne : e.2 ≠ d := fun he => hp ((hkeys k).mpr ⟨e.1, by rw [hk, ← he]⟩)
          rw [Option.filter_some, if_pos (decide_eq_true hne)]
    have hlist : ∀ d', (t.clearDevicePartitions d).deviceList d' =
        if d' = d then [] else t.deviceList d' := by
      intro d'
      simp only [PartitionTracker.clearDevicePartitions, hd, h₂]
      exact getD_update _ _ _ _
    have hkeyOf : (t.clearDevicePartitions d).keyOf = t.keyOf := by
      funext p
      simp only [PartitionTracker.clearDevicePartitions, hd, keyOf, h₁]
    refine ⟨fun k => ?_, fun k => ?_, fun hk => ?_, ?_, fun p => ?_, fun d' => ?_, fun d' p => ?_,
      fun d' => ?_⟩
    · simp only [PartitionTracker.clearDevicePartitions, hd, h₄, h.map_eq, hcut]
    · simp only [PartitionTracker.clearDevicePartitions, hd, h₅, h.device_eq, hcut]
    · rw [hkeyOf]
      exact h.key_eq (hfil.mp hk).1
    · simp only [PartitionTracker.clearDevicePartitions, hd, h₃]
      exact h.set_nodup.filter _
    · simp only [PartitionTracker.clearDevicePartitions, hd, h₃, mem_filter, h.mem_set, hfil,
        hmem, decide_eq_true_eq]
      constructor
      · rintro ⟨⟨k, d', hk⟩, hne⟩
        exact ⟨k, d', hk, fun e => hne ⟨k, e ▸ hk⟩⟩
      · rintro ⟨k, d', hk, hne⟩
        refine ⟨⟨k, d', hk⟩, ?_⟩
        rintro ⟨k', hk'⟩
        exact hne (h.device_inj hk hk')
    · rw [hlist]
      split
      · exact nodup_nil
      · exact h.list_nodup d'
    · rw [hlist]
      simp only [hfil]
      split
      next e => simp [e]
      next e => simp [h.mem_list, e]
    · simp only [PartitionTracker.clearDevicePartitions, hd, h₂]
      exact update_ne (by simp) h.no_empty d'

omit [DecidableEq K] in
theorem represents_empty (heap : List (PartitionInfo K)) :
    Represents { heap := heap } fun _ => none := by
  constructor <;> simp [deviceList]

/-! ## Redistribution -/

/-- What one iteration of the loop that applies the policy does. -/
theorem redistributeOne_spec (t : PartitionTracker K) (m : K → Option Int) (p : Nat) :
    let t' := t.redistributeOne m p
    t'.keyOf = t.keyOf ∧ t'.partitionsSet = t.partitionsSet ∧ t'.partitionMap = t.partitionMap ∧
      (∀ d, t'.deviceList d =
        t.deviceList d ++ if (t.keyOf p).bind m = some d then [p] else []) ∧
      (∀ k, t'.partitionToDevice k =
        if t.keyOf p = some k then (m k).or (t.partitionToDevice k) else t.partitionToDevice k) ∧
      ((∀ d, t.devicePartitions d ≠ some []) → ∀ d, t'.devicePartitions d ≠ some []) := by
  cases hkey : t.keyOf p with
  | none =>
    have e : t.redistributeOne m p = t := by simp [redistributeOne, hkey]
    simp [e]
  | some key =>
    cases hm : m key with
    | none =>
      have e : t.redistributeOne m p = t := by simp [redistributeOne, hkey, hm]
      simp only [e, Option.bind_some, hm, reduceCtorEq, if_false, append_nil, Option.some.injEq,
        implies_true, imp_self, and_true, true_and]
      intro k
      split
      next e => rw [← e, hm, Option.none_or]
      next => rfl
    | some target =>
      have e : t.redistributeOne m p = { t with
          devicePartitions :=
            update t.devicePartitions target (some (t.deviceList target ++ [p]))
          partitionToDevice := update t.partitionToDevice key (some target)
          }.modify p fun info => { info with ownerDeviceId := target, state := .idle } := by
        simp [redistributeOne, hkey, hm]
      rw [e]
      refine ⟨keyOf_modify (f := fun info => { info with ownerDeviceId := target, state := .idle })
        _ (fun _ => rfl) p, rfl, rfl, fun d => ?_, fun k => ?_, fun hne d => ?_⟩
      · refine (getD_update _ _ _ _).trans ?_
        by_cases hd : d = target
        · simp [hd, hm]
        · simp [hd, hm, Ne.symm hd, deviceList]
      · refine (update_apply ..).trans ?_
        by_cases hk : k = key
        · simp [hk, hm]
        · simp [hk, Ne.symm hk]
      · exact update_ne (by simp) hne d

/-- What the whole loop does: each listed partition that the policy gives a device is added to the
list of the device. -/
theorem foldl_redistributeOne (m : K → Option Int) (ps : List Nat) :
    let t' := ps.foldl (redistributeOne · m) t
    t'.keyOf = t.keyOf ∧ t'.partitionsSet = t.partitionsSet ∧ t'.partitionMap = t.partitionMap ∧
      (∀ d, t'.deviceList d =
        t.deviceList d ++ ps.filter fun p => (t.keyOf p).bind m = some d) ∧
      (∀ k, t'.partitionToDevice k =
        if ∃ p ∈ ps, t.keyOf p = some k then (m k).or (t.partitionToDevice k)
        else t.partitionToDevice k) ∧
      ((∀ d, t.devicePartitions d ≠ some []) → ∀ d, t'.devicePartitions d ≠ some []) := by
  induction ps generalizing t with
  | nil => simp
  | cons p ps ih =>
    obtain ⟨h₁, h₂, h₃, h₄, h₅, h₆⟩ := ih (t := t.redistributeOne m p)
    obtain ⟨e₁, e₂, e₃, e₄, e₅, e₆⟩ := t.redistributeOne_spec m p
    rw [e₁] at h₁ h₄ h₅
    rw [foldl_cons]
    refine ⟨h₁, h₂.trans e₂, h₃.trans e₃, fun d => ?_, fun k => ?_, fun hne => h₆ (e₆ hne)⟩
    · rw [h₄, e₄, append_assoc, filter_cons]
      by_cases hp : (t.keyOf p).bind m = some d <;> simp [hp]
    · rw [h₅, e₅]
      simp only [exists_mem_cons_iff]
      by_cases hp : t.keyOf p = some k
      · cases m k <;> simp [hp]
      · simp [hp]

/-- The redistribution moves nothing, or every partition in the list of the failed device is idle
and gets another device. -/
def RedistributeOk (t : PartitionTracker K) (failed : Int) (m : K → Option Int) : Prop :=
  (∀ p ∈ t.deviceList failed, t.stateOf p ≠ some .idle) ∨
    ∀ p ∈ t.deviceList failed, t.stateOf p = some .idle ∧
      (t.keyOf p).bind m ≠ none ∧ (t.keyOf p).bind m ≠ some failed

instance (t : PartitionTracker K) (failed : Int) (m : K → Option Int) :
    Decidable (RedistributeOk t failed m) :=
  inferInstanceAs (Decidable (_ ∨ _))

/-- The map after the policy `m` gave the partitions of `failed` their new devices. -/
def redistributed (a : K → Option (Nat × Int)) (failed : Int) (m : K → Option Int) (k : K) :
    Option (Nat × Int) :=
  (a k).bind fun e => if e.2 = failed then (m k).map fun d => (e.1, d) else some e

section Redistributed
variable {failed : Int} {m : K → Option Int}

omit [DecidableEq K]

theorem redistributed_failed (hk : a k = some (p, failed)) :
    redistributed a failed m k = (m k).map fun d => (p, d) := by
  rw [redistributed, hk, Option.bind_some, if_pos rfl]

theorem redistributed_other (hk : ∀ p, a k ≠ some (p, failed)) :
    redistributed a failed m k = a k := by
  unfold redistributed
  cases hak : a k with
  | none => rfl
  | some e => rw [Option.bind_some, if_neg fun he => hk e.1 (by rw [hak, ← he])]

theorem redistributed_eq_some :
    redistributed a failed m k = some (p, d) ↔
      (a k = some (p, failed) ∧ m k = some d) ∨ (a k = some (p, d) ∧ d ≠ failed) := by
  by_cases hf : ∃ p', a k = some (p', failed)
  · obtain ⟨p', hk⟩ := hf
    rw [redistributed_failed hk, hk]
    simp only [Option.map_eq_some_iff, Prod.mk.injEq, Option.some.injEq]
    grind
  · rw [redistributed_other (not_exists.mp hf)]
    refine ⟨fun hk => .inr ⟨hk, ?_⟩, ?_⟩
    · rintro rfl
      exact hf ⟨p, hk⟩
    · rintro (⟨hk, -⟩ | ⟨hk, -⟩)
      · exact absurd ⟨p, hk⟩ hf
      · exact hk

end Redistributed

/-- With a policy that has another device for each partition in the list of the failed device, and
where all of them are idle. -/
theorem Represents.redistribute_all (h : Represents t a) (hnil : t.deviceList failed ≠ [])
    (hidle : ∀ p ∈ t.deviceList failed, t.stateOf p = some .idle)
    (hto : ∀ {k p}, a k = some (p, failed) → ∃ d, m k = some d ∧ d ≠ failed) :
    Represents (t.redistributeFailedDevicePartitions failed m) (redistributed a failed m) := by
  have hfil : (t.deviceList failed).filter (t.stateOf · = some .idle) = t.deviceList failed :=
    filter_eq_self.mpr fun p hp => by simpa using hidle p hp
  unfold redistributeFailedDevicePartitions
  simp only [hfil, hnil, if_false]
  obtain ⟨h₁, h₂, h₃, h₄, h₅, h₆⟩ := foldl_redistributeOne (t := t) m (t.deviceList failed)
  generalize (t.deviceList failed).foldl (redistributeOne · m) t = t' at h₁ h₂ h₃ h₄ h₅ h₆
  have hlist : ∀ d, (update t'.devicePartitions failed none d).getD [] =
      if d = failed then [] else t'.deviceList d := fun d => getD_update _ _ _ _
  refine h.moved h₁ h₂ h₃ (fun k => ?_) (fun k => ?_) (fun d => ?_) (fun d p => ?_) fun d => ?_
  · by_cases hk : ∃ p, a k = some (p, failed)
    · obtain ⟨p, hk⟩ := hk
      obtain ⟨d, hm, -⟩ := hto hk
      rw [redistributed_failed hk, hk, hm]
      rfl
    · rw [redistributed_other (not_exists.mp hk)]
  · rw [h₅]
    split
    next hk =>
      obtain ⟨p, hk⟩ := h.exists_listed_key.mp hk
      obtain ⟨d, hm, -⟩ := hto hk
      rw [redistributed_failed hk, hm]
      rfl
    next hk =>
      rw [redistributed_other fun p hp => hk (h.exists_listed_key.mpr ⟨p, hp⟩), h.device_eq]
  · show ((update t'.devicePartitions failed none d).getD []).Nodup
    rw [hlist]
    split
    · exact nodup_nil
    next hd =>
      rw [h₄]
      refine List.nodup_append.mpr ⟨h.list_nodup d, (h.list_nodup failed).filter _, ?_⟩
      rintro p hp q hq rfl
      obtain ⟨k, hk⟩ := (h.mem_list d p).mp hp
      obtain ⟨k', hk'⟩ := (h.mem_list failed p).mp (mem_filter.mp hq).1
      exact hd (h.device_inj hk hk')
  · show p ∈ (update t'.devicePartitions failed none d).getD [] ↔ _
    rw [hlist]
    simp only [redistributed_eq_some]
    split
    next hd =>
      subst hd
      simp only [not_mem_nil, ne_eq, not_true_eq_false, and_false, or_false, false_iff,
        not_exists, not_and]
      intro k hk hm
      obtain ⟨d', hm', hne⟩ := hto hk
      exact hne (Option.some.inj (hm'.symm.trans hm))
    next hd =>
      rw [h₄, mem_append, mem_filter, h.mem_list, h.mem_list]
      constructor
      · rintro (⟨k, hk⟩ | ⟨⟨k, hk⟩, hm⟩)
        · exact ⟨k, .inr ⟨hk, hd⟩⟩
        · rw [decide_eq_true_eq, h.key_eq hk, Option.bind_some] at hm
          exact ⟨k, .inl ⟨hk, hm⟩⟩
      · rintro ⟨k, ⟨hk, hm⟩ | ⟨hk, -⟩⟩
        · exact .inr ⟨⟨k, hk⟩, by simp [h.key_eq hk, hm]⟩
        · exact .inl ⟨k, hk⟩
  · exact update_ne (by simp) (h₆ h.no_empty) d

theorem Represents.redistribute (h : Represents t a) (hok : RedistributeOk t failed m) :
    ∃ a', Represents (t.redistributeFailedDevicePartitions failed m) a' := by
  by_cases hnil : (t.deviceList failed).filter (t.stateOf · = some .idle) = []
  · exact ⟨a, by simpa [redistributeFailedDevicePartitions, hnil] using h⟩
  -- Something is moved, so everything is.
  have hall := hok.resolve_left fun hno => hnil (filter_eq_nil_iff.mpr fun p hp => by
    simpa using hno p hp)
  refine ⟨_, h.redistribute_all (fun e => hnil (by rw [e]; rfl)) (fun p hp => (hall p hp).1) ?_⟩
  intro k p hk
  obtain ⟨-, h₁, h₂⟩ := hall p ((h.mem_list failed p).mpr ⟨k, hk⟩)
  rw [h.key_eq hk, Option.bind_some] at h₁ h₂
  obtain ⟨d, hd⟩ := Option.ne_none_iff_exists'.mp h₁
  exact ⟨d, hd, fun e => h₂ (e ▸ hd)⟩

/-- **The exact condition of a redistribution.** From consistent indexes it leads to consistent
indexes exactly when it moves nothing or everything. -/
theorem redistribute_consistent_iff (h : Consistent t) (failed : Int) (m : K → Option Int) :
    Consistent (t.redistributeFailedDevicePartitions failed m) ↔ RedistributeOk t failed m := by
  have hr := h.represents
  refine ⟨fun hc => ?_, fun hok => consistent_iff.mpr (hr.redistribute hok)⟩
  by_contra hno
  simp only [RedistributeOk, not_or, not_forall] at hno
  obtain ⟨⟨q, hq, hqi⟩, p, hp, hbad⟩ := hno
  obtain ⟨k, hk⟩ := (hr.mem_list failed p).mp hp
  have hnil : (t.deviceList failed).filter (t.stateOf · = some .idle) ≠ [] :=
    ne_nil_of_mem (mem_filter.mpr ⟨hq, by simpa using hqi⟩)
  have hmp : t.partitionMap k = some p := hr.map_some.mpr ⟨failed, hk⟩
  have hdv : t.partitionToDevice k = some failed := hr.device_some.mpr ⟨p, hk⟩
  unfold redistributeFailedDevicePartitions at hc
  simp only [hnil, if_false] at hc
  obtain ⟨h₁, h₂, h₃, h₄, h₅, h₆⟩ := foldl_redistributeOne (t := t) m
    ((t.deviceList failed).filter (t.stateOf · = some .idle))
  generalize List.foldl (redistributeOne · m) t _ = t' at h₁ h₂ h₃ h₄ h₅ h₆ hc
  obtain ⟨d, hd, hcount, -⟩ := hc.device (k := k) (p := p) (by simpa [h₃] using hmp)
  -- The partition stays with the failed device, whose list is gone.
  have hfailed : d = failed := by
    have hd' : t'.partitionToDevice k = some d := hd
    rw [h₅] at hd'
    split at hd'
    next he =>
      obtain ⟨p', hp', hk'⟩ := he
      obtain ⟨hp', hidle⟩ := mem_filter.mp hp'
      obtain ⟨k₂, hk₂⟩ := (hr.mem_list failed p').mp hp'
      obtain rfl : p' = p := (hr.keyOf_eq_iff hk ⟨k₂, failed, hk₂⟩).mp hk'
      rw [hk', Option.bind_some] at hbad
      rw [hdv] at hd'
      cases hm : m k with
      | none => simpa [hm, eq_comm] using hd'
      | some e =>
        obtain rfl : e = d := by simpa [hm] using hd'
        by_contra hne
        exact hbad ⟨by simpa using hidle, by simp [hm], by simpa [hm] using hne⟩
    next => exact (Option.some.inj (hdv.symm.trans hd')).symm
  have hlist : (update t'.devicePartitions failed none d).getD [] = [] := by
    rw [getD_update, if_pos hfailed]
    rfl
  simp only [deviceList, hlist, count_nil] at hcount
  exact absurd hcount (by decide)

/-! ## Whole runs -/

/-- `AddPartition` is called with keys that are not tracked. -/
def Enabled (t : PartitionTracker K) : Op K → Prop
  | .addPartition _ k _ _ => t.partitionMap k = none
  | _ => True

/-- A call that keeps the indexes together: every redistribution moves nothing or everything. -/
def KeepsIndexes (t : PartitionTracker K) : Op K → Prop
  | .redistributeFailedDevicePartitions failed m => RedistributeOk t failed m
  | _ => True

instance (t : PartitionTracker K) : ∀ op, Decidable (Enabled t op)
  | .addPartition _ k _ _ => inferInstanceAs (Decidable (t.partitionMap k = none))
  | .removePartition .. | .removePartitionByKey .. | .reassignPartitionToDevice ..
  | .markDevicePartitionsFailed .. | .markPartitionRunning .. | .markPartitionFinished ..
  | .markPartitionFailed .. | .markPartitionIdle .. | .markDevicePartitionsRunning ..
  | .claimIdlePartitions | .redistributeFailedDevicePartitions .. | .clearDevicePartitions ..
  | .reset => .isTrue trivial

instance (t : PartitionTracker K) : ∀ op, Decidable (KeepsIndexes t op)
  | .redistributeFailedDevicePartitions failed m =>
    inferInstanceAs (Decidable (RedistributeOk t failed m))
  | .addPartition .. | .removePartition .. | .removePartitionByKey ..
  | .reassignPartitionToDevice .. | .markDevicePartitionsFailed .. | .markPartitionRunning ..
  | .markPartitionFinished .. | .markPartitionFailed .. | .markPartitionIdle ..
  | .markDevicePartitionsRunning .. | .claimIdlePartitions | .clearDevicePartitions ..
  | .reset => .isTrue trivial

/-- One call. -/
theorem Consistent.apply (h : Consistent t) {op : Op K} (hen : Enabled t op)
    (hok : KeepsIndexes t op) : Consistent (t.apply op) := by
  obtain ⟨a, h⟩ := consistent_iff.mp h
  cases op with
  | addPartition d k oid part => exact (h.addPartition hen d oid part).consistent
  | removePartition d k => exact (h.removePartition d k).consistent
  | removePartitionByKey k => exact (h.removePartitionByKey k).consistent
  | reassignPartitionToDevice k d => exact (h.reassignPartitionToDevice k d).consistent
  | markDevicePartitionsFailed d => exact (h.markDevicePartitionsFailed d).consistent
  | markPartitionRunning k => exact (h.markPartition .running k).consistent
  | markPartitionFinished k => exact (h.markPartition .finished k).consistent
  | markPartitionFailed k => exact (h.markPartition .idle k).consistent
  | markPartitionIdle k => exact (h.markPartition .idle k).consistent
  | markDevicePartitionsRunning d => exact (h.markDevicePartitionsRunning d).consistent
  | claimIdlePartitions => exact (h.foldl_claimOne (s := ([], t)) t.partitionsSet).consistent
  | redistributeFailedDevicePartitions failed m =>
    exact (redistribute_consistent_iff h.consistent failed m).mpr hok
  | clearDevicePartitions d => exact (h.clearDevicePartitions d).consistent
  | reset => exact (represents_empty t.heap).consistent

/-- **The representation invariant of the tracker.** From the empty tracker, the indexes agree after
every call of a run exactly when every redistribution of the run moves nothing or everything. -/
theorem indexes_agree_iff (ops : List (Op K)) (hen : Run.Along apply Enabled {} ops) :
    Run.Always apply Consistent ({} : PartitionTracker K) ops ↔
      Run.Along apply KeepsIndexes {} ops := by
  refine Run.always_iff_along (J := Consistent) (fun _ h => h) (fun t op h => h.apply) ?_ hen
    (represents_empty []).consistent
  intro t op h hen hc
  cases op with
  | redistributeFailedDevicePartitions failed m => exact (redistribute_consistent_iff h failed m).mp hc
  | _ => trivial

/-- A running partition and an idle one on device 1, which fails; the policy moves the idle one to
device 2. -/
def runningLost (part : MatrixPartition DataPtr) : List (Op String) :=
  [.addPartition 1 "a" 0 part, .addPartition 1 "b" 0 part, .markPartitionRunning "a",
    .redistributeFailedDevicePartitions 1 fun _ => some 2]

/-- The running partition is left in no list. -/
theorem runningLost_not_consistent : ∃ part,
    Run.Along apply Enabled {} (runningLost part) ∧
      ¬ Consistent (Run.exec apply {} (runningLost part)) := by
  refine ⟨⟨0, 0, 0, 0, 1, 0, 0, 0, []⟩, by decide, fun h => ?_⟩
  obtain ⟨d, hd, hc, -⟩ := h.device (k := "a") (p := 0) (by decide)
  obtain rfl : 1 = d := Option.some.inj hd
  revert hc
  decide

/-- The same failure after the running partition went back to idle. -/
theorem idle_redistributed : ∃ part, Run.Always apply Consistent ({} : PartitionTracker String)
    [.addPartition 1 "a" 0 part, .addPartition 1 "b" 0 part, .markPartitionRunning "a",
      .markDevicePartitionsFailed 1, .redistributeFailedDevicePartitions 1 fun _ => some 2] :=
  ⟨⟨0, 0, 0, 0, 1, 0, 0, 0, []⟩, (indexes_agree_iff _ (by decide)).mpr (by decide)⟩

end Morphling.PartitionTracker
