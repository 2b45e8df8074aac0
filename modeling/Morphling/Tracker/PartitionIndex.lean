import Morphling.Tracker.PartitionView

/-!
# The maps by key of the partition tracker

Where a key may be added twice, the four indexes need not agree. What stays true of the two maps by
key is `Indexed`: a key that is in one of them is in the other, and its object is the key's own. All
operations of the server between the dispatch and the answer of a partition keep it.
-/

namespace Morphling.PartitionTracker

open Function

variable {K : Type*} {t t' : PartitionTracker K} {k : K} {f : PartitionInfo K → PartitionInfo K}

/-- The two maps by key have the same keys, and objects of these keys. -/
structure Indexed (t : PartitionTracker K) : Prop where
  device_iff : ∀ k, t.partitionToDevice k = none ↔ t.partitionMap k = none
  key : ∀ {k p}, t.partitionMap k = some p → t.keyOf p = some k

theorem Indexed.find_eq_none_iff (h : Indexed t) : t.find k = none ↔ t.partitionMap k = none := by
  unfold find
  cases hp : t.partitionMap k with
  | none => simp
  | some p =>
    obtain ⟨info, hi, -⟩ := Option.map_eq_some_iff.mp (h.key hp)
    simp [hi]

/-- The label of the object of a tracked key. -/
theorem Indexed.labelOf_of_find (h : Indexed t) {info : PartitionInfo K}
    (hf : t.find k = some info) : ∃ p, t.labelOf p = some (info.oid, k) := by
  obtain ⟨p, hp, hi⟩ := Option.bind_eq_some_iff.mp hf
  have hkey := h.key hp
  simp only [keyOf, hi, Option.map_some, Option.some.injEq] at hkey
  exact ⟨p, by simp [labelOf, hi, hkey]⟩

/-- An operation that keeps the labels and the first map. -/
theorem Indexed.congr (h : Indexed t) (hlabel : t'.labelOf = t.labelOf)
    (hmap : t'.partitionMap = t.partitionMap)
    (hdev : ∀ k, t'.partitionToDevice k = none ↔ t.partitionToDevice k = none) : Indexed t' where
  device_iff k := by rw [hdev, h.device_iff, hmap]
  key hp := by rw [keyOf_congr hlabel]; exact h.key (hmap ▸ hp)

theorem partitionToDevice_foldl_modify (ps : List Nat) :
    (ps.foldl (fun t p => t.modify p f) t).partitionToDevice = t.partitionToDevice := by
  induction ps generalizing t with
  | nil => rfl
  | cons p ps ih => exact ih

theorem foldl_claimOne_fields (ps : List Nat) (s : List Nat × PartitionTracker K) :
    (ps.foldl claimOne s).2.labelOf = s.2.labelOf ∧
      (ps.foldl claimOne s).2.partitionMap = s.2.partitionMap ∧
      (ps.foldl claimOne s).2.partitionToDevice = s.2.partitionToDevice := by
  induction ps generalizing s with
  | nil => exact ⟨rfl, rfl, rfl⟩
  | cons p ps ih =>
    rw [List.foldl_cons]
    obtain ⟨hl, hm, hd⟩ := ih (claimOne s p)
    rw [hl, hm, hd]
    unfold claimOne
    split
    · exact ⟨labelOf_modify (f := fun info => { info with state := .running })
        (fun _ => ⟨rfl, rfl⟩) p, rfl, rfl⟩
    · exact ⟨rfl, rfl, rfl⟩

theorem Indexed.foldl_modify (h : Indexed t) (hf : ∀ i, (f i).oid = i.oid ∧ (f i).key = i.key)
    (ps : List Nat) :
    Indexed (ps.foldl (fun t p => t.modify p f) t) ∧
      (ps.foldl (fun t p => t.modify p f) t).labelOf = t.labelOf :=
  ⟨h.congr (labelOf_foldl_modify hf ps) (partitionMap_foldl_modify ps)
    fun k => by rw [partitionToDevice_foldl_modify], labelOf_foldl_modify hf ps⟩

theorem Indexed.claimIdlePartitions (h : Indexed t) :
    Indexed t.claimIdlePartitions.2 ∧ t.claimIdlePartitions.2.labelOf = t.labelOf := by
  obtain ⟨hlabel, hmap, hdev⟩ := foldl_claimOne_fields t.partitionsSet ([], t)
  exact ⟨h.congr hlabel hmap fun k => by rw [PartitionTracker.claimIdlePartitions, hdev], hlabel⟩

theorem partitionToDevice_markPartition (st : PartitionState) (k : K) :
    (t.markPartition st k).partitionToDevice = t.partitionToDevice := by
  unfold markPartition
  split <;> rfl

theorem Indexed.markPartition (h : Indexed t) (st : PartitionState) (k : K) :
    Indexed (t.markPartition st k) :=
  h.congr (labelOf_markPartition st) (partitionMap_markPartition st)
    fun k' => by rw [partitionToDevice_markPartition]

variable [DecidableEq K]

theorem detach_fields (t : PartitionTracker K) (k : K) :
    (t.detach k).heap = t.heap ∧ (t.detach k).partitionMap = t.partitionMap ∧
      (t.detach k).partitionToDevice = t.partitionToDevice := by
  unfold detach
  split
  · exact ⟨rfl, rfl, rfl⟩
  · split <;> exact ⟨rfl, rfl, rfl⟩

theorem Indexed.addPartition (h : Indexed t) (d oid : Int) (k : K)
    (part : MatrixPartition DataPtr) : Indexed (t.addPartition d k oid part) where
  device_iff k' := by
    by_cases hk : k' = k
    · simp [PartitionTracker.addPartition, hk]
    · simp [PartitionTracker.addPartition, update_of_ne hk, h.device_iff]
  key {k' p} hp := by
    rw [keyOf_eq_labelOf, labelOf_addPartition]
    by_cases hk : k' = k
    · obtain rfl : t.heap.length = p := by
        simpa [PartitionTracker.addPartition, hk] using hp
      simp [hk]
    · have hp : t.partitionMap k' = some p := by
        simpa [PartitionTracker.addPartition, update_of_ne hk] using hp
      have hkey := h.key hp
      have hne : p ≠ t.heap.length := by
        rintro rfl
        simp [keyOf] at hkey
      rw [if_neg hne, ← keyOf_eq_labelOf, hkey]

/-- `RemovePartitionByKey` takes the key out of both maps. -/
theorem Indexed.removePartitionByKey_fields (h : Indexed t) (k : K) :
    (t.removePartitionByKey k).partitionMap = update t.partitionMap k none ∧
      (t.removePartitionByKey k).partitionToDevice =
        update t.partitionToDevice k none := by
  unfold removePartitionByKey
  cases hd : t.partitionToDevice k with
  | none =>
    rw [update_eq_self_iff.mpr hd.symm,
      update_eq_self_iff.mpr ((h.device_iff k).mp hd).symm]
    exact ⟨rfl, rfl⟩
  | some d =>
    obtain ⟨p, hp⟩ : ∃ p, t.partitionMap k = some p := by
      refine Option.ne_none_iff_exists'.mp fun hp => ?_
      simp [(h.device_iff k).mpr hp] at hd
    simp only [hp]
    split
    · exact ⟨rfl, rfl⟩
    · split <;> exact ⟨rfl, rfl⟩

theorem Indexed.removePartitionByKey (h : Indexed t) (k : K) :
    Indexed (t.removePartitionByKey k) := by
  obtain ⟨hmap, hdev⟩ := h.removePartitionByKey_fields k
  constructor
  · intro k'
    rw [hmap, hdev]
    by_cases hk : k' = k
    · simp [hk]
    · simp [update_of_ne hk, h.device_iff]
  · intro k' p hp
    rw [keyOf_congr labelOf_removePartitionByKey]
    rw [hmap] at hp
    by_cases hk : k' = k
    · simp [hk] at hp
    · exact h.key (by rwa [update_of_ne hk] at hp)

theorem Indexed.reassignPartitionToDevice (h : Indexed t) (k : K) (d : Int) :
    Indexed (t.reassignPartitionToDevice k d).2 ∧
      (t.reassignPartitionToDevice k d).2.labelOf = t.labelOf := by
  obtain ⟨hheap, hmap, hdev⟩ := t.detach_fields k
  unfold PartitionTracker.reassignPartitionToDevice
  cases hp : t.partitionMap k with
  | none => exact ⟨h, rfl⟩
  | some p =>
    have hlabel := (labelOf_modify (t := { t.detach k with
      devicePartitions := update (t.detach k).devicePartitions d
        (some (((t.detach k).deviceList d).filter ((t.detach k).keyOf · ≠ some k) ++ [p]))
      partitionToDevice := update (t.detach k).partitionToDevice k (some d) })
      (f := fun info => { info with
        ownerDeviceId := d, partition := { info.partition with devId := d } })
      (fun _ => ⟨rfl, rfl⟩) p)
    have hlabel' := hlabel.trans (show _ = t.labelOf by funext q; simp only [labelOf, hheap])
    refine ⟨h.congr hlabel' hmap fun k' => ?_, hlabel'⟩
    by_cases hk : k' = k
    · have hne : t.partitionToDevice k ≠ none := by simp [h.device_iff, hp]
      simp [modify, hk, hne]
    · simp [modify, update_of_ne hk, hdev]

end Morphling.PartitionTracker
