import Mathlib.Algebra.Ring.Nat
import Mathlib.Data.List.Nodup
import Mathlib.Data.List.TakeWhile

/-!
# The cache of bounded size (`core/lru.h`)

`FixSizeLRUCache`: values with their sizes under keys, and the keys in the order of their last use.
`put` evicts from the front of that order until the new value fits, or nothing is left; it then
inserts the value, whether it fits or not.

* `Evicts itemSize k`: the entries used at `k` or later leave no room for `itemSize` bytes. These
  are the entries that an insertion evicts (`put_spec`).
* `Wf`: the order has every key once, and `currentBytes` counts the entries.

Byte counts are natural numbers; `size_t` does not overflow.
-/

namespace Morphling

open List Function

/-- `FixSizeLRUCache<KeyType, ValueType>`; `sizeofKey` is `sizeof(KeyType)`. -/
structure FixSizeLRUCache (K V : Type*) where
  sizeofKey : Nat
  maxBytes : Nat
  currentBytes : Nat := 0
  lru : List K := []
  cache : K → Option (V × Nat) := fun _ => none

namespace FixSizeLRUCache

section Bytes
variable {K V : Type*} (c : FixSizeLRUCache K V)

/-- The bytes counted for a key: `sizeof(KeyType)` and the size of its value. -/
def bytesAt (k : K) : Nat := c.sizeofKey + ((c.cache k).map Prod.snd).getD 0

/-- The bytes counted for some keys. -/
def bytesOf (ks : List K) : Nat := (ks.map c.bytesAt).sum

variable {c} {ks : List K}

@[simp] theorem bytesOf_cons (k : K) (ks : List K) :
    c.bytesOf (k :: ks) = c.bytesAt k + c.bytesOf ks := by
  simp [bytesOf]

@[simp] theorem bytesOf_append (ks ks' : List K) :
    c.bytesOf (ks ++ ks') = c.bytesOf ks + c.bytesOf ks' := by
  simp [bytesOf]

theorem bytesOf_congr {c' : FixSizeLRUCache K V} (h : ∀ k ∈ ks, c.bytesAt k = c'.bytesAt k) :
    c.bytesOf ks = c'.bytesOf ks := by
  rw [bytesOf, map_congr_left h, bytesOf]

theorem bytesOf_perm {ks' : List K} (h : ks.Perm ks') : c.bytesOf ks = c.bytesOf ks' :=
  (h.map c.bytesAt).sum_nat

variable (c)

/-- The order has the key of every entry once, and the bytes are counted. -/
structure Wf : Prop where
  nodup : c.lru.Nodup
  mem_lru : ∀ k, k ∈ c.lru ↔ (c.cache k).isSome
  bytes : c.currentBytes = c.bytesOf c.lru

/-- An empty cache. -/
theorem wf_mk (sizeofKey maxBytes : Nat) :
    Wf ({ sizeofKey := sizeofKey, maxBytes := maxBytes } : FixSizeLRUCache K V) where
  nodup := nodup_nil
  mem_lru := by simp
  bytes := rfl

end Bytes

variable {K V : Type*} [DecidableEq K] (c : FixSizeLRUCache K V)

/-! ## The operations -/

def exist (k : K) : Bool := (c.cache k).isSome

/-- `Get`; `none` where it throws. -/
def get (k : K) : Option (V × FixSizeLRUCache K V) :=
  (c.cache k).map fun e => (e.1, { c with lru := c.lru.erase k ++ [k] })

/-- An entry leaves the cache. `cache_[old_key]` of a key without entry would be a default value of
size 0, which has nothing to delete. -/
def drop (k : K) : FixSizeLRUCache K V :=
  { c with
    currentBytes := c.currentBytes - c.bytesAt k
    lru := c.lru.erase k
    cache := update c.cache k none }

/-- The value that the deleter is called with when the entry of a key leaves. -/
def deleted (k : K) : List V := ((c.cache k).map Prod.fst).toList

/-- The loop of `Put` that evicts: over the keys of `lru_` from its front. -/
def evict (itemSize : Nat) : List K → FixSizeLRUCache K V → FixSizeLRUCache K V × List V
  | [], c => (c, [])
  | oldKey :: lru, c =>
    if c.currentBytes + itemSize > c.maxBytes then
      let (c', values) := evict itemSize lru (c.drop oldKey)
      (c', c.deleted oldKey ++ values)
    else (c, [])

/-- A new entry at the back of the list. -/
def push (k : K) (value : V) (valueSize : Nat) : FixSizeLRUCache K V :=
  { c with
    currentBytes := c.currentBytes + (c.sizeofKey + valueSize)
    lru := c.lru ++ [k]
    cache := update c.cache k (some (value, valueSize)) }

/-- `Put`: the cache, and the values that the deleter was called with. -/
def put (k : K) (value : V) (valueSize : Nat) : FixSizeLRUCache K V × List V :=
  let itemSize := c.sizeofKey + valueSize
  let (c, old) := if c.exist k then (c.drop k, c.deleted k) else (c, [])
  let (c, evicted) := evict itemSize c.lru c
  (c.push k value valueSize, old ++ evicted)

/-! ## Which entries are evicted -/

/-- The bytes of the entry of `k` and of those used after it. -/
def bytesFrom (k : K) : Nat := c.bytesOf (c.lru.dropWhile (· ≠ k))

/-- Without room for `itemSize` bytes beside `k` and the entries used after it, `k` has to go. -/
def Evicts (itemSize : Nat) (k : K) : Prop :=
  k ∈ c.lru ∧ c.maxBytes < c.bytesFrom k + itemSize

instance (itemSize : Nat) (k : K) : Decidable (c.Evicts itemSize k) :=
  inferInstanceAs (Decidable (_ ∧ _))

variable {c} {k k' : K} {itemSize valueSize : Nat} {v : V} {rest : List K}
  {r : FixSizeLRUCache K V × List V}

theorem bytesFrom_le (k : K) : c.bytesFrom k ≤ c.bytesOf c.lru := by
  have h := c.bytesOf_append (c.lru.takeWhile (· ≠ k)) (c.lru.dropWhile (· ≠ k))
  rw [takeWhile_append_dropWhile] at h
  exact h ▸ Nat.le_add_left _ _

/-- The entries in front of `k` in the order do not count. -/
theorem bytesFrom_eq (l₁ : List K) {l₂ : List K} (hl : c.lru = l₁ ++ l₂) (hk : k ∉ l₁) :
    c.bytesFrom k = c.bytesOf (l₂.dropWhile (· ≠ k)) := by
  have hne : ∀ x ∈ l₁, decide (x ≠ k) = true := fun x hx => by
    simp only [ne_eq, decide_not, Bool.not_eq_true', decide_eq_false_iff_not]
    exact fun h => hk (h ▸ hx)
  rw [bytesFrom, hl, dropWhile_append_of_pos hne]

theorem lru_drop (hl : c.lru = k :: rest) : (c.drop k).lru = rest := by
  change c.lru.erase k = rest
  rw [hl, erase_cons_head]

theorem cache_drop (hk : k' ≠ k) : (c.drop k).cache k' = c.cache k' := update_of_ne hk ..

theorem bytesAt_drop (hk : k' ≠ k) : (c.drop k).bytesAt k' = c.bytesAt k' := by
  rw [bytesAt, cache_drop hk]
  rfl

namespace Wf

/-- Where everything fits, nothing is evicted. -/
theorem not_evicts (hc : c.Wf) (hroom : c.currentBytes + itemSize ≤ c.maxBytes) :
    ¬ c.Evicts itemSize k := by
  rintro ⟨-, hlt⟩
  have := c.bytesFrom_le k
  rw [← hc.bytes] at this
  omega

theorem get (hc : c.Wf) {c' : FixSizeLRUCache K V} (h : c.get k = some (v, c')) : c'.Wf := by
  obtain ⟨e, he, hc'⟩ := Option.map_eq_some_iff.mp h
  obtain ⟨-, rfl⟩ := Prod.ext_iff.mp hc'
  have hk : k ∈ c.lru := (hc.mem_lru k).mpr (by rw [he]; rfl)
  have hperm : (c.lru.erase k ++ [k]).Perm c.lru :=
    (perm_append_singleton _ _).trans (List.perm_cons_erase hk).symm
  exact
    { nodup := hperm.nodup_iff.mpr hc.nodup
      mem_lru := fun j => by rw [hperm.mem_iff]; exact hc.mem_lru j
      bytes := by rw [hc.bytes]; exact bytesOf_perm hperm.symm }

theorem drop (hc : c.Wf) (hk : k ∈ c.lru) : (c.drop k).Wf where
  nodup := hc.nodup.erase k
  mem_lru j := by
    change j ∈ c.lru.erase k ↔ (update c.cache k none j).isSome
    rw [hc.nodup.mem_erase_iff, hc.mem_lru]
    by_cases hj : j = k
    · simp [hj]
    · simp [hj]
  bytes := by
    have hsum := bytesOf_perm (c := c) (List.perm_cons_erase hk)
    have hrest : (c.drop k).bytesOf (c.lru.erase k) = c.bytesOf (c.lru.erase k) := by
      refine bytesOf_congr fun j hj => bytesAt_drop ?_
      exact fun h => hc.nodup.not_mem_erase (h ▸ hj)
    change c.currentBytes - c.bytesAt k = (c.drop k).bytesOf (c.lru.erase k)
    rw [hrest, hc.bytes, hsum, bytesOf_cons]
    omega

end Wf

/-- What the loop that evicts does to a cache. -/
structure Evicted (c : FixSizeLRUCache K V) (itemSize : Nat) (r : FixSizeLRUCache K V × List V) :
    Prop where
  wf : r.1.Wf
  sizeofKey : r.1.sizeofKey = c.sizeofKey
  maxBytes : r.1.maxBytes = c.maxBytes
  lru : ∃ l, c.lru = l ++ r.1.lru ∧ ∀ k ∈ l, c.Evicts itemSize k
  cache : ∀ k, r.1.cache k = if c.Evicts itemSize k then none else c.cache k
  deleted : ∀ v, v ∈ r.2 ↔ ∃ k n, c.Evicts itemSize k ∧ c.cache k = some (v, n)

/-- The key at the front is evicted if the whole cache leaves no room. -/
theorem Wf.evicts_head (hc : c.Wf) (itemSize : Nat) (hl : c.lru = k :: rest) :
    c.Evicts itemSize k ↔ c.currentBytes + itemSize > c.maxBytes := by
  have hfrom : c.bytesFrom k = c.currentBytes := by
    rw [hc.bytes, hl, bytesFrom_eq [] hl (by simp)]
    simp
  rw [Evicts, hl, hfrom]
  simp

/-- Once the key at the front has left, the others are judged as before. -/
theorem Wf.evicts_drop (hc : c.Wf) (hl : c.lru = k :: rest) (hk : k' ≠ k) :
    (c.drop k).Evicts itemSize k' ↔ c.Evicts itemSize k' := by
  have hrest := lru_drop hl
  have hnot : k ∉ rest := (nodup_cons.mp (hl ▸ hc.nodup)).1
  have hfrom : (c.drop k).bytesFrom k' = c.bytesFrom k' := by
    rw [bytesFrom_eq [k] hl (by simpa using hk), bytesFrom, hrest]
    refine bytesOf_congr fun j hj => bytesAt_drop ?_
    exact fun h => hnot (h ▸ (dropWhile_sublist _).mem hj)
  rw [Evicts, Evicts, hfrom, hrest, hl]
  simp [hk, FixSizeLRUCache.drop]

theorem Wf.evict_spec (hc : c.Wf) (itemSize : Nat) :
    Evicted c itemSize (evict itemSize c.lru c) := by
  generalize hl : c.lru = l
  induction l generalizing c with
  | nil =>
    have hno : ∀ k, ¬ c.Evicts itemSize k := fun k h => by simpa [hl] using h.1
    exact
      { wf := hc
        sizeofKey := rfl
        maxBytes := rfl
        lru := ⟨[], rfl, by simp⟩
        cache := fun k => by rw [if_neg (hno k)]; rfl
        deleted := by simp [evict, hno] }
  | cons oldKey rest ih =>
    have hhead := hc.evicts_head itemSize hl
    rw [evict]
    by_cases hfull : c.currentBytes + itemSize > c.maxBytes
    · rw [if_pos hfull]
      have hold := hhead.mpr hfull
      have hrest := lru_drop hl
      have hgone : ¬ (c.drop oldKey).Evicts itemSize oldKey := fun h =>
        (nodup_cons.mp (hl ▸ hc.nodup)).1 (hrest ▸ h.1)
      have hr := ih (hc.drop (hl ▸ mem_cons_self)) hrest
      obtain ⟨pre, hpre, hev⟩ := hr.lru
      refine
        { wf := hr.wf
          sizeofKey := hr.sizeofKey
          maxBytes := hr.maxBytes
          lru := ⟨oldKey :: pre, ?_, ?_⟩
          cache := fun k => ?_
          deleted := fun v => ?_ }
      · rw [hl, cons_append, ← hpre, hrest]
      · intro k hk
        by_cases hko : k = oldKey
        · exact hko ▸ hold
        · exact (hc.evicts_drop hl hko).mp (hev k ((mem_cons.mp hk).resolve_left hko))
      · by_cases hko : k = oldKey
        · subst hko
          rw [hr.cache, if_neg hgone, if_pos hold]
          exact update_self ..
        · rw [hr.cache, if_congr (hc.evicts_drop hl hko) rfl rfl]
          simp only [cache_drop hko]
      · rw [mem_append, hr.deleted]
        constructor
        · rintro (h | ⟨k, n, hk, hcache⟩)
          · obtain ⟨n, hn⟩ := by simpa [FixSizeLRUCache.deleted] using h
            exact ⟨oldKey, n, hold, hn⟩
          · have hko : k ≠ oldKey := fun h => hgone (h ▸ hk)
            exact ⟨k, n, (hc.evicts_drop hl hko).mp hk, (cache_drop hko).symm.trans hcache⟩
        · rintro ⟨k, n, hk, hcache⟩
          by_cases hko : k = oldKey
          · subst hko
            exact .inl (by simp [FixSizeLRUCache.deleted, hcache])
          · exact .inr ⟨k, n, (hc.evicts_drop hl hko).mpr hk, (cache_drop hko).trans hcache⟩
    · rw [if_neg hfull]
      have hno : ∀ k, ¬ c.Evicts itemSize k := fun k => hc.not_evicts (by omega)
      exact
        { wf := hc
          sizeofKey := rfl
          maxBytes := rfl
          lru := ⟨[], hl ▸ rfl, by simp⟩
          cache := fun k => by rw [if_neg (hno k)]
          deleted := by simp [hno] }

/-- What is left is judged as before. -/
theorem Evicted.evicts (h : Evicted c itemSize r) (n : Nat) :
    r.1.Evicts n k ↔ ¬ c.Evicts itemSize k ∧ c.Evicts n k := by
  obtain ⟨l, hl, hev⟩ := h.lru
  have hkeep : ∀ j ∈ r.1.lru, ¬ c.Evicts itemSize j := fun j hj hgone => by
    have := (h.wf.mem_lru j).mp hj
    rw [h.cache, if_pos hgone] at this
    exact absurd this (by simp)
  by_cases hk : k ∈ r.1.lru
  · have hnot := hkeep k hk
    have hfrom : c.bytesFrom k = r.1.bytesFrom k := by
      rw [bytesFrom_eq l hl fun h => hnot (hev k h), bytesFrom]
      refine bytesOf_congr fun j hj => ?_
      rw [bytesAt, bytesAt, h.sizeofKey, h.cache,
        if_neg (hkeep j ((dropWhile_sublist _).mem hj))]
    have hk' : k ∈ c.lru := hl ▸ mem_append_right l hk
    simp only [Evicts, hk, hk', true_and, h.maxBytes, ← hfrom] at hnot ⊢
    exact ⟨fun hlt => ⟨hnot, hlt⟩, And.right⟩
  · refine iff_of_false (fun h => hk h.1) ?_
    rintro ⟨hnot, hmem, -⟩
    rw [hl, mem_append] at hmem
    exact hmem.elim (fun h => hnot (hev k h)) hk

theorem bytesAt_push_of_ne (hk : k' ≠ k) (value : V) (valueSize : Nat) :
    (c.push k value valueSize).bytesAt k' = c.bytesAt k' := by
  simp only [bytesAt, push, update_of_ne hk]

theorem Wf.push (hc : c.Wf) (hk : c.cache k = none) (value : V) (valueSize : Nat) :
    (c.push k value valueSize).Wf := by
  have hnot : k ∉ c.lru := fun h => by simpa [hk] using (hc.mem_lru k).mp h
  have hbytes : ∀ j ∈ c.lru, (c.push k value valueSize).bytesAt j = c.bytesAt j := fun j hj =>
    bytesAt_push_of_ne (ne_of_mem_of_not_mem hj hnot) ..
  refine { nodup := ?_, mem_lru := fun j => ?_, bytes := ?_ }
  · exact hc.nodup.append (nodup_singleton k) (by simpa using hnot)
  · change j ∈ c.lru ++ [k] ↔ (update c.cache k (some (value, valueSize)) j).isSome
    by_cases hj : j = k
    · simp [hj]
    · simp [hj, hc.mem_lru]
  · change c.currentBytes + (c.sizeofKey + valueSize) =
      (c.push k value valueSize).bytesOf (c.lru ++ [k])
    rw [bytesOf_append, bytesOf_congr hbytes, ← hc.bytes]
    simp [bytesOf, bytesAt, FixSizeLRUCache.push]

theorem evicts_push_self (hk : k ∉ c.lru) (value : V) (valueSize n : Nat) :
    (c.push k value valueSize).Evicts n k ↔ c.maxBytes < c.sizeofKey + valueSize + n := by
  have hfrom : (c.push k value valueSize).bytesFrom k = c.sizeofKey + valueSize := by
    rw [bytesFrom_eq c.lru rfl hk]
    simp [bytesOf, bytesAt, push]
  rw [Evicts, hfrom]
  simp [push]

/-- An entry in front of the new one has to leave room for the new one as well. -/
theorem evicts_push_of_ne (hk : k ∉ c.lru) (hne : k' ≠ k) (value : V) (valueSize n : Nat) :
    (c.push k value valueSize).Evicts n k' ↔ c.Evicts (c.sizeofKey + valueSize + n) k' := by
  by_cases hmem : k' ∈ c.lru
  · have hfrom : (c.push k value valueSize).bytesFrom k' =
        c.bytesFrom k' + (c.sizeofKey + valueSize) := by
      have hcons : (c.lru.dropWhile (· ≠ k')).isEmpty = false := by
        rw [isEmpty_eq_false_iff, ne_eq, dropWhile_eq_nil_iff]
        exact fun h => by simpa using h k' hmem
      have hsplit : (c.push k value valueSize).lru.dropWhile (· ≠ k') =
          c.lru.dropWhile (· ≠ k') ++ [k] := by
        change (c.lru ++ [k]).dropWhile (· ≠ k') = _
        rw [dropWhile_append, hcons, if_neg (by simp)]
      rw [bytesFrom, hsplit, bytesOf_append, bytesFrom]
      congr 1
      · refine bytesOf_congr fun j hj => bytesAt_push_of_ne ?_ ..
        exact fun h => hk (h ▸ (dropWhile_sublist _).mem hj)
      · simp [bytesOf, bytesAt, push]
    rw [Evicts, Evicts, hfrom]
    simp only [push, mem_append, hmem, true_or, true_and]
    omega
  · exact iff_of_false (fun h => by simpa [push, hmem, hne] using h.1) fun h => hmem h.1

/-- What `Put` does to a cache without an entry for its key; `itemSize` is what it adds. The last
two say which entries the next insertion evicts. -/
structure Inserted (c : FixSizeLRUCache K V) (k : K) (value : V) (valueSize itemSize : Nat)
    (r : FixSizeLRUCache K V × List V) : Prop where
  wf : r.1.Wf
  sizeofKey : r.1.sizeofKey = c.sizeofKey
  maxBytes : r.1.maxBytes = c.maxBytes
  cache_self : r.1.cache k = some (value, valueSize)
  cache_of_ne : ∀ j ≠ k, r.1.cache j = if c.Evicts itemSize j then none else c.cache j
  deleted : ∀ v, v ∈ r.2 ↔ ∃ j n, c.Evicts itemSize j ∧ c.cache j = some (v, n)
  evicts_self : ∀ n, r.1.Evicts n k ↔ c.maxBytes < itemSize + n
  evicts_of_ne : ∀ n, ∀ j ≠ k, r.1.Evicts n j ↔
    ¬ c.Evicts itemSize j ∧ c.Evicts (itemSize + n) j

/-- An entry after `Put` is the new one, or one that was kept. -/
theorem Inserted.of_cache {value : V} {n : Nat} (h : Inserted c k value valueSize itemSize r)
    (hk : r.1.cache k' = some (v, n)) :
    (k' = k ∧ v = value) ∨ (¬ c.Evicts itemSize k' ∧ c.cache k' = some (v, n)) := by
  by_cases hkk : k' = k
  · subst hkk
    rw [h.cache_self] at hk
    cases hk
    exact .inl ⟨rfl, rfl⟩
  · rw [h.cache_of_ne k' hkk] at hk
    by_cases hev : c.Evicts itemSize k'
    · rw [if_pos hev] at hk
      cases hk
    · rw [if_neg hev] at hk
      exact .inr ⟨hev, hk⟩

theorem Wf.put_spec (hc : c.Wf) (hk : c.exist k = false) (value : V)
    (hsize : c.sizeofKey + valueSize = itemSize) :
    Inserted c k value valueSize itemSize (c.put k value valueSize) := by
  have he := hc.evict_spec itemSize
  simp only [FixSizeLRUCache.put, hk, Bool.false_eq_true, if_false, nil_append, hsize]
  generalize evict itemSize c.lru c = r at he ⊢
  have hnone : r.1.cache k = none := by
    have : c.cache k = none := by simpa [exist] using hk
    rw [he.cache, this, ite_self]
  have hnot : k ∉ r.1.lru := fun h => by simpa [hnone] using (he.wf.mem_lru k).mp h
  rw [← he.sizeofKey] at hsize
  exact
    { wf := he.wf.push hnone ..
      sizeofKey := he.sizeofKey
      maxBytes := he.maxBytes
      cache_self := update_self ..
      cache_of_ne := fun j hj => (update_of_ne hj ..).trans (he.cache j)
      deleted := he.deleted
      evicts_self := fun n => by rw [evicts_push_self hnot, he.maxBytes, hsize]
      evicts_of_ne := fun n j hj => by rw [evicts_push_of_ne hnot hj, he.evicts, hsize] }

end FixSizeLRUCache
end Morphling
