import Morphling.Lib.Dict
import Morphling.Lib.Layout
import Mathlib.Data.List.Dedup
import Mathlib.Data.Nat.Cast.Basic

/-!
# Offsets in shared memory (`types_and_defs.py`, `checkpoint_handle.cpp`)

Parameters of one size share a region of the shared memory: room for one of them, and four bytes for
each. The offsets of the regions are computed in Python, by numpy, and in C++.

* `Cpp.laidOut`: in C++ the regions are one after the other, in any order of the maps.
* `Python.lookup_computeShmOffsets`: in Python the cumulative sums include the region itself, and the
  first one is taken off all of them, so every region begins too late by the difference of its own
  length and the first one.
* `layout_iff`: both are a layout of the shared memory exactly if all regions have one length.

A parameter is its name and its size; the other fields of its entry are left out. C++ assigns no
`shm_offset`.
-/

namespace Morphling.Checkpoint.Shm

open Layout
open List hiding beq_eq_decide
open Function

variable {N : Type} (paramMetaMap : List (N × Nat))

/-! ## What a layout is -/

def sizes : List Nat := paramMetaMap.map Prod.snd

/-- The bytes of the region of a size. -/
def regionSize (size : Nat) : Nat := size + 4 * (sizes paramMetaMap).count size

/-- The region of each size is inside the shared memory, and apart from the others. -/
structure LaidOut (shmMemSize : Nat) (offset : Nat → Option Int) : Prop where
  inside : ∀ size ∈ sizes paramMetaMap, ∃ o, offset size = some o ∧ 0 ≤ o ∧
    o + regionSize paramMetaMap size ≤ shmMemSize
  apart : ∀ size ∈ sizes paramMetaMap, ∀ size' ∈ sizes paramMetaMap, size ≠ size' →
    ∀ o ∈ offset size, ∀ o' ∈ offset size',
      o + regionSize paramMetaMap size ≤ o' ∨ o' + regionSize paramMetaMap size' ≤ o

/-- Every parameter has four bytes that no other one has. -/
def SlotsApart (slot : N → Option Int) : Prop :=
  ∀ name ∈ paramMetaMap.map Prod.fst, ∀ name' ∈ paramMetaMap.map Prod.fst, name ≠ name' →
    ∃ o ∈ slot name, ∃ o' ∈ slot name', o + 4 ≤ o' ∨ o' + 4 ≤ o

/-! ## In Python -/

namespace Python

/-- `Counter(sizes)` -/
def counter (sizes : List Nat) : List (Nat × Nat) := Dict.tally id (fun _ => 1) [] sizes

/-- An integer of numpy. -/
def int64 (x : Int) : Int := x.bmod (2 ^ 64)

def cumsumFrom (acc : Int) : List Int → List Int
  | [] => []
  | x :: xs => int64 (acc + x) :: cumsumFrom (int64 (acc + x)) xs

/-- `np.cumsum` -/
def cumsum (xs : List Int) : List Int := cumsumFrom 0 xs

/-- `compute_shm_offsets`; there is no `shm_mem_size_cum[0]` for an empty map. -/
def computeShmOffsets : Option (Nat × List (Nat × Int)) :=
  let uniqueSizesCounter := counter (sizes paramMetaMap)
  let shmMemSize := (uniqueSizesCounter.map fun e => e.1 + 4 * e.2).sum
  let shmMemSizeCum := cumsum (uniqueSizesCounter.map fun e => ((e.1 + 4 * e.2 : Nat) : Int))
  shmMemSizeCum.head?.map fun first =>
    let shmMemSizeCum := shmMemSizeCum.map fun v => int64 (v - first)
    (shmMemSize, (Dict.keys uniqueSizesCounter).zip shmMemSizeCum)

/-- `[name for name, param in param_meta_map.items() if param["size"] == size]` -/
def namesOfSize (size : Nat) : List N := (paramMetaMap.filter (·.2 = size)).map Prod.fst

/-- The loop over the names of one size. -/
def assignSlots [DecidableEq N] (offset : Int) (names : List N) (slots : N → Option Int) :
    N → Option Int :=
  names.zipIdx.foldl (fun slots p => update slots p.1 (some (offset + p.2 * 4))) slots

/-- `update_shm_offsets`: the `shm_offset` of each name. -/
def updateShmOffsets [DecidableEq N] : Option (N → Option Int) := do
  let (_, shmMemOffsets) ← computeShmOffsets paramMetaMap
  (counter (sizes paramMetaMap)).foldlM (fun slots e => do
    let offset ← shmMemOffsets.lookup e.1
    pure (assignSlots offset (namesOfSize paramMetaMap e.1) slots)) (fun _ => none)

end Python

/-! ## In C++ -/

namespace Cpp

def sizeT (n : Nat) : Nat := n % 2 ^ 64

/-- `ComputeShmOffsets`. The parameters come in the order of `param_meta_map_`; `counterOrder` and
`offsetsOrder` are the orders of the other two maps. -/
def computeShmOffsets (counterOrder offsetsOrder : List Nat) : Nat × (Nat → Option Nat) :=
  let uniqueSizesCounter :=
    Dict.group id (fun _ count => sizeT (count.getD 0 + 1)) [] (sizes paramMetaMap)
  let count := fun size => (uniqueSizesCounter.lookup size).getD 0
  let shmMemSize := counterOrder.foldl (fun sum size => sizeT (sum + (size + 4 * count size))) 0
  let shmMemOffsets := counterOrder.foldl (fun m size => update m size (some 0))
    fun _ => none
  let (shmMemOffsets, _) := offsetsOrder.foldl (fun (m, shmOffset) size =>
      (update m size (some shmOffset), sizeT (shmOffset + (size + 4 * count size))))
    (shmMemOffsets, 0)
  (shmMemSize, shmMemOffsets)

end Cpp

/-! ## The counter -/

theorem keys_nodup (sizes : List Nat) : (Dict.keys (Python.counter sizes)).Nodup :=
  Dict.nodup_keys_group id _ (m := []) nodup_nil sizes

theorem mem_keys {size : Nat} (sizes : List Nat) :
    size ∈ Dict.keys (Python.counter sizes) ↔ size ∈ sizes := by
  rw [Python.counter, Dict.tally, Dict.mem_keys_group]
  simp [Dict.keys]

theorem getD_lookup_counter (sizes : List Nat) (size : Nat) :
    ((Python.counter sizes).lookup size).getD 0 = sizes.count size := by
  rw [Python.counter, Dict.getD_lookup_tally, count_eq_length_filter]
  simp [beq_eq_decide]

theorem snd_of_mem_counter {sizes : List Nat} {e : Nat × Nat} (he : e ∈ Python.counter sizes) :
    e.2 = sizes.count e.1 := by
  rw [← getD_lookup_counter, (Dict.mem_iff_lookup (keys_nodup sizes)).mp he, Option.getD_some]

/-- The lengths that the counter gives are those of the regions. -/
theorem map_counter {β : Type} (g : Nat → β) :
    (Python.counter (sizes paramMetaMap)).map (fun e => g (e.1 + 4 * e.2)) =
      (Dict.keys (Python.counter (sizes paramMetaMap))).map fun size =>
        g (regionSize paramMetaMap size) := by
  rw [Dict.keys, map_map]
  refine map_congr_left fun e he => ?_
  rw [Function.comp_apply, regionSize, snd_of_mem_counter he]

/-! ## The offsets in Python -/

section Python
open Python

theorem int64_eq {x : Int} (h₀ : 0 ≤ x) (h : x < 2 ^ 63) : int64 x = x := by
  rw [int64, Int.bmod_eq_of_le] <;> omega

/-- The cumulative sums, as long as they fit: each one includes the length of its own key. -/
theorem lookup_zip_cumsumFrom (len : Nat → Nat) (f : Int → Int) {keys : List Nat} {k : Nat}
    (hk : k ∈ keys) (acc : Nat) (hfit : acc + total len keys < 2 ^ 63) :
    (keys.zip ((cumsumFrom acc (keys.map fun k => (len k : Int))).map f)).lookup k =
      some (f (acc + start len keys k + len k)) := by
  induction keys generalizing acc with
  | nil => exact absurd hk not_mem_nil
  | cons k₀ keys ih =>
    rw [total_cons] at hfit
    have hsum : int64 ((acc : Int) + len k₀) = ((acc + len k₀ : Nat) : Int) := by
      rw [int64_eq] <;> omega
    rw [map_cons, cumsumFrom, hsum, map_cons, zip_cons_cons, Dict.lookup_cons]
    by_cases h : k = k₀
    · rw [if_pos h, h, start_cons_self]
      simp
    · rw [if_neg h, ih ((mem_cons.mp hk).resolve_left h) _ (by omega),
        start_cons_of_ne len (Ne.symm h)]
      have hpast : ((acc + len k₀ : Nat) : Int) + start len keys k + len k =
          acc + (len k₀ + start len keys k : Nat) + len k := by omega
      rw [hpast]

variable {paramMetaMap}

theorem keys_perm (sizes : List Nat) : (Dict.keys (counter sizes)).Perm sizes.dedup :=
  (perm_ext_iff_of_nodup (keys_nodup sizes) sizes.nodup_dedup).mpr fun size => by
    rw [mem_keys, mem_dedup]

/-- The offset of a size includes its own region, and not the first one. -/
theorem lookup_computeShmOffsets (hne : paramMetaMap ≠ [])
    (hfit : total (regionSize paramMetaMap) (sizes paramMetaMap).dedup < 2 ^ 63) :
    ∃ offsets, computeShmOffsets paramMetaMap =
        some (total (regionSize paramMetaMap) (sizes paramMetaMap).dedup, offsets) ∧
      ∀ size ∈ sizes paramMetaMap, offsets.lookup size =
        some (shifted (regionSize paramMetaMap)
          (Dict.keys (counter (sizes paramMetaMap))) size) := by
  have hperm := keys_perm (sizes paramMetaMap)
  have hmem : ∀ size, size ∈ Dict.keys (counter (sizes paramMetaMap)) ↔ _ := fun _ => mem_keys _
  rw [← total_perm _ hperm] at hfit ⊢
  simp only [computeShmOffsets, map_counter paramMetaMap (fun n => n),
    map_counter paramMetaMap (fun n => (n : Int))]
  generalize Dict.keys (counter (sizes paramMetaMap)) = keys at hfit hmem ⊢
  cases keys with
  | nil =>
    obtain ⟨p, rest, rfl⟩ := exists_cons_of_ne_nil hne
    exact absurd ((hmem p.2).mpr mem_cons_self) not_mem_nil
  | cons k₀ rest =>
    have hfirst : int64 (0 + (regionSize paramMetaMap k₀ : Int)) = regionSize paramMetaMap k₀ := by
      rw [total_cons] at hfit
      rw [int64_eq] <;> omega
    have hhead : (cumsum ((k₀ :: rest).map fun n => (regionSize paramMetaMap n : Int))).head? =
        some (regionSize paramMetaMap k₀ : Int) := by
      rw [map_cons, cumsum, cumsumFrom, head?_cons, hfirst]
    rw [hhead]
    refine ⟨_, rfl, fun size hsize => ?_⟩
    have hk := (hmem size).mpr hsize
    rw [cumsum]
    refine (lookup_zip_cumsumFrom _ _ hk 0 (by omega)).trans (congrArg some ?_)
    have hle := start_add_len_le (regionSize paramMetaMap) hk
    have hnonneg : 0 ≤ shifted (regionSize paramMetaMap) (k₀ :: rest) size :=
      shifted_nonneg hk
    simp only [shifted, head?_cons, Option.map_some, Option.getD_some] at hnonneg ⊢
    rw [int64_eq] <;> omega

/-! ### The slots -/

section Slots
variable [DecidableEq N] {offset : Nat → Int}

/-- The loop numbers the names from `i` on, and leaves the other ones alone. -/
theorem foldl_zipIdx_slots (offset : Int) {names : List N} (hnodup : names.Nodup) (i : Nat)
    (slots : N → Option Int) (name : N) :
    (names.zipIdx i).foldl (fun (slots : N → Option Int) (p : N × Nat) =>
        update slots p.1 (some (offset + p.2 * 4))) slots name =
      if name ∈ names then some (offset + ((i + names.idxOf name : Nat) : Int) * 4)
      else slots name := by
  induction names generalizing i slots with
  | nil => rfl
  | cons n₀ names ih =>
    obtain ⟨hn₀, hnames⟩ := nodup_cons.mp hnodup
    rw [zipIdx_cons, foldl_cons, ih hnames]
    by_cases h : name = n₀
    · subst h
      simp [hn₀]
    · rw [update_of_ne h, idxOf_cons_ne _ (Ne.symm h)]
      simp only [mem_cons, h, false_or, Nat.succ_eq_add_one]
      rw [Nat.add_right_comm, Nat.add_assoc]

omit [DecidableEq N] in
theorem mem_namesOfSize (hnodup : (paramMetaMap.map Prod.fst).Nodup) {p : N × Nat}
    (hp : p ∈ paramMetaMap) {size : Nat} : p.1 ∈ namesOfSize paramMetaMap size ↔ size = p.2 := by
  rw [namesOfSize, mem_map]
  constructor
  · rintro ⟨q, hq, hname⟩
    obtain ⟨hqmem, hqsize⟩ := mem_filter.mp hq
    rw [← inj_on_of_nodup_map hnodup hqmem hp hname]
    exact (of_decide_eq_true hqsize).symm
  · rintro rfl
    exact ⟨p, mem_filter.mpr ⟨hp, decide_eq_true rfl⟩, rfl⟩

omit [DecidableEq N] in
theorem namesOfSize_nodup (hnodup : (paramMetaMap.map Prod.fst).Nodup) (size : Nat) :
    (namesOfSize paramMetaMap size).Nodup :=
  hnodup.sublist (filter_sublist.map Prod.fst)

omit [DecidableEq N] in
theorem length_namesOfSize (size : Nat) :
    (namesOfSize paramMetaMap size).length = (sizes paramMetaMap).count size := by
  rw [namesOfSize, length_map, sizes, count_eq_countP, countP_map,
    countP_eq_length_filter]
  rfl

/-- The place of a parameter among those of its size. -/
def slotOf (paramMetaMap : List (N × Nat)) (offset : Nat → Int) (p : N × Nat) : Int :=
  offset p.2 + (namesOfSize paramMetaMap p.2).idxOf p.1 * 4

/-- The loop over the sizes, of which every one gives the slots of its own parameters. -/
theorem foldlM_slots (hnodup : (paramMetaMap.map Prod.fst).Nodup) {offsets : List (Nat × Int)}
    {es : List (Nat × Nat)} (hes : ∀ e ∈ es, offsets.lookup e.1 = some (offset e.1))
    (slots : N → Option Int) :
    ∃ slots', es.foldlM (fun slots e => do
        let offset ← offsets.lookup e.1
        pure (assignSlots offset (namesOfSize paramMetaMap e.1) slots)) slots = some slots' ∧
      ∀ p ∈ paramMetaMap, slots' p.1 =
        if p.2 ∈ Dict.keys es then some (slotOf paramMetaMap offset p) else slots p.1 := by
  induction es generalizing slots with
  | nil => exact ⟨slots, rfl, fun _ _ => rfl⟩
  | cons e es ih =>
    obtain ⟨slots', hfold, hslots'⟩ := ih (fun e' he' => hes e' (mem_cons_of_mem e he'))
      (assignSlots (offset e.1) (namesOfSize paramMetaMap e.1) slots)
    refine ⟨slots', ?_, fun p hp => ?_⟩
    · rw [foldlM_cons, hes e mem_cons_self]
      exact hfold
    · rw [hslots' p hp, assignSlots,
        foldl_zipIdx_slots _ (namesOfSize_nodup hnodup e.1),
        if_congr (mem_namesOfSize hnodup hp) rfl rfl]
      rw [if_congr Dict.mem_keys_cons rfl rfl]
      by_cases hes : p.2 ∈ Dict.keys es
      · rw [if_pos hes, if_pos (.inr hes)]
      by_cases he : e.1 = p.2
      · rw [if_neg hes, if_pos he, if_pos (.inl he.symm), slotOf, he, Nat.zero_add]
      · rw [if_neg hes, if_neg he, if_neg (not_or.mpr ⟨Ne.symm he, hes⟩)]

/-- Slots in the regions of a layout are apart. -/
theorem slotsApart (hnodup : (paramMetaMap.map Prod.fst).Nodup) {shmMemSize : Nat}
    {offsets : Nat → Option Int}
    (hoffset : ∀ size ∈ sizes paramMetaMap, offsets size = some (offset size))
    (h : LaidOut paramMetaMap shmMemSize offsets) {slots : N → Option Int}
    (hslots : ∀ p ∈ paramMetaMap, slots p.1 = some (slotOf paramMetaMap offset p)) :
    SlotsApart paramMetaMap slots := by
  intro name hname name' hname' hne
  obtain ⟨p, hp, rfl⟩ := mem_map.mp hname
  obtain ⟨p', hp', rfl⟩ := mem_map.mp hname'
  refine ⟨_, hslots p hp, _, hslots p' hp', ?_⟩
  have hidx : ∀ q ∈ paramMetaMap, (namesOfSize paramMetaMap q.2).idxOf q.1 <
      (sizes paramMetaMap).count q.2 := by
    intro q hq
    rw [← length_namesOfSize]
    exact idxOf_lt_length_iff.mpr ((mem_namesOfSize hnodup hq).mpr rfl)
  have hi := hidx p hp
  have hi' := hidx p' hp'
  have hmem : ∀ q ∈ paramMetaMap, q.2 ∈ sizes paramMetaMap := fun q hq =>
    mem_map_of_mem hq
  simp only [slotOf]
  by_cases hsize : p.2 = p'.2
  · have hinj : (namesOfSize paramMetaMap p.2).idxOf p.1 ≠
        (namesOfSize paramMetaMap p.2).idxOf p'.1 := fun he =>
      hne ((idxOf_inj ((mem_namesOfSize hnodup hp).mpr rfl)).mp he)
    rw [← hsize]
    omega
  · have := h.apart p.2 (hmem p hp) p'.2 (hmem p' hp') hsize _ (hoffset _ (hmem p hp)) _
      (hoffset _ (hmem p' hp'))
    simp only [regionSize] at this
    omega

end Slots

end Python

/-! ## The offsets in C++ -/

section Cpp
open Cpp

theorem getD_foldl_count (xs : List Nat) (o : Option Nat) (ho : o.getD 0 < 2 ^ 64) :
    (xs.foldl (fun o _ => some (sizeT (o.getD 0 + 1))) o).getD 0 =
      sizeT (o.getD 0 + xs.length) := by
  induction xs generalizing o with
  | nil => exact (Nat.mod_eq_of_lt ho).symm
  | cons x xs ih =>
    rw [foldl_cons, ih _ (Nat.mod_lt _ (by decide)), Option.getD_some, length_cons]
    simp only [sizeT, Nat.mod_add_mod]
    rw [Nat.add_assoc, Nat.add_comm 1]

theorem getD_lookup_count (sizes : List Nat) (size : Nat) :
    ((Dict.group id (fun _ count => sizeT (count.getD 0 + 1)) [] sizes).lookup size).getD 0 =
      sizeT (sizes.count size) := by
  rw [Dict.lookup_group, getD_foldl_count _ _ (by simp), count_eq_length_filter]
  simp [beq_eq_decide]

theorem foldl_sum (len : Nat → Nat) (order : List Nat) (acc : Nat)
    (hfit : acc + total len order < 2 ^ 64) :
    order.foldl (fun sum size => sizeT (sum + len size)) acc = acc + total len order := by
  induction order generalizing acc with
  | nil => rfl
  | cons k order ih =>
    rw [total_cons] at hfit ⊢
    have hk : sizeT (acc + len k) = acc + len k := Nat.mod_eq_of_lt (by omega)
    rw [foldl_cons, hk, ih _ (by omega), Nat.add_assoc]

/-- The loop puts the regions one after the other. -/
theorem foldl_offsets (len : Nat → Nat) {order : List Nat} (hnodup : order.Nodup)
    (m : Nat → Option Nat) (acc : Nat) (hfit : acc + total len order < 2 ^ 64) (k : Nat) :
    (order.foldl (fun (s : (Nat → Option Nat) × Nat) size =>
        (update s.1 size (some s.2), sizeT (s.2 + len size))) (m, acc)).1 k =
      if k ∈ order then some (acc + start len order k) else m k := by
  induction order generalizing m acc with
  | nil => rfl
  | cons k₀ order ih =>
    obtain ⟨hk₀, hnodup⟩ := nodup_cons.mp hnodup
    rw [total_cons] at hfit
    have hsum : sizeT (acc + len k₀) = acc + len k₀ := Nat.mod_eq_of_lt (by omega)
    rw [foldl_cons, hsum, ih hnodup _ _ (by omega)]
    by_cases h : k = k₀
    · subst h
      rw [if_neg hk₀, if_pos mem_cons_self, update_self, start_cons_self,
        Nat.add_zero]
    · rw [update_of_ne h, start_cons_of_ne len (Ne.symm h), Nat.add_assoc]
      simp only [mem_cons, h, false_or]

variable {paramMetaMap} {counterOrder offsetsOrder : List Nat}

theorem regionSize_le_total {size : Nat} (h : size ∈ sizes paramMetaMap) :
    regionSize paramMetaMap size ≤
      total (regionSize paramMetaMap) (sizes paramMetaMap).dedup := by
  have := start_add_len_le (regionSize paramMetaMap) (mem_dedup.mpr h)
  omega

/-- In any order of the maps the regions are one after the other. -/
theorem computeShmOffsets_eq
    (hfit : total (regionSize paramMetaMap) (sizes paramMetaMap).dedup < 2 ^ 64)
    (hcounter : counterOrder.Perm (sizes paramMetaMap).dedup)
    (hoffsets : offsetsOrder.Perm (sizes paramMetaMap).dedup) :
    (computeShmOffsets paramMetaMap counterOrder offsetsOrder).1 =
        total (regionSize paramMetaMap) offsetsOrder ∧
      ∀ size ∈ offsetsOrder, (computeShmOffsets paramMetaMap counterOrder offsetsOrder).2 size =
        some (start (regionSize paramMetaMap) offsetsOrder size) := by
  have hcount : ∀ size, sizeT ((sizes paramMetaMap).count size) =
      (sizes paramMetaMap).count size := by
    intro size
    refine Nat.mod_eq_of_lt ?_
    by_cases h : size ∈ sizes paramMetaMap
    · have hle := regionSize_le_total h
      simp only [regionSize] at hle hfit
      omega
    · rw [count_eq_zero.mpr h]
      decide
  have hlen : ∀ size, size + 4 * ((Dict.group id (fun _ count => sizeT (count.getD 0 + 1)) []
      (sizes paramMetaMap)).lookup size).getD 0 = regionSize paramMetaMap size := by
    intro size
    rw [getD_lookup_count, hcount, regionSize]
  have htotal := total_perm (regionSize paramMetaMap) hoffsets
  have htotal' := total_perm (regionSize paramMetaMap) hcounter
  simp only [computeShmOffsets, hlen]
  constructor
  · rw [foldl_sum _ _ _ (by omega)]
    omega
  · intro size hsize
    rw [foldl_offsets _ (hoffsets.nodup_iff.mpr (nodup_dedup _)) _ _ (by omega),
      if_pos hsize, Nat.zero_add]

theorem laidOut (hfit : total (regionSize paramMetaMap) (sizes paramMetaMap).dedup < 2 ^ 64)
    (hcounter : counterOrder.Perm (sizes paramMetaMap).dedup)
    (hoffsets : offsetsOrder.Perm (sizes paramMetaMap).dedup) :
    LaidOut paramMetaMap (computeShmOffsets paramMetaMap counterOrder offsetsOrder).1 fun size =>
      ((computeShmOffsets paramMetaMap counterOrder offsetsOrder).2 size).map fun (o : Nat) => (o : Int) := by
  obtain ⟨hsize, hoffset⟩ := computeShmOffsets_eq hfit hcounter hoffsets
  have hmem : ∀ size ∈ sizes paramMetaMap, size ∈ offsetsOrder := fun size h =>
    hoffsets.mem_iff.mpr (mem_dedup.mpr h)
  constructor
  · intro size h
    have hle := start_add_len_le (regionSize paramMetaMap) (hmem size h)
    refine ⟨_, by rw [hoffset size (hmem size h)]; rfl, Int.natCast_nonneg _, ?_⟩
    rw [hsize]
    exact_mod_cast hle
  · intro size h size' h' hne o ho o' ho'
    rw [hoffset size (hmem size h)] at ho
    rw [hoffset size' (hmem size' h')] at ho'
    obtain rfl := Option.some.inj ho
    obtain rfl := Option.some.inj ho'
    have := apart (regionSize paramMetaMap) (hmem size h) (hmem size' h') hne
    dsimp only
    omega

end Cpp

/-! ## Both of them -/

/-- Both computations lay the regions out, and the slots of the parameters are apart. -/
structure BothLaidOut [DecidableEq N] : Prop where
  python : ∃ r, Python.computeShmOffsets paramMetaMap = some r ∧
    LaidOut paramMetaMap r.1 fun size => r.2.lookup size
  cpp : ∀ counterOrder offsetsOrder, counterOrder.Perm (sizes paramMetaMap).dedup →
    offsetsOrder.Perm (sizes paramMetaMap).dedup →
    let r := Cpp.computeShmOffsets paramMetaMap counterOrder offsetsOrder
    LaidOut paramMetaMap r.1 fun size => (r.2 size).map fun (o : Nat) => (o : Int)
  slots : ∃ slots, Python.updateShmOffsets paramMetaMap = some slots ∧
    SlotsApart paramMetaMap slots

/-- In Python the regions are laid out exactly if they all have one length. -/
theorem python_laidOut_iff {paramMetaMap : List (N × Nat)} (hne : paramMetaMap ≠ [])
    (hfit : total (regionSize paramMetaMap) (sizes paramMetaMap).dedup < 2 ^ 63) :
    (∃ r, Python.computeShmOffsets paramMetaMap = some r ∧
        LaidOut paramMetaMap r.1 fun size => r.2.lookup size) ↔
      ∀ size ∈ sizes paramMetaMap, ∀ size' ∈ sizes paramMetaMap,
        regionSize paramMetaMap size = regionSize paramMetaMap size' := by
  obtain ⟨offsets, hcompute, hlookup⟩ := lookup_computeShmOffsets hne hfit
  have hmem : ∀ size, size ∈ Dict.keys (Python.counter (sizes paramMetaMap)) ↔ _ :=
    fun _ => mem_keys _
  have hpos : ∀ size ∈ Dict.keys (Python.counter (sizes paramMetaMap)),
      0 < regionSize paramMetaMap size := by
    intro size h
    have := count_pos_iff.mpr ((hmem size).mp h)
    simp only [regionSize]
    omega
  have hiff := shifted_iff (keys_nodup _) hpos
  simp only [hmem] at hiff
  rw [← hiff, total_perm _ (keys_perm _)]
  constructor
  · rintro ⟨r, hr, hinside, hapart⟩
    obtain rfl := Option.some.inj (hcompute.symm.trans hr)
    refine ⟨fun size h => ?_, fun size h size' h' hne => ?_⟩
    · obtain ⟨o, ho, -, hle⟩ := hinside size h
      obtain rfl := Option.some.inj ((hlookup size h).symm.trans ho)
      exact hle
    · exact hapart size h size' h' hne _ (hlookup size h) _ (hlookup size' h')
  · rintro ⟨hinside, hapart⟩
    refine ⟨_, hcompute, fun size h => ?_, fun size h size' h' hne o ho o' ho' => ?_⟩
    · exact ⟨_, hlookup size h, shifted_nonneg ((hmem size).mpr h), hinside size h⟩
    · obtain rfl := Option.some.inj ((hlookup size h).symm.trans ho)
      obtain rfl := Option.some.inj ((hlookup size' h').symm.trans ho')
      exact hapart size h size' h' hne

/-- Where the sums fit in the integers of numpy, both are a layout with a slot for each parameter
exactly if all regions have one length. -/
theorem layout_iff [DecidableEq N] {paramMetaMap : List (N × Nat)} (hne : paramMetaMap ≠ [])
    (hnames : (paramMetaMap.map Prod.fst).Nodup)
    (hfit : total (regionSize paramMetaMap) (sizes paramMetaMap).dedup < 2 ^ 63) :
    BothLaidOut paramMetaMap ↔
      ∀ size ∈ sizes paramMetaMap, ∀ size' ∈ sizes paramMetaMap,
        regionSize paramMetaMap size = regionSize paramMetaMap size' := by
  rw [← python_laidOut_iff hne hfit]
  constructor
  · exact fun h => h.python
  rintro ⟨r, hr, hlaid⟩
  obtain ⟨offsets, hcompute, hlookup⟩ := lookup_computeShmOffsets hne hfit
  obtain rfl := Option.some.inj (hcompute.symm.trans hr)
  have hkeys : ∀ e ∈ Python.counter (sizes paramMetaMap), e.1 ∈ sizes paramMetaMap := fun e he =>
    (mem_keys _).mp (mem_map_of_mem he)
  obtain ⟨slots, hfold, hslots⟩ := foldlM_slots hnames
    (fun e (he : e ∈ Python.counter (sizes paramMetaMap)) => hlookup e.1 (hkeys e he)) fun _ => none
  refine ⟨⟨_, hr, hlaid⟩, fun _ _ hcounter hoffsets => laidOut (by omega) hcounter hoffsets,
    slots, ?_, slotsApart hnames hlookup hlaid fun p hp => ?_⟩
  · rw [Python.updateShmOffsets, hcompute]
    exact hfold
  · have hsize : p.2 ∈ sizes paramMetaMap := mem_map_of_mem hp
    rw [hslots p hp, if_pos ((mem_keys _).mpr hsize)]

/-- Regions of nine bytes, of one parameter and of two. -/
theorem equalRegions_laidOut : BothLaidOut [("a", 5), ("b", 1), ("c", 1)] :=
  (layout_iff (by decide) (by decide) (by decide)).mpr (by decide)

def threeAndOne : List (String × Nat) := [("a", 1), ("b", 1), ("c", 1), ("d", 2)]

/-- The second region begins at its own length, inside the first one; the slot of `d` is half in that
of `b`. -/
theorem threeAndOne_overlap : Python.computeShmOffsets threeAndOne = some (19, [(1, 0), (2, 6)]) ∧
    (Python.updateShmOffsets threeAndOne).map (fun slots => (slots "b", slots "d")) =
      some (some 4, some 6) ∧ ¬ BothLaidOut threeAndOne := by
  refine ⟨by decide, by decide, fun h => ?_⟩
  obtain ⟨r, hr, hlaid⟩ := h.python
  have hoffsets : Python.computeShmOffsets threeAndOne = some (19, [(1, 0), (2, 6)]) := by decide
  obtain rfl := Option.some.inj (hoffsets.symm.trans hr)
  have := hlaid.apart 1 (by decide) 2 (by decide) (by decide) 0 rfl 6 rfl
  revert this
  decide

end Morphling.Checkpoint.Shm
