import Mathlib.Algebra.BigOperators.Group.List.Basic
import Mathlib.Data.List.Nodup

/-!
# Dictionaries in the order of insertion

A dictionary is a list of keys with their values, read with `List.lookup`. `modify` is the update
that all the others are made of: it replaces the value of a key by a function of it, and puts a new
key at the end.

* `lookup_modify`, `keys_modify`: what an update does to the values and to the keys.
* `lookup_group`: after an update for each item of a list, the value of a key is made by the items
  with this key alone, in their order.
* `getD_lookup_group₂`: the same for a dictionary of dictionaries.
* `getD_lookup_tally`: in particular, what a loop of `m[key(x)] += w(x)` adds up.
* `perm_of_lookup_eq`: dictionaries with the same values have the same entries, in some order.
-/

namespace Morphling.Dict

open List

variable {κ ν α : Type*} [DecidableEq κ] {m : List (κ × ν)} {k k' : κ} {xs ys : List α} {v : ν}

def keys (m : List (κ × ν)) : List κ := m.map Prod.fst

/-- The value of `k` becomes `f` of its value, of `none` where it has none. -/
def modify (k : κ) (f : Option ν → ν) : List (κ × ν) → List (κ × ν)
  | [] => [(k, f none)]
  | (k', v) :: m => if k' = k then (k', f (some v)) :: m else (k', v) :: modify k f m

/-- `m[k] = v` -/
def set (k : κ) (v : ν) (m : List (κ × ν)) : List (κ × ν) := modify k (fun _ => v) m

theorem lookup_cons (k k' : κ) (v : ν) (m : List (κ × ν)) :
    ((k', v) :: m).lookup k = if k = k' then some v else m.lookup k := by
  rw [List.lookup_cons]
  by_cases h : k = k'
  · rw [if_pos h, beq_iff_eq.mpr h]
  · rw [if_neg h, beq_eq_false_iff_ne.mpr h]

theorem lookup_modify (k k' : κ) (f : Option ν → ν) (m : List (κ × ν)) :
    (modify k f m).lookup k' = if k' = k then some (f (m.lookup k)) else m.lookup k' := by
  induction m with
  | nil => simp only [modify, lookup_cons, lookup_nil]
  | cons e m ih =>
    obtain ⟨k₀, v⟩ := e
    by_cases h₀ : k₀ = k
    · subst h₀
      by_cases h : k' = k₀ <;> simp [modify, lookup_cons, h]
    · by_cases h : k' = k₀
      · simp [modify, h₀, h]
      · simp [modify, lookup_cons, h₀, h, ih, Ne.symm h₀]

@[simp] theorem lookup_modify_self (k : κ) (f : Option ν → ν) (m : List (κ × ν)) :
    (modify k f m).lookup k = some (f (m.lookup k)) := by
  rw [lookup_modify, if_pos rfl]

theorem lookup_modify_of_ne (h : k' ≠ k) (f : Option ν → ν) (m : List (κ × ν)) :
    (modify k f m).lookup k' = m.lookup k' := by
  rw [lookup_modify, if_neg h]

/-! ## Keys -/

omit [DecidableEq κ] in
theorem mem_keys_cons {e : κ × ν} : k ∈ keys (e :: m) ↔ k = e.1 ∨ k ∈ keys m :=
  mem_cons

theorem keys_modify (k : κ) (f : Option ν → ν) (m : List (κ × ν)) :
    keys (modify k f m) = if k ∈ keys m then keys m else keys m ++ [k] := by
  induction m with
  | nil => rfl
  | cons e m ih =>
    obtain ⟨k₀, v⟩ := e
    by_cases h₀ : k₀ = k
    · simp [modify, keys, h₀]
    · have hk : k ≠ k₀ := Ne.symm h₀
      have ih' : (modify k f m).map Prod.fst = if k ∈ m.map Prod.fst then m.map Prod.fst
          else m.map Prod.fst ++ [k] := ih
      by_cases hm : k ∈ m.map Prod.fst
      · simp only [modify, if_neg h₀, keys, map_cons, ih', if_pos hm,
          if_pos (mem_cons_of_mem k₀ hm)]
      · have hm' : k ∉ k₀ :: m.map Prod.fst := by simp [hk, hm]
        simp only [modify, if_neg h₀, keys, map_cons, ih', if_neg hm, if_neg hm',
          cons_append]

theorem mem_keys_modify {f : Option ν → ν} : k' ∈ keys (modify k f m) ↔ k' = k ∨ k' ∈ keys m := by
  rw [keys_modify]
  split
  · rename_i h
    exact ⟨.inr, by rintro (rfl | h'); exacts [h, h']⟩
  · rw [mem_append, mem_singleton, or_comm]

theorem nodup_keys_modify (h : (keys m).Nodup) (k : κ) (f : Option ν → ν) :
    (keys (modify k f m)).Nodup := by
  rw [keys_modify]
  split
  · exact h
  · rename_i hk
    rw [nodup_append_comm]
    exact nodup_cons.mpr ⟨hk, h⟩

theorem lookup_isSome_iff : (m.lookup k).isSome ↔ k ∈ keys m := by
  induction m with
  | nil => simp [keys]
  | cons e m ih =>
    obtain ⟨k₀, v⟩ := e
    rw [lookup_cons, keys, map_cons, mem_cons]
    split
    · rename_i h
      simp [h]
    · rename_i h
      rw [ih]
      exact ⟨.inr, by rintro (h' | h'); exacts [absurd h' h, h']⟩

/-- The entries of a dictionary are the pairs that `lookup` finds. -/
theorem mem_iff_lookup (h : (keys m).Nodup) : (k, v) ∈ m ↔ m.lookup k = some v := by
  induction m with
  | nil => simp
  | cons e m ih =>
    obtain ⟨k₀, v₀⟩ := e
    obtain ⟨hk₀, hm⟩ := nodup_cons.mp h
    rw [lookup_cons, mem_cons, ih hm]
    by_cases hk : k = k₀
    · subst hk
      have hno : m.lookup k = none := by
        rw [← Option.not_isSome_iff_eq_none, lookup_isSome_iff]
        exact hk₀
      simp [hno, eq_comm]
    · simp [hk]

/-- Dictionaries with the same values have the same entries. -/
theorem perm_of_lookup_eq {m' : List (κ × ν)} (h : (keys m).Nodup) (h' : (keys m').Nodup)
    (heq : ∀ k, m.lookup k = m'.lookup k) : m.Perm m' := by
  refine (perm_ext_iff_of_nodup (h.of_map _) (h'.of_map _)).mpr ?_
  rintro ⟨k, v⟩
  rw [mem_iff_lookup h, mem_iff_lookup h', heq]

/-! ## Erasing -/

section Erase

/-- `del m[k]` -/
def erase (k : κ) (m : List (κ × ν)) : List (κ × ν) := m.filter (·.1 ≠ k)

theorem mem_keys_erase : k' ∈ keys (erase k m) ↔ k' ∈ keys m ∧ k' ≠ k := by
  simp only [keys, erase, mem_map, mem_filter, decide_eq_true_iff]
  constructor
  · rintro ⟨e, ⟨he, hne⟩, rfl⟩
    exact ⟨⟨e, he, rfl⟩, hne⟩
  · rintro ⟨⟨e, he, rfl⟩, hne⟩
    exact ⟨e, ⟨he, hne⟩, rfl⟩

theorem lookup_erase (k k' : κ) (m : List (κ × ν)) :
    (erase k m).lookup k' = if k' = k then none else m.lookup k' := by
  induction m with
  | nil => simp [erase]
  | cons e m ih =>
    obtain ⟨k₀, v⟩ := e
    rw [erase] at ih ⊢
    by_cases h₀ : k₀ = k
    · rw [filter_cons_of_neg (by simpa using h₀), ih, lookup_cons, h₀]
      split <;> rfl
    · rw [filter_cons_of_pos (by simpa using h₀), lookup_cons, ih, lookup_cons]
      by_cases h : k' = k₀
      · rw [if_pos h, if_pos h, if_neg (h ▸ h₀)]
      · rw [if_neg h, if_neg h]

/-- The entry of a key, and the others. -/
theorem perm_cons_erase (hnodup : (keys m).Nodup) (h : m.lookup k = some v) :
    m.Perm ((k, v) :: erase k m) := by
  induction m with
  | nil => cases h
  | cons e m ih =>
    obtain ⟨k₀, v₀⟩ := e
    obtain ⟨hk₀, hm⟩ := nodup_cons.mp hnodup
    rw [lookup_cons] at h
    rw [erase]
    by_cases hk : k = k₀
    · rw [if_pos hk] at h
      obtain rfl := Option.some.inj h
      have hrest : erase k m = m := filter_eq_self.mpr fun e he => by
        rw [decide_eq_true_iff]
        exact fun hek => hk₀ (mem_map.mpr ⟨e, he, hek.trans hk⟩)
      rw [filter_cons_of_neg (by simp [hk]), ← erase, hrest, hk]
    · rw [if_neg hk] at h
      rw [filter_cons_of_pos (by simpa using Ne.symm hk)]
      exact ((ih hm h).cons _).trans (List.Perm.swap _ _ _)

end Erase

/-! ## An update for each item -/

section Group
variable (key : α → κ) (f : α → Option ν → ν)

/-- The loop `for x in xs: m[key(x)] = f(x, m.get(key(x)))`. -/
def group (m : List (κ × ν)) (xs : List α) : List (κ × ν) :=
  xs.foldl (fun m x => modify (key x) (f x) m) m

/-- The items with the key `k`, in their order, make the value of `k`. -/
theorem lookup_group (k : κ) (m : List (κ × ν)) (xs : List α) :
    (group key f m xs).lookup k =
      (xs.filter (key · = k)).foldl (fun o x => some (f x o)) (m.lookup k) := by
  induction xs generalizing m with
  | nil => rfl
  | cons x xs ih =>
    rw [group, foldl_cons]
    refine (ih _).trans ?_
    by_cases h : key x = k
    · rw [filter_cons_of_pos (by simpa using h), foldl_cons, ← h, lookup_modify_self]
    · rw [filter_cons_of_neg (by simpa using h), lookup_modify_of_ne (Ne.symm h)]

theorem mem_keys_group : k ∈ keys (group key f m xs) ↔ k ∈ keys m ∨ ∃ x ∈ xs, key x = k := by
  induction xs generalizing m with
  | nil => simp [group]
  | cons x xs ih =>
    rw [group, foldl_cons]
    refine ih.trans ?_
    simp only [mem_keys_modify, exists_mem_cons_iff, eq_comm (a := k), or_assoc,
      or_left_comm]

theorem nodup_keys_group (h : (keys m).Nodup) (xs : List α) : (keys (group key f m xs)).Nodup := by
  induction xs generalizing m with
  | nil => exact h
  | cons x xs ih => exact ih (nodup_keys_modify h _ _)

/-- Where the updates of two items can be exchanged, the order of the items does not matter. -/
theorem lookup_group_perm (hcomm : ∀ x y o, f x (some (f y o)) = f y (some (f x o)))
    (h : xs.Perm ys) (k : κ) (m : List (κ × ν)) :
    (group key f m xs).lookup k = (group key f m ys).lookup k := by
  rw [lookup_group, lookup_group]
  exact (h.filter _).foldl_eq' (fun x _ y _ o => congrArg some (hcomm y x o)) _

theorem keys_group_perm (h : xs.Perm ys) (hnodup : (keys m).Nodup) :
    (keys (group key f m xs)).Perm (keys (group key f m ys)) := by
  refine (perm_ext_iff_of_nodup (nodup_keys_group key f hnodup xs)
    (nodup_keys_group key f hnodup ys)).mpr fun k => ?_
  simp only [mem_keys_group, h.mem_iff]

/-- Of the items with one key, the last one counts. -/
theorem foldl_set (v : α → ν) (xs : List α) (o : Option ν) :
    xs.foldl (fun _ x => some (v x)) o = (xs.getLast?.map v).or o := by
  induction xs generalizing o with
  | nil => rfl
  | cons x xs ih =>
    rw [foldl_cons, ih]
    cases xs with
    | nil => rfl
    | cons y ys =>
      rw [getLast?_cons_cons, getLast?_eq_some_getLast (cons_ne_nil y ys)]
      rfl

/-- `{key(x): v(x) for x in xs}`, where the keys are distinct. -/
theorem lookup_group_of_nodup (v : α → ν) (m : List (κ × ν)) (hnodup : (xs.map key).Nodup) {x : α}
    (hx : x ∈ xs) : (group key (fun x _ => v x) m xs).lookup (key x) = some (v x) := by
  have hmem : x ∈ xs.filter (key · = key x) := mem_filter.mpr ⟨hx, decide_eq_true rfl⟩
  have hne := ne_nil_of_mem hmem
  obtain ⟨hlast, hkey⟩ := mem_filter.mp (getLast_mem hne)
  rw [lookup_group, foldl_set, getLast?_eq_some_getLast hne,
    inj_on_of_nodup_map hnodup hlast hx (of_decide_eq_true hkey)]
  rfl

end Group

section Tally
variable [AddMonoid ν] (key : α → κ) (w : α → ν)

/-- The loop `for x in xs: m[key(x)] += w(x)`, where a value that is missing is zero. -/
def tally (m : List (κ × ν)) (xs : List α) : List (κ × ν) :=
  group key (fun x o => o.getD 0 + w x) m xs

theorem getD_foldl_add (xs : List α) (o : Option ν) :
    (xs.foldl (fun o x => some (o.getD 0 + w x)) o).getD 0 = o.getD 0 + (xs.map w).sum := by
  induction xs generalizing o with
  | nil => simp
  | cons x xs ih =>
    rw [foldl_cons, ih, map_cons, sum_cons, ← add_assoc, Option.getD_some]

theorem getD_lookup_tally (k : κ) (m : List (κ × ν)) (xs : List α) :
    ((tally key w m xs).lookup k).getD 0 =
      (m.lookup k).getD 0 + ((xs.filter (key · = k)).map w).sum := by
  rw [tally, lookup_group, getD_foldl_add]

/-- The entries of a sum that starts empty. -/
theorem mem_tally_iff :
    (k, v) ∈ tally key w [] xs ↔
      (∃ x ∈ xs, key x = k) ∧ v = ((xs.filter (key · = k)).map w).sum := by
  have hnodup : (keys (tally key w [] xs)).Nodup := nodup_keys_group key _ (m := []) nodup_nil xs
  have hkeys : k ∈ keys (tally key w [] xs) ↔ ∃ x ∈ xs, key x = k := by
    rw [tally, mem_keys_group]
    exact or_iff_right not_mem_nil
  have hval := getD_lookup_tally key w k [] xs
  rw [lookup_nil, Option.getD_none, zero_add] at hval
  rw [mem_iff_lookup hnodup, ← hkeys, ← lookup_isSome_iff, ← hval]
  cases (tally key w [] xs).lookup k with
  | none => simp
  | some v' => simp [eq_comm]

theorem lookup_tally_perm {M : Type*} [AddCommMonoid M] (w : α → M) (h : xs.Perm ys) (k : κ)
    (m : List (κ × M)) : (tally key w m xs).lookup k = (tally key w m ys).lookup k :=
  lookup_group_perm key _ (fun _ _ _ => add_right_comm _ _ _) h k m

/-- Sums do not depend on the order of the items, but for the order of their keys. -/
theorem tally_perm {M : Type*} [AddCommMonoid M] (w : α → M) (h : xs.Perm ys) :
    (tally key w [] xs).Perm (tally key w [] ys) :=
  perm_of_lookup_eq (nodup_keys_group key _ (m := []) nodup_nil xs)
    (nodup_keys_group key _ (m := []) nodup_nil ys) fun k => lookup_tally_perm key w h k []

/-- The sums of all keys together. -/
theorem sum_map_sum_filter {M : Type*} [AddCommMonoid M] (w : α → M) {ks : List κ} (hks : ks.Nodup)
    (hxs : ∀ x ∈ xs, key x ∈ ks) :
    (ks.map fun k => ((xs.filter (key · = k)).map w).sum).sum = (xs.map w).sum := by
  induction xs with
  | nil => simp
  | cons x xs ih =>
    have hx : key x ∈ ks := hxs x mem_cons_self
    have hrest := ih fun y hy => hxs y (mem_cons_of_mem _ hy)
    have hsplit : ∀ k, (((x :: xs).filter (key · = k)).map w).sum =
        (if key x = k then w x else 0) + ((xs.filter (key · = k)).map w).sum := fun k => by
      by_cases hk : key x = k
      · rw [filter_cons_of_pos (by simpa using hk), if_pos hk, map_cons, sum_cons]
      · rw [filter_cons_of_neg (by simpa using hk), if_neg hk, zero_add]
    have hone : (ks.map fun k => if key x = k then w x else 0).sum = w x := by
      rw [sum_map_eq_nsmul_single (key x) _ fun k hk _ => if_neg (Ne.symm hk), if_pos rfl,
        count_eq_one_of_mem hks hx, one_nsmul]
    simp only [hsplit, sum_map_add, hone, hrest, map_cons, sum_cons]

end Tally

/-! ## Dictionaries of dictionaries -/

section Nested
variable {κ' : Type*} [DecidableEq κ'] (key : α → κ) (key' : α → κ') (f : α → Option ν → ν)

/-- The loop `for x in xs: m[key(x)][key'(x)] = f(x, m[key(x)].get(key'(x)))`, where a dictionary that
is missing is empty. -/
def group₂ (m : List (κ × List (κ' × ν))) (xs : List α) : List (κ × List (κ' × ν)) :=
  group key (fun x o => modify (key' x) (f x) (o.getD [])) m xs

/-- The inner dictionary of `k` is made by the items with the key `k`. -/
theorem getD_lookup_group₂ (k : κ) (m : List (κ × List (κ' × ν))) (xs : List α) :
    ((group₂ key key' f m xs).lookup k).getD [] =
      group key' f ((m.lookup k).getD []) (xs.filter (key · = k)) := by
  rw [group₂, lookup_group]
  generalize m.lookup k = o
  induction xs.filter (key · = k) generalizing o with
  | nil => rfl
  | cons x xs ih => rw [foldl_cons, ih, Option.getD_some, group, group, foldl_cons]

end Nested

/-! ## Values that are computed from values -/

theorem lookup_map {ν' : Type*} (g : ν → ν') (k : κ) (m : List (κ × ν)) :
    (m.map fun e => (e.1, g e.2)).lookup k = (m.lookup k).map g := by
  induction m with
  | nil => rfl
  | cons e m ih =>
    rw [map_cons, lookup_cons, ih, lookup_cons]
    split <;> rfl

/-- A loop over the entries is a loop over the keys. -/
theorem filterMap_eq_filterMap_keys {β : Type*} (g : κ → ν → Option β) (h : (keys m).Nodup) :
    m.filterMap (fun e => g e.1 e.2) = (keys m).filterMap fun k => (m.lookup k).bind (g k) := by
  rw [keys, filterMap_map]
  refine filterMap_congr fun e he => ?_
  rw [Function.comp_apply, (mem_iff_lookup h).mp (show (e.1, e.2) ∈ m from he), Option.bind_some]

theorem lookup_filterMap {ν' : Type*} (g : ν → Option ν') (h : (keys m).Nodup) (k : κ) :
    (m.filterMap fun e => (g e.2).map fun v => (e.1, v)).lookup k = (m.lookup k).bind g := by
  induction m with
  | nil => rfl
  | cons e m ih =>
    obtain ⟨hk₀, hm⟩ := nodup_cons.mp h
    rw [filterMap_cons, lookup_cons]
    by_cases hk : k = e.1
    · have hno : m.lookup k = none := by
        rw [← Option.not_isSome_iff_eq_none, lookup_isSome_iff, hk]
        exact hk₀
      rw [if_pos hk]
      cases hg : g e.2 with
      | none => simp [hg, ih hm, hno]
      | some v => simp [hg, hk]
    · rw [if_neg hk, ← ih hm]
      cases hg : g e.2 with
      | none => rfl
      | some v => simp [lookup_cons, hk]

/-! ## Dictionaries of lists -/

section Lists
variable {m : List (κ × List α)} {k : κ} {a : α}

/-- A list gets an element at its end. -/
theorem flatMap_modify_append (m : List (κ × List α)) (k : κ) (a : α) :
    ((modify k (fun o => o.getD [] ++ [a]) m).flatMap Prod.snd).Perm (a :: m.flatMap Prod.snd) := by
  induction m with
  | nil => exact List.Perm.refl _
  | cons e m ih =>
    obtain ⟨k₀, l⟩ := e
    rw [modify]
    split
    · simp only [flatMap_cons, Option.getD_some, append_assoc, singleton_append]
      exact perm_middle
    · simp only [flatMap_cons]
      exact (ih.append_left l).trans perm_middle

/-- A list loses the element at its end. -/
theorem flatMap_modify_dropLast (h : (m.lookup k).bind List.getLast? = some a) :
    (m.flatMap Prod.snd).Perm
      (a :: (modify k (fun o => (o.getD []).dropLast) m).flatMap Prod.snd) := by
  induction m with
  | nil => cases h
  | cons e m ih =>
    obtain ⟨k₀, l⟩ := e
    rw [lookup_cons] at h
    rw [modify]
    by_cases hk : k₀ = k
    · rw [if_pos hk.symm, Option.bind_some] at h
      have hl : l = l.dropLast ++ [a] := (dropLast_append_getLast? a h).symm
      rw [if_pos hk]
      simp only [flatMap_cons, Option.getD_some]
      conv_lhs => rw [hl, append_assoc, singleton_append]
      exact perm_middle
    · rw [if_neg (Ne.symm hk)] at h
      rw [if_neg hk]
      simp only [flatMap_cons]
      exact ((ih h).append_left l).trans perm_middle

end Lists

end Morphling.Dict
