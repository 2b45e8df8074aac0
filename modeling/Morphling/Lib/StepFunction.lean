import Mathlib.Data.List.Basic

/-!
# Step functions

A list of entries in the order of their keys is a step function: its value at `t` is that of the
last entry with a key up to `t` (`lastUpTo`), of several with the same key the last one.

* `takeWhile_eq_filter`: of entries in order, those up to `t` are the first ones.
* `upperBound`: the search of `std::upper_bound`, by halves. `take_upperBound`: of entries in order it
  finds the first one after `t`, so `lastUpTo` is the one before (`lastUpTo_eq_upperBound`).
* `scan`: the same by a loop over the entries that stops at the first one after `t`.
* `lastUpTo_map`: a change of the keys that keeps which of them are up to `t`.
* `scaled_iff`: when reading the keys in another unit makes no difference.
* `changes`: the places in a range where the value of a scan changes. `changes_eq_iff`: two scans have
  the same values in a range exactly if they have the same changes.
-/

namespace Morphling.StepFunction

open List

variable {α β : Type*}

/-- The keys do not go back. -/
def Ordered (key : α → Int) (l : List α) : Prop := l.Pairwise fun a b => key a ≤ key b

/-- The last entry up to `t`. -/
def lastUpTo (key : α → Int) (l : List α) (t : Int) : Option α :=
  (l.filter fun a => key a ≤ t).getLast?

/-- The loop of `std::upper_bound` on the `len` entries from `first` on; `after` are the entries
that the value is less than. -/
def upperBoundFrom (after : α → Bool) (l : List α) : Nat → Nat → Nat → Nat
  | 0, first, _ => first
  | fuel + 1, first, len =>
    if len = 0 then first
    else
      let half := len / 2
      if (l[first + half]?).any after then upperBoundFrom after l fuel first half
      else upperBoundFrom after l fuel (first + half + 1) (len - half - 1)

/-- `std::upper_bound`: the place of the first entry after `t`. -/
def upperBound (key : α → Int) (l : List α) (t : Int) : Nat :=
  upperBoundFrom (t < key ·) l l.length 0 l.length

/-- A loop over keys and values that stops at the first key after `t`, with the last value before. -/
def scan (t : Int) : β → List (Int × β) → β
  | result, [] => result
  | result, (k, v) :: l => if k ≤ t then scan t v l else result

/-- The change to `w` at `k` in front of the changes from `k` on, where the value was `v` before. One
at the same place overtakes it, and no change to the value before is kept. -/
def change [DecidableEq β] (k : Int) (v w : β) : List (Int × β) → List (Int × β)
  | [] => if w = v then [] else [(k, w)]
  | (k', w') :: rest =>
    if k' = k then if w' = v then rest else (k', w') :: rest
    else if w = v then (k', w') :: rest
    else (k, w) :: (k', w') :: rest

/-- Where the value of a scan changes between `lo` and `hi`, and to what; `v` is the value before. -/
def changes [DecidableEq β] (hi : Int) : Int → β → List (Int × β) → List (Int × β)
  | _, _, [] => []
  | lo, v, (k, w) :: l =>
    if hi < k then [] else change (max lo k) v w (changes hi (max lo k) w l)

variable {key : α → Int} {l : List α} {t : Int}

/-- An entry after the last one. -/
theorem Ordered.append_singleton {a : α} (h : Ordered key l)
    (hlast : ∀ b, l.getLast? = some b → key b ≤ key a) : Ordered key (l ++ [a]) := by
  refine pairwise_append.mpr ⟨h, pairwise_singleton _ _, fun b hb c hc => ?_⟩
  rw [mem_singleton.mp hc]
  obtain ⟨init, last, rfl⟩ := (eq_nil_or_concat' l).resolve_left (ne_nil_of_mem hb)
  have hle := hlast last (by simp)
  rcases mem_append.mp hb with hb | hb
  · have := (pairwise_append.mp h).2.2 b hb last (by simp)
    omega
  · rw [mem_singleton.mp hb]
    exact hle

theorem takeWhile_eq_filter (h : Ordered key l) :
    (l.takeWhile fun a => key a ≤ t) = l.filter fun a => key a ≤ t := by
  induction l with
  | nil => rfl
  | cons a l ih =>
    rw [Ordered, pairwise_cons] at h
    by_cases ha : key a ≤ t
    · simp [ha, ih h.2]
    · -- no later entry is up to `t` either
      have hl : ∀ b ∈ l, ¬ key b ≤ t := fun b hb => by have := h.1 b hb; omega
      simpa [ha] using hl

theorem upperBoundFrom_eq {after : α → Bool} {k : Nat}
    (h : ∀ i a, l[i]? = some a → (after a = true ↔ k ≤ i)) :
    ∀ {fuel first len : Nat}, len ≤ fuel → first ≤ k → k ≤ first + len → first + len ≤ l.length →
      upperBoundFrom after l fuel first len = k
  | 0, first, len, hfuel, hfirst, hk, _ => by
    rw [upperBoundFrom]
    omega
  | fuel + 1, first, len, hfuel, hfirst, hk, hlen => by
    rw [upperBoundFrom]
    split
    · omega
    · have hget : l[first + len / 2]? = some (l.get ⟨first + len / 2, by omega⟩) := by simp
      have hmid := h _ _ hget
      simp only [hget, Option.any_some]
      split
      · rename_i hafter
        have := hmid.mp hafter
        exact upperBoundFrom_eq h (by omega) hfirst this (by omega)
      · rename_i hafter
        have : ¬ k ≤ first + len / 2 := fun hle => hafter (hmid.mpr hle)
        exact upperBoundFrom_eq h (by omega) (by omega) (by omega) (by omega)

/-- Of entries in order, those after `t` are the ones behind those up to `t`. -/
theorem lt_key_iff (h : Ordered key l) {i : Nat} {a : α} (ha : l[i]? = some a) :
    t < key a ↔ (l.takeWhile fun a => key a ≤ t).length ≤ i := by
  induction l generalizing i with
  | nil => simp at ha
  | cons b l ih =>
    rw [Ordered, pairwise_cons] at h
    by_cases hb : key b ≤ t
    · rw [takeWhile_cons_of_pos (by simpa using hb)]
      cases i with
      | zero =>
        simp only [getElem?_cons_zero, Option.some.injEq] at ha
        subst ha
        simp
        omega
      | succ i => simpa using ih h.2 ha
    · have hle : key b ≤ key a := by
        cases i with
        | zero => simp_all
        | succ i => exact h.1 a (mem_of_getElem? ha)
      rw [takeWhile_cons_of_neg (by simpa using hb)]
      simp
      omega

theorem upperBound_eq (h : Ordered key l) :
    upperBound key l t = (l.takeWhile fun a => key a ≤ t).length := by
  have hle := (takeWhile_sublist (fun a => decide (key a ≤ t)) (l := l)).length_le
  refine upperBoundFrom_eq (fun i a ha => ?_) (Nat.le_refl _) (Nat.zero_le _) (by omega) (by omega)
  rw [decide_eq_true_iff]
  exact lt_key_iff h ha

/-- The place that `upperBound` finds is the only one with the entries up to `t` before it and those
after `t` behind. -/
theorem upperBound_eq_iff (h : Ordered key l) {n : Nat} (hn : n ≤ l.length) :
    upperBound key l t = n ↔ ∀ i a, l[i]? = some a → (t < key a ↔ n ≤ i) := by
  constructor
  · rintro rfl i a ha
    rw [upperBound_eq h]
    exact lt_key_iff h ha
  · intro hsplit
    refine upperBoundFrom_eq (fun i a ha => ?_) (Nat.le_refl _) (Nat.zero_le _) (by omega) (by omega)
    rw [decide_eq_true_iff]
    exact hsplit i a ha

theorem take_upperBound (h : Ordered key l) :
    l.take (upperBound key l t) = l.filter fun a => key a ≤ t := by
  rw [upperBound_eq h, ← takeWhile_eq_filter h]
  exact (prefix_iff_eq_take.mp ( takeWhile_prefix _)).symm

/-- The entry before the place that `upperBound` finds. -/
theorem lastUpTo_eq_upperBound (h : Ordered key l) :
    lastUpTo key l t =
      match upperBound key l t with
      | 0 => none
      | n + 1 => l[n]? := by
  have hle : upperBound key l t ≤ l.length := by
    rw [upperBound_eq h]
    exact (takeWhile_sublist _).length_le
  rw [lastUpTo, ← take_upperBound h, getLast?_take]
  cases hn : upperBound key l t with
  | zero => rfl
  | succ n =>
    have hlt : n < l.length := by omega
    simp [hlt]

theorem scan_eq (value : α → β) (h : Ordered key l) (result : β) :
    scan t result (l.map fun a => (key a, value a)) =
      ((lastUpTo key l t).map value).getD result := by
  rw [lastUpTo, ← takeWhile_eq_filter h]
  clear h
  induction l generalizing result with
  | nil => rfl
  | cons a l ih =>
    rw [map_cons, scan]
    split
    · rename_i ha
      rw [ih, takeWhile_cons_of_pos (by simpa using ha), getLast?_cons]
      cases (l.takeWhile fun a => decide (key a ≤ t)).getLast? <;> rfl
    · rename_i ha
      rw [takeWhile_cons_of_neg (by simpa using ha)]
      rfl

theorem lastUpTo_map {key' : β → Int} {t' : Int} (f : α → β)
    (h : ∀ a ∈ l, key' (f a) ≤ t' ↔ key a ≤ t) :
    lastUpTo key' (l.map f) t' = (lastUpTo key l t).map f := by
  have hfilter : (l.filter fun a => decide (key' (f a) ≤ t')) = l.filter fun a => key a ≤ t :=
    filter_congr fun a ha => by simp [h a ha]
  rw [lastUpTo, filter_map, getLast?_map, lastUpTo]
  exact congrArg (fun l => (List.getLast? l).map f) hfilter

/-- From the last key on it is the last entry. -/
theorem lastUpTo_of_le (h : ∀ a ∈ l, key a ≤ t) : lastUpTo key l t = l.getLast? := by
  rw [lastUpTo, filter_eq_self.mpr fun a ha => decide_eq_true (h a ha)]

theorem exists_le (key : α → Int) (l : List α) : ∃ m : Int, ∀ a ∈ l, key a ≤ m := by
  induction l with
  | nil => exact ⟨0, by simp⟩
  | cons a l ih =>
    obtain ⟨m, hm⟩ := ih
    refine ⟨max (key a) m, forall_mem_cons.mpr ⟨by omega, fun b hb => ?_⟩⟩
    have := hm b hb
    omega

/-- A step function is the same in two units of time only if it does not change after 1. -/
theorem scaled_iff {γ : Type*} {f : Int → γ} {k m : Int} (hk : 2 ≤ k)
    (hf : ∀ t t', m ≤ t → m ≤ t' → f t = f t') :
    (∀ e, 0 ≤ e → f e = f (k * e)) ↔ ∀ t, 1 ≤ t → f t = f 1 := by
  constructor
  · intro h
    -- multiplying by `k` often enough leaves all changes behind
    have hpow : ∀ (n : Nat) (t : Int), 1 ≤ t → ∃ t' : Int, t + n ≤ t' ∧ f t' = f t := fun n => by
      induction n with
      | zero => exact fun t _ => ⟨t, by omega, rfl⟩
      | succ n ih =>
        intro t ht
        obtain ⟨t', hle, heq⟩ := ih t ht
        have hmul : 2 * t' ≤ k * t' := Int.mul_le_mul_of_nonneg_right hk (by omega)
        exact ⟨k * t', by omega, by rw [← h t' (by omega), heq]⟩
    intro t ht
    obtain ⟨t', hle, heq⟩ := hpow m.toNat t ht
    obtain ⟨t'', hle', heq'⟩ := hpow m.toNat 1 (by omega)
    rw [← heq, ← heq', hf t' t'' (by omega) (by omega)]
  · intro h e he
    by_cases h0 : e = 0
    · simp [h0]
    · have hmul : 2 * e ≤ k * e := Int.mul_le_mul_of_nonneg_right hk he
      rw [h e (by omega), h (k * e) (by omega)]

/-! ## Changes -/

section Changes
variable {hi lo k : Int} {v w : β} {c c' : List (Int × β)}

/-- The keys go up from `lo` to `hi`, and every value is another than the one before; `v` is the
first one. -/
def Alternates (hi : Int) : Int → β → List (Int × β) → Prop
  | _, _, [] => True
  | lo, v, (k, w) :: c => lo ≤ k ∧ k ≤ hi ∧ w ≠ v ∧ Alternates hi (k + 1) w c

theorem Alternates.mono (h : Alternates hi k v c) (hle : lo ≤ k) : Alternates hi lo v c := by
  cases c with
  | nil => trivial
  | cons e c => exact ⟨by have := h.1; omega, h.2⟩

/-- Before the first change. -/
theorem Alternates.scan_eq (h : Alternates hi lo v c) (ht : t < lo) :
    scan t v c = v := by
  cases c with
  | nil => rfl
  | cons e c => exact if_neg (by have := h.1; omega)

theorem alternates_unique (h : Alternates hi lo v c) (h' : Alternates hi lo v c')
    (heq : ∀ t, lo ≤ t → t ≤ hi → scan t v c = scan t v c') : c = c' := by
  -- at the place of a first change, the value is another than before
  have hfirst : ∀ {lo v k w} {c : List (Int × β)}, Alternates hi lo v ((k, w) :: c) →
      scan k v ((k, w) :: c) = w := fun {lo v k w c} h => by
    rw [scan, if_pos (Int.le_refl k)]
    exact h.2.2.2.scan_eq (Int.lt_succ k)
  induction c generalizing lo v c' with
  | nil =>
    cases c' with
    | nil => rfl
    | cons e' c' =>
      obtain ⟨k', w'⟩ := e'
      exact absurd ((heq k' h'.1 h'.2.1).trans (hfirst h')).symm h'.2.2.1
  | cons e c ih =>
    obtain ⟨k, w⟩ := e
    cases c' with
    | nil => exact absurd ((hfirst h).symm.trans (heq k h.1 h.2.1)) h.2.2.1
    | cons e' c' =>
      obtain ⟨k', w'⟩ := e'
      rcases Int.lt_trichotomy k k' with hlt | rfl | hlt
      · have := (hfirst h).symm.trans (heq k h.1 h.2.1)
        exact absurd (this.trans (if_neg (by simpa using hlt))) h.2.2.1
      · obtain rfl : w = w' :=
          (hfirst h).symm.trans ((heq k h.1 h.2.1).trans (hfirst h'))
        rw [ih h.2.2.2 h'.2.2.2 fun t ht hhi => ?_]
        have := heq t (by have := h.1; omega) hhi
        rwa [scan, scan, if_pos (show k ≤ t by omega), if_pos (show k ≤ t by omega)] at this
      · have := (hfirst h').symm.trans (heq k' h'.1 h'.2.1).symm
        exact absurd (this.trans (if_neg (by simpa using hlt))) h'.2.2.1

variable [DecidableEq β]

theorem change_spec (hk : k ≤ hi) (h : Alternates hi k w c) :
    Alternates hi k v (change k v w c) ∧ ∀ t, k ≤ t →
      scan t v (change k v w c) = scan t w c := by
  cases c with
  | nil =>
    rw [change]
    split
    · rename_i hw
      exact ⟨trivial, fun _ _ => hw.symm⟩
    · rename_i hw
      exact ⟨⟨Int.le_refl k, hk, hw, trivial⟩, fun t ht => if_pos ht⟩
  | cons e c =>
    obtain ⟨k', w'⟩ := e
    obtain ⟨hle, hhi, hw', hc⟩ := h
    rw [change]
    split
    · rename_i heq
      subst heq
      split
      · rename_i hw
        subst hw
        exact ⟨hc.mono (by omega), fun t ht => (if_pos ht).symm⟩
      · rename_i hw
        refine ⟨⟨hle, hhi, hw, hc⟩, fun t ht => ?_⟩
        rw [scan, if_pos ht, scan, if_pos ht]
    · rename_i hne
      split
      · rename_i hw
        subst hw
        exact ⟨⟨hle, hhi, hw', hc⟩, fun _ _ => rfl⟩
      · rename_i hw
        exact ⟨⟨Int.le_refl k, hk, hw, by omega, hhi, hw', hc⟩, fun t ht => if_pos ht⟩

/-- The changes alternate, and a scan over them has the same values. -/
theorem changes_spec (hlo : lo ≤ hi) (v : β) (l : List (Int × β)) :
    Alternates hi lo v (changes hi lo v l) ∧ ∀ t, lo ≤ t → t ≤ hi →
      scan t v (changes hi lo v l) = scan t v l := by
  induction l generalizing lo v with
  | nil => exact ⟨trivial, fun _ _ _ => rfl⟩
  | cons e l ih =>
    obtain ⟨k, w⟩ := e
    rw [changes]
    split
    · exact ⟨trivial, fun t _ ht => (if_neg (show ¬ k ≤ t by omega)).symm⟩
    · have hmax : max lo k ≤ hi := by omega
      obtain ⟨halt, hscan⟩ := ih hmax w
      obtain ⟨halt', hscan'⟩ := change_spec (v := v) hmax halt
      refine ⟨halt'.mono (by omega), fun t hlot hthi => ?_⟩
      by_cases ht : k ≤ t
      · rw [hscan' t (by omega), hscan t (by omega) hthi]
        exact (if_pos ht).symm
      · rw [halt'.scan_eq (by omega)]
        exact (if_neg ht).symm

/-- Two scans agree in a range if and only if they change at the same places to the same values. -/
theorem changes_eq_iff (hlo : lo ≤ hi) (v : β) (l l' : List (Int × β)) :
    changes hi lo v l = changes hi lo v l' ↔ ∀ t, lo ≤ t → t ≤ hi →
      scan t v l = scan t v l' := by
  obtain ⟨halt, hscan⟩ := changes_spec hlo v l
  obtain ⟨halt', hscan'⟩ := changes_spec hlo v l'
  constructor
  · intro heq t ht hthi
    rw [← hscan t ht hthi, ← hscan' t ht hthi, heq]
  · intro heq
    refine alternates_unique halt halt' fun t ht hthi => ?_
    rw [hscan t ht hthi, hscan' t ht hthi, heq t ht hthi]

end Changes

end Morphling.StepFunction
