import Morphling.Lib.Index

/-!
# Strided arrays

An array in memory: extents, a stride for each of them and an offset. The entry at `idx` is at
position `offset + dot idx strides`. Strides may be zero (an expanded array) or in any order (a
transposed one).

* `isContiguous`: the test of the strides from the last to the first, which ignores extents of 1.
* `isContiguous_iff`: it holds exactly for the arrays whose entries are in row-major order without
  gaps (`RowMajor`).
* `rowMajor_of_rows`: an array is in row-major order already if each row has, somewhere in it, the
  positions of that row in row-major order.
-/

namespace Morphling.Strided

open Index List

/-- The distance of the entry `idx` from the first one. -/
def dot : List Nat → List Nat → Nat
  | i :: is, t :: ts => i * t + dot is ts
  | _, _ => 0

/-- The loop over the extents from the last to the first: the number of entries so far, if every
extent other than 1 has that number as its stride. -/
def checkStrides : List Nat → List Nat → Option Nat
  | [], [] => some 1
  | s :: ss, t :: ts =>
    (checkStrides ss ts).bind fun z =>
      if s = 1 then some z else if t = z then some (z * s) else none
  | _, _ => none

/-- `is_contiguous()`. -/
def isContiguous (sizes strides : List Nat) : Bool :=
  sizes.prod = 0 || (checkStrides sizes strides).isSome

/-- Every entry is where row-major order has it. -/
def RowMajor (sizes strides : List Nat) : Prop :=
  ∀ idx, Valid sizes idx → dot idx strides = flat sizes idx

variable {s t i : Nat} {ss ts : List Nat}

theorem checkStrides_eq_some : ∀ {sizes strides : List Nat} {z : Nat},
    checkStrides sizes strides = some z → z = sizes.prod
  | [], [], _, h => (Option.some.inj h).symm
  | s :: ss, t :: ts, z, h => by
    obtain ⟨z', hz', h⟩ := Option.bind_eq_some_iff.mp h
    have ih := checkStrides_eq_some hz'
    rw [prod_cons, ← ih]
    split at h
    next hs => rw [hs, Nat.one_mul, Option.some.inj h]
    next =>
      split at h
      · rw [Nat.mul_comm, Option.some.inj h]
      · cases h

theorem valid_zeros : ∀ {sizes : List Nat}, sizes.prod ≠ 0 →
    Valid sizes (List.replicate sizes.length 0)
  | [], _ => trivial
  | s :: ss, h => by
    rw [prod_cons] at h
    exact ⟨Nat.pos_of_ne_zero (Nat.ne_zero_of_mul_ne_zero_left h),
      valid_zeros (Nat.ne_zero_of_mul_ne_zero_right h)⟩

theorem flat_zeros : ∀ sizes : List Nat, flat sizes (List.replicate sizes.length 0) = 0
  | [] => rfl
  | s :: ss => by rw [length_cons, replicate_succ, flat, flat_zeros ss, Nat.zero_mul]

theorem dot_zeros : ∀ (n : Nat) (strides : List Nat), dot (List.replicate n 0) strides = 0
  | 0, _ => rfl
  | _ + 1, [] => rfl
  | n + 1, t :: ts => by rw [replicate_succ, dot, dot_zeros n ts, Nat.zero_mul]

theorem RowMajor.tail (h : RowMajor (s :: ss) (t :: ts)) (hs : s ≠ 0) : RowMajor ss ts := by
  intro idx hv
  have := h (0 :: idx) ⟨Nat.pos_of_ne_zero hs, hv⟩
  simpa [dot, flat] using this

/-- The stride of an extent that is not 1 is the number of entries behind it. -/
theorem RowMajor.head (h : RowMajor (s :: ss) (t :: ts)) (hs : s ≠ 0) (h1 : s ≠ 1)
    (hp : ss.prod ≠ 0) : t = ss.prod := by
  have := h (1 :: List.replicate ss.length 0) ⟨by omega, valid_zeros hp⟩
  simpa [dot, flat, dot_zeros, flat_zeros] using this

theorem rowMajor_of_checkStrides : ∀ {sizes strides : List Nat}, strides.length = sizes.length →
    (checkStrides sizes strides).isSome → RowMajor sizes strides
  | [], [], _, _ => fun idx hv => by
    cases idx with
    | nil => rfl
    | cons i is => exact hv.elim
  | s :: ss, t :: ts, hl, h => by
    obtain ⟨z, h⟩ := Option.isSome_iff_exists.mp h
    obtain ⟨z', hz', h⟩ := Option.bind_eq_some_iff.mp h
    have hl' : ts.length = ss.length := by simpa using hl
    have ih := rowMajor_of_checkStrides hl' (Option.isSome_iff_exists.mpr ⟨z', hz'⟩)
    have hprod := checkStrides_eq_some hz'
    intro idx hv
    cases idx with
    | nil => exact hv.elim
    | cons i is =>
      rw [dot, flat, ih is hv.2]
      split at h
      next hs =>
        have hi : i = 0 := by
          have := hv.1
          omega
        rw [hi, Nat.zero_mul, Nat.zero_mul]
      next =>
        split at h
        next ht =>
          rw [ht, hprod]
        next => cases h

theorem RowMajor.checkStrides : ∀ {sizes strides : List Nat}, strides.length = sizes.length →
    sizes.prod ≠ 0 → RowMajor sizes strides → (checkStrides sizes strides).isSome
  | [], [], _, _, _ => rfl
  | s :: ss, t :: ts, hl, hp, h => by
    rw [prod_cons] at hp
    have hs := Nat.ne_zero_of_mul_ne_zero_left hp
    have hss := Nat.ne_zero_of_mul_ne_zero_right hp
    have hl' : ts.length = ss.length := by simpa using hl
    obtain ⟨z, hz⟩ := Option.isSome_iff_exists.mp ((h.tail hs).checkStrides hl' hss)
    have hprod := checkStrides_eq_some hz
    simp only [Strided.checkStrides, hz, Option.bind_some]
    by_cases h1 : s = 1
    · rw [if_pos h1]
      rfl
    · rw [if_neg h1, if_pos ((h.head hs h1 hss).trans hprod.symm)]
      rfl

/-- The test finds the arrays in row-major order. -/
theorem isContiguous_iff {sizes strides : List Nat} (hl : strides.length = sizes.length) :
    isContiguous sizes strides = true ↔ RowMajor sizes strides := by
  unfold isContiguous
  rw [Bool.or_eq_true, decide_eq_true_eq]
  constructor
  · rintro (hp | h)
    · intro idx hv
      have := flat_lt hv
      omega
    · exact rowMajor_of_checkStrides hl h
  · intro h
    by_cases hp : sizes.prod = 0
    · exact .inl hp
    · exact .inr (h.checkStrides hl hp)

/-! ## Rows -/

theorem dot_append : ∀ {l T : List Nat} (m M : List Nat), l.length = T.length →
    dot (l ++ m) (T ++ M) = dot l T + dot m M
  | [], [], m, M, _ => by simp [dot]
  | i :: is, t :: ts, m, M, h => by
    have h' : is.length = ts.length := by simpa using h
    simp only [cons_append, dot, dot_append m M h', Nat.add_assoc]

/-- Equally spaced positions that include `K` positions in a row are these. -/
theorem eq_of_progression {b f t K : Nat}
    (h : ∀ k < K, ∃ k' < K, b + k' * t = f + k) : ∀ k < K, b + k * t = f + k := by
  intro k hk
  obtain ⟨a, ha, hfa⟩ := h 0 (by omega)
  rcases Nat.lt_or_ge 1 K with hK | hK
  · obtain ⟨a', ha', hfa'⟩ := h 1 hK
    have ht : t = 1 := by
      refine Nat.dvd_one.mp ((Nat.dvd_add_right (Nat.dvd_mul_left t a)).mp ?_)
      exact ⟨a', by rw [Nat.mul_comm t a']; omega⟩
    obtain ⟨c, hc, hfc⟩ := h (K - 1) (by omega)
    subst ht
    omega
  · obtain rfl : k = 0 := by omega
    obtain rfl : a = 0 := by omega
    exact hfa

/-- Where every row has the positions of row-major order in it, the array is in row-major order. -/
theorem rowMajor_of_rows {R T : List Nat} {K t : Nat} (hl : T.length = R.length)
    (h : ∀ l, Valid R l → ∀ k < K, ∃ k' < K,
      dot (l ++ [k']) (T ++ [t]) = flat (R ++ [K]) (l ++ [k])) : RowMajor (R ++ [K]) (T ++ [t]) := by
  intro idx hv
  have hlen := hv.length_eq
  rw [length_append, length_singleton] at hlen
  obtain ⟨l, k, rfl⟩ : ∃ l k, idx = l ++ [k] := by
    refine ⟨idx.dropLast, idx.getLast ?_, (dropLast_append_getLast _).symm⟩
    rintro rfl
    simp at hlen
  have hll : l.length = R.length := by simpa using hlen
  obtain ⟨hvl, hvk, -⟩ := (valid_append [K] [k] hll).mp hv
  have hdot : ∀ k, dot (l ++ [k]) (T ++ [t]) = dot l T + k * t := fun k => by
    rw [dot_append _ _ (hll.trans hl.symm)]
    rfl
  have hflat : ∀ k, flat (R ++ [K]) (l ++ [k]) = flat R l * K + k := fun k => by
    rw [flat_append _ _ hll]
    simp [flat]
  rw [hdot, hflat]
  refine eq_of_progression (fun k hk => ?_) k hvk
  obtain ⟨k', hk', he⟩ := h l hvl k hk
  exact ⟨k', hk', by rw [← hdot, ← hflat, he]⟩

end Morphling.Strided
