import Mathlib.Algebra.BigOperators.Ring.List
import Mathlib.Algebra.BigOperators.Group.Finset.Basic

/-!
# Multi-indices and row-major order

An array of extents `sizes` is indexed by lists of the same length, one coordinate below each
extent (`Valid`). Row-major order numbers them (`flat`) and lists them (`indices`).

* `flat_append`: leading coordinates move in steps of the product of the trailing extents.
* `getElem?_indices`: the index at position `flat sizes idx` of the list is `idx`, so a list of
  entries made with `indices` is read back with `flat`.
* `sum_indices_append`: a sum over an array is the sum over its leading coordinates of the sums
  over the trailing ones.
-/

namespace Morphling.Index

open List

/-- The row-major position of `idx` in an array of extents `sizes`. -/
def flat : List Nat → List Nat → Nat
  | _ :: ss, i :: is => i * ss.prod + flat ss is
  | _, _ => 0

/-- `idx` has one coordinate below each extent. -/
def Valid : List Nat → List Nat → Prop
  | [], [] => True
  | s :: ss, i :: is => i < s ∧ Valid ss is
  | _, _ => False

instance decidableValid : ∀ sizes idx, Decidable (Valid sizes idx)
  | [], [] => isTrue trivial
  | [], _ :: _ => isFalse id
  | _ :: _, [] => isFalse id
  | s :: ss, i :: is =>
    have := decidableValid ss is
    inferInstanceAs (Decidable (i < s ∧ Valid ss is))

/-- The valid indices, in row-major order. -/
def indices : List Nat → List (List Nat)
  | [] => [[]]
  | s :: ss => (List.range s).flatMap fun i => (indices ss).map (i :: ·)

theorem Valid.length_eq : ∀ {sizes idx : List Nat}, Valid sizes idx → idx.length = sizes.length
  | [], [], _ => rfl
  | _ :: _, _ :: _, h => by simp [Valid.length_eq h.2]

theorem flat_lt : ∀ {sizes idx : List Nat}, Valid sizes idx → flat sizes idx < sizes.prod
  | [], [], _ => by simp [flat]
  | s :: ss, i :: is, h => by
    have ih := flat_lt h.2
    have hi : i + 1 ≤ s := h.1
    calc i * ss.prod + flat ss is < i * ss.prod + ss.prod := by omega
      _ = (i + 1) * ss.prod := by rw [Nat.succ_mul]
      _ ≤ s * ss.prod := Nat.mul_le_mul_right _ hi
      _ = (s :: ss).prod := by simp

theorem mem_indices : ∀ {sizes idx : List Nat}, idx ∈ indices sizes ↔ Valid sizes idx
  | [], [] => by simp [indices, Valid]
  | [], _ :: _ => by simp [indices, Valid]
  | _ :: _, [] => by simp [indices, Valid]
  | s :: ss, i :: is => by simp [indices, Valid, mem_indices]

/-- Equal chunks of length `k`, one after the other: position `i * k + j` is in chunk `i`. -/
theorem getElem?_flatMap_chunk {α β : Type*} (f : α → List β) (k : Nat) :
    ∀ (xs : List α), (∀ x ∈ xs, (f x).length = k) → ∀ i j, j < k →
      (xs.flatMap f)[i * k + j]? = xs[i]?.bind fun x => (f x)[j]?
  | [], _, i, j, _ => by simp
  | x :: xs, h, 0, j, hj => by
    have hx : (f x).length = k := h x (by simp)
    simp [getElem?_append_left, hx, hj]
  | x :: xs, h, i + 1, j, hj => by
    have hx : (f x).length = k := h x (by simp)
    have ih := getElem?_flatMap_chunk f k xs (fun y hy => h y (by simp [hy])) i j hj
    rw [flatMap_cons, getElem?_append_right (by rw [hx, Nat.succ_mul]; omega), hx,
      show (i + 1) * k + j - k = i * k + j by rw [Nat.succ_mul]; omega, ih]
    simp

@[simp] theorem length_indices : ∀ sizes : List Nat, (indices sizes).length = sizes.prod
  | [] => rfl
  | s :: ss => by simp [indices, length_indices ss]

theorem getElem?_indices : ∀ {sizes idx : List Nat}, Valid sizes idx →
    (indices sizes)[flat sizes idx]? = some idx
  | [], [], _ => rfl
  | s :: ss, i :: is, h => by
    have ih := getElem?_indices h.2
    rw [indices, flat, getElem?_flatMap_chunk _ ss.prod _ (by simp) _ _ (flat_lt h.2)]
    simp [h.1, ih]

variable {sizes idx : List Nat}

/-- Two valid indices with one position are equal. -/
theorem flat_inj {idx' : List Nat} (h : Valid sizes idx) (h' : Valid sizes idx')
    (he : flat sizes idx = flat sizes idx') : idx = idx' := by
  have h1 := getElem?_indices h
  rw [he, getElem?_indices h'] at h1
  exact (Option.some.inj h1).symm

/-- Every position below the number of entries is the position of a valid index. -/
theorem exists_flat {n : Nat} : ∀ {sizes : List Nat}, n < sizes.prod →
    ∃ idx, Valid sizes idx ∧ flat sizes idx = n := by
  intro sizes
  induction sizes generalizing n with
  | nil => intro h; exact ⟨[], trivial, by simp at h; simp [flat, h]⟩
  | cons s ss ih =>
    intro h
    rw [prod_cons] at h
    have hp : 0 < ss.prod := Nat.pos_of_mul_pos_left (Nat.lt_of_le_of_lt (Nat.zero_le _) h)
    obtain ⟨is, hv, hf⟩ := ih (Nat.mod_lt n hp)
    refine ⟨n / ss.prod :: is, ⟨Nat.div_lt_of_lt_mul (by rwa [Nat.mul_comm]), hv⟩, ?_⟩
    rw [flat, hf, Nat.div_add_mod']

theorem valid_append : ∀ {L l : List Nat} (M m : List Nat), l.length = L.length →
    (Valid (L ++ M) (l ++ m) ↔ Valid L l ∧ Valid M m)
  | [], [], M, m, _ => by simp [Valid]
  | s :: ss, i :: is, M, m, h => by
    have h' : is.length = ss.length := by simpa using h
    simp [Valid, valid_append M m h', and_assoc]

theorem Valid.append_pair {L l : List Nat} {m n i j : Nat} (hl : Valid L l) (hi : i < m)
    (hj : j < n) : Valid (L ++ [m, n]) (l ++ [i, j]) :=
  (valid_append _ _ hl.length_eq).mpr ⟨hl, hi, hj, trivial⟩

/-- Leading coordinates move in steps of the product of the trailing extents. -/
theorem flat_append : ∀ {L l : List Nat} (M m : List Nat), l.length = L.length →
    flat (L ++ M) (l ++ m) = flat L l * M.prod + flat M m
  | [], [], M, m, _ => by simp [flat]
  | s :: ss, i :: is, M, m, h => by
    have h' : is.length = ss.length := by simpa using h
    simp only [cons_append, flat, flat_append M m h', prod_append]
    rw [Nat.add_mul, Nat.mul_assoc, Nat.add_assoc]

/-- The position in an array of matrices: matrix, row, column. -/
theorem flat_append_pair {L l : List Nat} (h : l.length = L.length) (m n i j : Nat) :
    flat (L ++ [m, n]) (l ++ [i, j]) = (flat L l * m + i) * n + j := by
  rw [flat_append _ _ h]
  simp only [flat, prod_cons, prod_nil, Nat.mul_one, Nat.add_zero]
  rw [Nat.add_mul, Nat.mul_assoc, Nat.add_assoc]

theorem nodup_indices : ∀ sizes : List Nat, (indices sizes).Nodup
  | [] => by simp [indices]
  | s :: ss => by
    have ih := nodup_indices ss
    rw [indices, nodup_flatMap]
    refine ⟨fun i _ => ih.map fun a b h => (List.cons.inj h).2, ?_⟩
    refine nodup_range.imp fun {a b} hab => ?_
    rw [Function.onFun, disjoint_left]
    simp only [mem_map, not_exists, not_and]
    rintro x ⟨y, -, rfl⟩ z - hz
    exact hab (List.cons.inj hz).1.symm

theorem indices_append : ∀ L M : List Nat,
    indices (L ++ M) = (indices L).flatMap fun l => (indices M).map (l ++ ·)
  | [], M => by simp [indices]
  | s :: ss, M => by
    simp only [cons_append, indices, indices_append ss M, flatMap_assoc,
      flatMap_map, map_flatMap, map_map]
    rfl

section Sum
variable {R : Type*} [AddCommMonoid R]

/-- The sum of `f` over the entries of an array of extents `sizes`. -/
def sumOver (sizes : List Nat) (f : List Nat → R) : R := ((indices sizes).map f).sum

theorem sumOver_congr {f g : List Nat → R} (h : ∀ idx, Valid sizes idx → f idx = g idx) :
    sumOver sizes f = sumOver sizes g := by
  unfold sumOver
  congr 1
  exact map_congr_left fun idx hi => h idx (mem_indices.mp hi)

/-- Sum over the leading coordinates, then over the trailing ones. -/
theorem sumOver_append (L M : List Nat) (f : List Nat → R) :
    sumOver (L ++ M) f = sumOver L fun l => sumOver M fun m => f (l ++ m) := by
  simp only [sumOver, indices_append, map_flatMap, map_map]
  rw [flatMap_def, sum_flatten, map_map]
  rfl

theorem sumOver_singleton (n : Nat) (f : List Nat → R) :
    sumOver [n] f = ((List.range n).map fun i => f [i]).sum := by
  simp [sumOver, indices, flatMap_def, map_flatten, Function.comp_def]

/-- The sum over an array of matrices: matrix, row, column. -/
theorem sumOver_append_pair (L : List Nat) (m n : Nat) (f : List Nat → R) :
    sumOver (L ++ [m, n]) f =
      sumOver L fun l => ∑ i ∈ Finset.range m, ∑ j ∈ Finset.range n, f (l ++ [i, j]) := by
  rw [sumOver_append]
  refine congrArg (sumOver L) (funext fun l => ?_)
  rw [show [m, n] = [m] ++ [n] from rfl, sumOver_append, sumOver_singleton]
  refine congrArg List.sum (map_congr_left fun i _ => ?_)
  rw [sumOver_singleton]
  rfl

theorem sumOver_add (sizes : List Nat) (f g : List Nat → R) :
    sumOver sizes (fun idx => f idx + g idx) = sumOver sizes f + sumOver sizes g :=
  sum_map_add

/-- Two sums may be exchanged. -/
theorem sumOver_comm (sizes sizes' : List Nat) (f : List Nat → List Nat → R) :
    sumOver sizes (fun idx => sumOver sizes' (f idx)) =
      sumOver sizes' fun idx' => sumOver sizes fun idx => f idx idx' := by
  unfold sumOver
  induction indices sizes with
  | nil => simp
  | cons idx l ih => simp only [map_cons, sum_cons, ih, sum_map_add]

/-- A sum with one term. -/
theorem sumOver_ite_eq (h : Valid sizes idx) (f : List Nat → R) :
    sumOver sizes (fun idx' => if idx = idx' then f idx' else 0) = f idx := by
  have hmem := mem_indices.mpr h
  have hnodup := nodup_indices sizes
  unfold sumOver
  obtain ⟨l₁, l₂, hl⟩ := append_of_mem hmem
  rw [hl, List.nodup_append] at hnodup
  have h₁ : ∀ x ∈ l₁, (if idx = x then f x else 0) = 0 := fun x hx =>
    if_neg fun he => hnodup.2.2 x hx idx mem_cons_self he.symm
  have h₂ : ∀ x ∈ l₂, (if idx = x then f x else 0) = 0 := fun x hx =>
    if_neg fun he : idx = x => (nodup_cons.mp hnodup.2.1).1 (he ▸ hx)
  rw [hl, map_append, map_cons, sum_append, sum_cons, if_pos rfl,
    map_congr_left h₁, map_congr_left h₂]
  simp

end Sum

theorem sumOver_mul_right {R : Type*} [NonUnitalNonAssocSemiring R] (sizes : List Nat)
    (f : List Nat → R) (r : R) : sumOver sizes (fun idx => f idx * r) = sumOver sizes f * r :=
  sum_map_mul_right _ _ _

end Morphling.Index
