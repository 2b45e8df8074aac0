import Mathlib

/-!
# Unions of intervals

An interval is a pair of integers: those from the first on and before the second.

* `cover`: the integers in some interval of a list.
* `mergeFrom`: the loop that goes over intervals in the order of their beginnings, and joins those
  that overlap or touch.
* `length_merge`: the merged intervals together are as long as the union of all intervals.
-/

namespace Morphling.Intervals

open List

noncomputable def cover (l : List (Int × Int)) : Finset Int :=
  l.foldr (fun p u => Finset.Ico p.1 p.2 ∪ u) ∅

/-- The sum of the lengths. -/
def length (l : List (Int × Int)) : Int := (l.map fun p => p.2 - p.1).sum

/-- The loop over the intervals, with the last one that was merged. -/
def mergeFrom (last : Int × Int) : List (Int × Int) → List (Int × Int)
  | [] => [last]
  | (s, e) :: l =>
    if s ≤ last.2 then mergeFrom (last.1, max last.2 e) l else last :: mergeFrom (s, e) l

/-- Intervals in the order of tuples. -/
def tupleLE (p q : Int × Int) : Bool := p.1 < q.1 || (p.1 == q.1 && p.2 ≤ q.2)

/-- The intervals sorted, and merged from the first one on. -/
def merge (l : List (Int × Int)) : List (Int × Int) :=
  match l.mergeSort tupleLE with
  | [] => []
  | p :: l => mergeFrom p l

variable {l l' : List (Int × Int)} {t : Int}

@[simp] theorem mem_cover : t ∈ cover l ↔ ∃ p ∈ l, p.1 ≤ t ∧ t < p.2 := by
  induction l with
  | nil => simp [cover]
  | cons p l ih =>
    have hcons : cover (p :: l) = Finset.Ico p.1 p.2 ∪ cover l := rfl
    rw [hcons, Finset.mem_union, Finset.mem_Ico, ih, exists_mem_cons_iff]

theorem cover_cons (p : Int × Int) (l : List (Int × Int)) :
    cover (p :: l) = Finset.Ico p.1 p.2 ∪ cover l := rfl

theorem cover_perm (h : l.Perm l') : cover l = cover l' := by
  ext t
  simp only [mem_cover, h.mem_iff]

/-- No more integers than the intervals have together. -/
theorem card_cover_le (l : List (Int × Int)) :
    (cover l).card ≤ (l.map fun p => (p.2 - p.1).toNat).sum := by
  induction l with
  | nil => exact Nat.le_refl _
  | cons p l ih =>
    rw [cover_cons, map_cons, sum_cons]
    refine (Finset.card_union_le _ _).trans (Nat.add_le_add ?_ ih)
    rw [Int.card_Ico]

/-- Two intervals that overlap or touch are one. -/
theorem Ico_union_Ico_of_le {a b s e : Int} (hs : a ≤ s) (hb : s ≤ b) :
    Finset.Ico a b ∪ Finset.Ico s e = Finset.Ico a (max b e) := by
  ext t
  simp only [Finset.mem_union, Finset.mem_Ico]
  omega

/-- The loop keeps the union, and leaves no overlap that would count twice. -/
theorem length_mergeFrom {last : Int × Int} (hlast : last.1 ≤ last.2)
    (hpos : ∀ p ∈ l, p.1 ≤ p.2) (hsorted : (last :: l).Pairwise fun p q => p.1 ≤ q.1) :
    length (mergeFrom last l) = (cover (last :: l)).card := by
  induction l generalizing last with
  | nil =>
    have hcard := Int.card_Ico last.1 last.2
    simp only [mergeFrom, length, cover, foldr_cons, foldr_nil, Finset.union_empty, hcard,
      map_cons, map_nil, sum_cons, sum_nil]
    omega
  | cons p l ih =>
    obtain ⟨s, e⟩ := p
    obtain ⟨hle, htail⟩ := pairwise_cons.mp hsorted
    have hs : last.1 ≤ s := hle _ mem_cons_self
    have he : s ≤ e := hpos _ mem_cons_self
    have hpos' : ∀ p ∈ l, p.1 ≤ p.2 := fun p hp => hpos p (mem_cons_of_mem _ hp)
    rw [mergeFrom]
    split
    · rename_i hjoin
      rw [ih (by simp only; omega) hpos' ?_, cover_cons, cover_cons last, cover_cons,
        ← Finset.union_assoc, Ico_union_Ico_of_le hs hjoin]
      refine pairwise_cons.mpr ⟨fun q hq => ?_, (pairwise_cons.mp htail).2⟩
      exact hle q (mem_cons_of_mem _ hq)
    · rename_i hgap
      -- everything that is left begins after the last interval
      have hdisj : Disjoint (Finset.Ico last.1 last.2) (cover ((s, e) :: l)) := by
        rw [Finset.disjoint_left]
        intro t ht hcov
        obtain ⟨q, hq, hqs, -⟩ := mem_cover.mp hcov
        have hsq : s ≤ q.1 := by
          rcases mem_cons.mp hq with rfl | hq
          · exact Int.le_refl _
          · exact (pairwise_cons.mp htail).1 q hq
        rw [Finset.mem_Ico] at ht
        omega
      have hrest : length (mergeFrom (s, e) l) = (cover ((s, e) :: l)).card := ih he hpos' htail
      have hcons : length (last :: mergeFrom (s, e) l) =
          (last.2 - last.1) + length (mergeFrom (s, e) l) := by
        rw [length, map_cons, sum_cons]
        rfl
      rw [hcons, hrest, cover_cons last, Finset.card_union_of_disjoint hdisj, Int.card_Ico]
      omega

theorem sorted_mergeSort (l : List (Int × Int)) :
    (l.mergeSort tupleLE).Pairwise fun p q => p.1 ≤ q.1 := by
  have hsorted : (l.mergeSort tupleLE).Pairwise fun p q => tupleLE p q = true := by
    refine pairwise_mergeSort (fun a b c hab hbc => ?_) (fun a b => ?_) l
    · simp only [tupleLE, Bool.or_eq_true, Bool.and_eq_true, decide_eq_true_iff, beq_iff_eq] at *
      omega
    · simp only [tupleLE, Bool.or_eq_true, Bool.and_eq_true, decide_eq_true_iff, beq_iff_eq]
      omega
  refine hsorted.imp fun {p q} h => ?_
  simp only [tupleLE, Bool.or_eq_true, Bool.and_eq_true, decide_eq_true_iff, beq_iff_eq] at h
  omega

/-- The merged intervals are as long as the union. -/
theorem length_merge (hpos : ∀ p ∈ l, p.1 ≤ p.2) : length (merge l) = (cover l).card := by
  have hperm := mergeSort_perm l tupleLE
  have hsorted := sorted_mergeSort l
  rw [merge, ← cover_perm hperm]
  split
  · rename_i h
    rw [h]
    rfl
  · rename_i p rest h
    rw [h] at hsorted hperm ⊢
    have hall : ∀ q ∈ p :: rest, q.1 ≤ q.2 := fun q hq => hpos q (hperm.mem_iff.mp hq)
    exact length_mergeFrom (hall p mem_cons_self)
      (fun q hq => hall q (mem_cons_of_mem _ hq)) hsorted

end Morphling.Intervals
