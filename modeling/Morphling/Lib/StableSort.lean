import Mathlib.Data.List.Sort

/-!
# Stable sorts

A list is the stable sort of another one by a key if its keys do not go down, and the elements of
every key are the same and in the same order in both.

* `isStableSort_mergeSort`: `List.mergeSort` is one.
* `IsStableSort.unique`: there is only one.
* `IsStableSort.insert`: an element with the least key comes to the front.
-/

namespace Morphling.StableSort

open List

variable {α β κ : Type*} [LinearOrder κ]

structure IsStableSort (key : α → κ) (l out : List α) : Prop where
  sorted : out.Pairwise fun a b => key a ≤ key b
  same : ∀ k, (out.filter fun a => key a = k) = l.filter fun a => key a = k

variable {key : α → κ} {l out out' : List α} {a : α}

theorem isStableSort_mergeSort (key : α → κ) (l : List α) :
    IsStableSort key l (l.mergeSort fun a b => key a ≤ key b) := by
  have htrans : ∀ a b c : α, decide (key a ≤ key b) = true → decide (key b ≤ key c) = true →
      decide (key a ≤ key c) = true := by
    simp only [decide_eq_true_iff]
    exact fun _ _ _ => le_trans
  have htotal : ∀ a b : α, (decide (key a ≤ key b) || decide (key b ≤ key a)) = true := by
    simp only [Bool.or_eq_true, decide_eq_true_iff]
    exact fun a b => le_total _ _
  refine ⟨?_, fun k => ?_⟩
  · exact (pairwise_mergeSort htrans htotal l).imp of_decide_eq_true
  · -- the elements with the key `k` stay in order, and there are as many
    have hpair : (l.filter fun a => key a = k).Pairwise fun a b =>
        decide (key a ≤ key b) = true := by
      refine pairwise_of_forall_mem_list fun a ha b hb => ?_
      simp only [mem_filter, decide_eq_true_iff] at ha hb ⊢
      rw [ha.2, hb.2]
    have hsub := (sublist_mergeSort htrans htotal hpair filter_sublist).filter
      fun a => key a = k
    rw [filter_filter] at hsub
    simp only [Bool.and_self] at hsub
    refine (hsub.eq_of_length ?_).symm
    exact ((mergeSort_perm l _).filter _).length_eq.symm

namespace IsStableSort

theorem mem_iff (h : IsStableSort key l out) : a ∈ out ↔ a ∈ l := by
  have hfilter : ∀ l : List α, a ∈ l ↔ a ∈ l.filter fun b => key b = key a := by simp
  rw [hfilter out, h.same, ← hfilter l]

theorem perm [DecidableEq α] (h : IsStableSort key l out) : out.Perm l := by
  refine perm_iff_count.mpr fun a => ?_
  have hcount : ∀ l : List α, l.count a = (l.filter fun b => key b = key a).count a := fun l =>
    (count_filter (by simp)).symm
  rw [hcount, h.same, ← hcount]

theorem unique (h : IsStableSort key l out) (h' : IsStableSort key l out') : out = out' := by
  induction out generalizing l out' with
  | nil =>
    cases out' with
    | nil => rfl
    | cons b _ => exact absurd (h.mem_iff.mpr (h'.mem_iff.mp mem_cons_self)) not_mem_nil
  | cons a out ih =>
    cases out' with
    | nil => exact absurd (h'.mem_iff.mpr (h.mem_iff.mp mem_cons_self)) not_mem_nil
    | cons b out' =>
      obtain ⟨ha, hsorted⟩ := pairwise_cons.mp h.sorted
      obtain ⟨hb, hsorted'⟩ := pairwise_cons.mp h'.sorted
      -- both heads have the least key, and are the first ones with it
      have hab : key a ≤ key b := by
        rcases mem_cons.mp (h.mem_iff.mpr (h'.mem_iff.mp mem_cons_self)) with h | h
        exacts [le_of_eq (congrArg key h.symm), ha b h]
      have hba : key b ≤ key a := by
        rcases mem_cons.mp (h'.mem_iff.mpr (h.mem_iff.mp mem_cons_self)) with h | h
        exacts [le_of_eq (congrArg key h.symm), hb a h]
      have hkey : key b = key a := le_antisymm hba hab
      have hsame : ∀ k, ((a :: out).filter fun c => key c = k) =
          (b :: out').filter fun c => key c = k := fun k => (h.same k).trans (h'.same k).symm
      have hhead := hsame (key a)
      rw [filter_cons_of_pos (by simp), filter_cons_of_pos (by simp [hkey])] at hhead
      obtain rfl := (List.cons.inj hhead).1
      refine congrArg _ (ih ⟨hsorted, fun k => ?_⟩ ⟨hsorted', fun _ => rfl⟩)
      have := hsame k
      simp only [filter_cons] at this
      split at this
      · exact (List.cons.inj this).2
      · exact this

/-- Of elements with other keys, one with the least key is the first, behind those of its own key. -/
theorem insert {l₁ l₂ : List α} (h : IsStableSort key (l₁ ++ l₂) out)
    (h₁ : ∀ b ∈ l₁, key a < key b) (h₂ : ∀ b ∈ l₂, key a ≤ key b) :
    IsStableSort key (l₁ ++ a :: l₂) (a :: out) := by
  refine ⟨pairwise_cons.mpr ⟨fun b hb => ?_, h.sorted⟩, fun k => ?_⟩
  · rcases mem_append.mp (h.mem_iff.mp hb) with hb | hb
    exacts [le_of_lt (h₁ b hb), h₂ b hb]
  · have hsame := h.same k
    rw [filter_append] at hsame
    rw [filter_cons, filter_append, filter_cons, hsame]
    split
    · rename_i hk
      have hnil : (l₁.filter fun b => key b = k) = [] := by
        refine filter_eq_nil_iff.mpr fun b hb => ?_
        rw [decide_eq_true_iff, ← of_decide_eq_true hk]
        exact ne_of_gt (h₁ b hb)
      rw [hnil, nil_append, nil_append]
    · rfl

theorem map {key : β → κ} (f : α → β) (h : IsStableSort (fun a => key (f a)) l out) :
    IsStableSort key (l.map f) (out.map f) := by
  refine ⟨pairwise_map.mpr h.sorted, fun k => ?_⟩
  rw [filter_map, filter_map]
  exact congrArg _ (h.same k)

end IsStableSort

end Morphling.StableSort
