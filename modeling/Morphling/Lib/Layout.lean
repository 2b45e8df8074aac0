import Mathlib.Algebra.Order.BigOperators.Group.List
import Mathlib.Algebra.Ring.Nat
import Mathlib.Data.List.Chain

/-!
# Regions one after the other

Regions of length `len k`, one for each key of a list, without gaps: `start` is where a region begins,
the sum of the lengths before it.

* `apart`, `start_add_len_le`: the regions are disjoint, and inside the sum of all lengths.
* `shifted_iff`: where every region begins instead at the sum of the lengths up to its own, less the
  first one, both hold exactly if all regions have the same length.
-/

namespace Morphling.Layout

open List

variable {κ : Type*} (len : κ → Nat)

def total (keys : List κ) : Nat := (keys.map len).sum

@[simp] theorem total_nil : total len [] = 0 := rfl

@[simp] theorem total_cons (k : κ) (keys : List κ) :
    total len (k :: keys) = len k + total len keys := by
  simp [total]

@[simp] theorem total_append (keys keys' : List κ) :
    total len (keys ++ keys') = total len keys + total len keys' := by
  simp [total]

theorem total_perm {keys keys' : List κ} (h : keys.Perm keys') :
    total len keys = total len keys' :=
  (h.map len).sum_eq

variable [DecidableEq κ] {k k' : κ} {l₁ : List κ}

/-- Where the region of `k` begins. -/
def start (keys : List κ) (k : κ) : Nat := total len (keys.takeWhile (· ≠ k))

theorem start_append (h : k ∉ l₁) (l₂ : List κ) : start len (l₁ ++ k :: l₂) k = total len l₁ := by
  have hpos : ∀ a ∈ l₁, decide (a ≠ k) = true := by
    intro a ha
    rw [decide_eq_true_iff]
    rintro rfl
    exact h ha
  rw [start, takeWhile_append_of_pos hpos, takeWhile_cons_of_neg (by simp),
    append_nil]

theorem start_cons_self (k : κ) (keys : List κ) : start len (k :: keys) k = 0 := by
  rw [start, takeWhile_cons_of_neg (by simp), total_nil]

theorem start_cons_of_ne (h : k ≠ k') (keys : List κ) :
    start len (k :: keys) k' = len k + start len keys k' := by
  rw [start, takeWhile_cons_of_pos (by simpa using h), total_cons, start]

theorem start_add_len_le {keys : List κ} (hk : k ∈ keys) :
    start len keys k + len k ≤ total len keys := by
  induction keys with
  | nil => exact absurd hk not_mem_nil
  | cons k₀ keys ih =>
    rw [total_cons]
    by_cases h : k₀ = k
    · rw [h, start_cons_self]
      omega
    · have hle := ih ((mem_cons.mp hk).resolve_left (Ne.symm h))
      rw [start_cons_of_ne len h]
      omega

/-- Of two regions, one ends before the other begins. -/
theorem apart {keys : List κ} (hk : k ∈ keys) (hk' : k' ∈ keys) (hne : k ≠ k') :
    start len keys k + len k ≤ start len keys k' ∨ start len keys k' + len k' ≤ start len keys k := by
  induction keys with
  | nil => exact absurd hk not_mem_nil
  | cons k₀ keys ih =>
    by_cases h : k₀ = k
    · rw [h, start_cons_self, start_cons_of_ne len hne]
      exact .inl (by omega)
    by_cases h' : k₀ = k'
    · rw [h', start_cons_self, start_cons_of_ne len (Ne.symm hne)]
      exact .inr (by omega)
    rw [start_cons_of_ne len h, start_cons_of_ne len h']
    have := ih ((mem_cons.mp hk).resolve_left (Ne.symm h))
      ((mem_cons.mp hk').resolve_left (Ne.symm h'))
    omega

/-! ## Regions that begin one length too late -/

section Shifted

/-- The sum of the lengths up to that of `k`, less the first one. -/
def shifted (keys : List κ) (k : κ) : Int :=
  start len keys k + len k - ((keys.head?.map len).getD 0 : Nat)

variable {len} {keys : List κ}

theorem shifted_nonneg (hk : k ∈ keys) : 0 ≤ shifted len keys k := by
  cases keys with
  | nil => exact absurd hk not_mem_nil
  | cons k₀ rest =>
    simp only [shifted, head?_cons, Option.map_some, Option.getD_some]
    by_cases h : k₀ = k
    · rw [h]
      omega
    · rw [start_cons_of_ne len h]
      omega

omit [DecidableEq κ] in
theorem notMem_of_nodup {l₂ : List κ} (h : (l₁ ++ k :: l₂).Nodup) : k ∉ l₁ :=
  fun hk => (List.nodup_append.mp h).2.2 k hk k mem_cons_self rfl

/-- Disjoint regions that are shifted are in the order of their lengths. -/
theorem sorted_of_apart (hnodup : keys.Nodup) (hpos : ∀ k ∈ keys, 0 < len k)
    (h : ∀ k ∈ keys, ∀ k' ∈ keys, k ≠ k' →
      shifted len keys k + len k ≤ shifted len keys k' ∨
        shifted len keys k' + len k' ≤ shifted len keys k) :
    keys.Pairwise fun k k' => len k ≤ len k' := by
  have htrans : IsTrans κ fun k k' => len k ≤ len k' := ⟨fun _ _ _ => Nat.le_trans⟩
  rw [← isChain_iff_pairwise, isChain_iff_forall_rel_of_append_cons_cons]
  rintro k k' l₁ l₂ rfl
  have hk : k ∉ l₁ := notMem_of_nodup hnodup
  have hk' : k' ∉ l₁ ++ [k] := by
    have h' : (l₁ ++ [k] ++ k' :: l₂).Nodup := by simpa using hnodup
    exact notMem_of_nodup h'
  have hstart : start len (l₁ ++ k :: k' :: l₂) k = total len l₁ := start_append len hk _
  have hstart' : start len (l₁ ++ k :: k' :: l₂) k' = total len l₁ + len k := by
    rw [show l₁ ++ k :: k' :: l₂ = (l₁ ++ [k]) ++ k' :: l₂ by simp, start_append len hk']
    simp
  have hne : k ≠ k' := fun he => hk' (by simp [he])
  have hp := hpos k' (by simp)
  have := h k (by simp) k' (by simp) hne
  simp only [shifted, hstart, hstart'] at this
  omega

/-- The last shifted region ends inside only where the first one is as long. -/
theorem last_le_first {init : List κ} {z : κ} (hnodup : (init ++ [z]).Nodup)
    (h : shifted len (init ++ [z]) z + len z ≤ total len (init ++ [z])) :
    len z ≤ (((init ++ [z]).head?.map len).getD 0 : Nat) := by
  have hs : start len (init ++ [z]) z = total len init :=
    start_append len (notMem_of_nodup hnodup) []
  simp only [shifted, hs, total_append, total_cons, total_nil] at h
  omega

theorem shifted_eq_start (heq : ∀ k ∈ keys, ∀ k' ∈ keys, len k = len k') (hk : k ∈ keys) :
    shifted len keys k = start len keys k := by
  cases keys with
  | nil => exact absurd hk not_mem_nil
  | cons k₀ rest =>
    have := heq k hk k₀ mem_cons_self
    simp only [shifted, head?_cons, Option.map_some, Option.getD_some]
    omega

/-- Regions that begin one length too late are a layout exactly if they all have one length. -/
theorem shifted_iff (hnodup : keys.Nodup) (hpos : ∀ k ∈ keys, 0 < len k) :
    ((∀ k ∈ keys, shifted len keys k + len k ≤ total len keys) ∧
      ∀ k ∈ keys, ∀ k' ∈ keys, k ≠ k' →
        shifted len keys k + len k ≤ shifted len keys k' ∨
          shifted len keys k' + len k' ≤ shifted len keys k) ↔
      ∀ k ∈ keys, ∀ k' ∈ keys, len k = len k' := by
  constructor
  · rintro ⟨hin, hdisj⟩
    have hsorted := sorted_of_apart hnodup hpos hdisj
    cases keys with
    | nil => simp
    | cons k₀ rest =>
      obtain ⟨init, z, hz⟩ : ∃ init z, k₀ :: rest = init ++ [z] :=
        ⟨_, _, (dropLast_append_getLast (cons_ne_nil k₀ rest)).symm⟩
      have hlast : len z ≤ len k₀ := by
        have := last_le_first (hz ▸ hnodup) (hz ▸ hin z (hz ▸ by simp))
        rwa [← hz] at this
      -- the lengths lie between that of the first region and that of the last
      have hlow : ∀ k ∈ k₀ :: rest, len k₀ ≤ len k := by
        intro k hk
        rcases mem_cons.mp hk with rfl | hk
        · exact Nat.le_refl _
        · exact (pairwise_cons.mp hsorted).1 k hk
      have hhigh : ∀ k ∈ k₀ :: rest, len k ≤ len z := by
        intro k hk
        rw [hz] at hk hsorted
        rcases mem_append.mp hk with hk | hk
        · exact (pairwise_append.mp hsorted).2.2 k hk z mem_cons_self
        · rw [mem_singleton.mp hk]
      have hone : ∀ k ∈ k₀ :: rest, len k = len k₀ := fun k hk =>
        Nat.le_antisymm ((hhigh k hk).trans hlast) (hlow k hk)
      exact fun k hk k' hk' => (hone k hk).trans (hone k' hk').symm
  · intro heq
    refine ⟨fun k hk => ?_, fun k hk k' hk' hne => ?_⟩
    · have := start_add_len_le len hk
      rw [shifted_eq_start heq hk]
      omega
    · have := apart len hk hk' hne
      rw [shifted_eq_start heq hk, shifted_eq_start heq hk']
      omega

end Shifted

end Morphling.Layout
