import Mathlib.Algebra.Order.BigOperators.Group.List
import Mathlib.Algebra.Order.Ring.Nat
import Mathlib.Data.List.Nodup

/-!
# Balancing loads

Items of weight one are put on one of several bins, each on a bin with the least load (`leastLoaded`).

* `Balanced`: a bin that got an item has a load of at most one above any other.
* `Balanced.add`: another item on a least loaded bin keeps that.
* `Balanced.maxLoad_le`: no other way to put the same number of items on the bins has a lower maximum.
* `sum_countP`: what all bins got together.
-/

namespace Morphling.Balance

open List Function

variable {D : Type*}

/-- The first bin with the least load, by a scan that starts with `best`. -/
def leastLoaded (load : D → Nat) : D → List D → D
  | best, [] => best
  | best, d :: ds => leastLoaded load (if load d < load best then d else best) ds

def maxLoad (ds : List D) (load : D → Nat) : Nat := (ds.map load).foldr max 0

variable {ds : List D} {load init other : D → Nat} {best : D} {n : Nat}

theorem leastLoaded_mem : leastLoaded load best ds ∈ best :: ds := by
  induction ds generalizing best with
  | nil => exact mem_singleton_self _
  | cons d ds ih =>
    rw [leastLoaded]
    split
    · exact mem_cons_of_mem _ ih
    · have hmem : leastLoaded load best ds ∈ best :: ds := ih
      rcases mem_cons.mp hmem with h | h
      · exact mem_cons.mpr (.inl h)
      · exact mem_cons_of_mem _ (mem_cons_of_mem _ h)

theorem leastLoaded_le : ∀ d ∈ best :: ds, load (leastLoaded load best ds) ≤ load d := by
  induction ds generalizing best with
  | nil => simp [leastLoaded]
  | cons d ds ih =>
    rw [leastLoaded]
    -- the scan goes on with the lesser of the two
    have hmin : ∀ b, load b ≤ load d → load b ≤ load best →
        ∀ e ∈ best :: d :: ds, load (leastLoaded load b ds) ≤ load e := fun b hd hbest e he => by
      have hb : load (leastLoaded load b ds) ≤ load b := ih b mem_cons_self
      rcases mem_cons.mp he with rfl | he
      · omega
      · rcases mem_cons.mp he with rfl | he
        · omega
        · exact ih e (mem_cons_of_mem _ he)
    split
    · exact hmin d (Nat.le_refl _) (by omega)
    · exact hmin best (by omega) (Nat.le_refl _)

theorem maxLoad_le_iff : maxLoad ds load ≤ n ↔ ∀ d ∈ ds, load d ≤ n := by
  induction ds with
  | nil => simp [maxLoad]
  | cons d ds ih =>
    rw [forall_mem_cons, ← ih]
    simp only [maxLoad, map_cons, foldr_cons]
    omega

theorem le_maxLoad {d : D} (h : d ∈ ds) : load d ≤ maxLoad ds load :=
  maxLoad_le_iff.mp (Nat.le_refl _) d h

/-- The loads after some items were added to the loads `init`. -/
structure Balanced (ds : List D) (init load : D → Nat) : Prop where
  le : ∀ d, init d ≤ load d
  near : ∀ d ∈ ds, init d < load d → ∀ e ∈ ds, load d ≤ load e + 1

theorem Balanced.refl : Balanced ds init init :=
  ⟨fun _ => Nat.le_refl _, fun _ _ h => absurd h (Nat.lt_irrefl _)⟩

theorem Balanced.add [DecidableEq D] (h : Balanced ds init load) {b : D}
    (hb : ∀ d ∈ ds, load b ≤ load d) :
    Balanced ds init (update load b (load b + 1)) := by
  have hge : ∀ d, load d ≤ update load b (load b + 1) d := fun d => by
    rw [update_apply]
    split
    · rename_i hd
      rw [hd]
      omega
    · exact Nat.le_refl _
  refine ⟨fun d => Nat.le_trans (h.le d) (hge d), fun d hd hlt e he => ?_⟩
  have hle := hge e
  by_cases hdb : d = b
  · subst hdb
    have := hb e he
    rw [update_self]
    omega
  · rw [update_of_ne hdb] at hlt ⊢
    have := h.near d hd hlt e he
    omega

/-- A maximum that is lower would leave less load in sum. -/
theorem Balanced.maxLoad_le (h : Balanced ds init load) (hother : ∀ d ∈ ds, init d ≤ other d)
    (hsum : (ds.map load).sum = (ds.map other).sum) : maxLoad ds load ≤ maxLoad ds other := by
  rw [maxLoad_le_iff]
  intro d hd
  by_contra hlt
  rw [Nat.not_le] at hlt
  have hmax : ∀ e ∈ ds, other e < load d := fun e he => Nat.lt_of_le_of_lt (le_maxLoad he) hlt
  have hgot : init d < load d := Nat.lt_of_le_of_lt (hother d hd) (hmax d hd)
  have hle : ∀ e ∈ ds, other e ≤ load e := fun e he => by
    have := hmax e he
    have := h.near d hd hgot e he
    omega
  have := sum_lt_sum other load hle ⟨d, hd, hmax d hd⟩
  omega

theorem sum_ite_eq_count [DecidableEq D] (a : D) :
    (ds.map fun d => if a = d then 1 else 0).sum = ds.count a := by
  induction ds with
  | nil => rfl
  | cons d ds ih =>
    rw [map_cons, sum_cons, ih, count_cons]
    by_cases hd : a = d
    · subst hd
      simp [Nat.add_comm]
    · simp [hd, Ne.symm hd]

theorem sum_countP {α : Type*} [DecidableEq D] (hds : ds.Nodup) {f : α → D} {l : List α}
    (hf : ∀ a ∈ l, f a ∈ ds) : (ds.map fun d => l.countP (f · = d)).sum = l.length := by
  induction l with
  | nil => simp
  | cons a l ih =>
    obtain ⟨ha, hl⟩ := forall_mem_cons.mp hf
    simp only [countP_cons, decide_eq_true_eq]
    rw [sum_map_add, ih hl, sum_ite_eq_count, count_eq_one_of_mem hds ha,
      length_cons]

end Morphling.Balance
