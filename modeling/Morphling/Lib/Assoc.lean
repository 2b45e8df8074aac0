import Mathlib.Data.List.AList

/-!
# Counting in association lists

What an insertion does to the keys of an `AList`, and how the number of entries with a property
changes when an entry is replaced or erased. With the property that is always true it is the number
of entries.
-/

namespace Morphling.Assoc

open List

universe u v

variable {α : Type u} {β : α → Type v} [DecidableEq α] {m : AList β} {k : α} {p : Sigma β → Bool}

/-- What holds of the keys and of an inserted key holds of the keys after the insertion. -/
theorem key_of_lookup_insert {P : α → Prop} {a : α} {v : β k} {w : β a} (hk : P k)
    (hm : ∀ {a} {w : β a}, m.lookup a = some w → P a) (h : (m.insert k v).lookup a = some w) :
    P a := by
  by_cases ha : a = k
  · exact ha ▸ hk
  · rw [AList.lookup_insert_ne ha] at h
    exact hm h

/-- What the entry of `k` adds to a count. -/
def weight (p : Sigma β → Bool) (m : AList β) (k : α) : Nat :=
  (m.lookup k).elim 0 fun v => if p ⟨k, v⟩ then 1 else 0

theorem weight_none (h : m.lookup k = none) : weight p m k = 0 := by
  simp [weight, h]

theorem weight_some {v : β k} (h : m.lookup k = some v) :
    weight p m k = if p ⟨k, v⟩ then 1 else 0 := by
  simp [weight, h]

/-- A count is the count without `k` and what `k` adds. -/
theorem countP_erase_add (p : Sigma β → Bool) (m : AList β) (k : α) :
    (m.erase k).entries.countP p + weight p m k = m.entries.countP p := by
  cases h : m.lookup k with
  | none =>
    have hk : k ∉ m := AList.lookup_eq_none.mp h
    rw [weight_none h, show (m.erase k).entries = m.entries from kerase_of_notMem_keys hk,
      Nat.add_zero]
  | some v =>
    have hk : k ∈ m.entries.keys := AList.lookup_isSome.mp (by rw [h]; rfl)
    obtain ⟨v', l₁, l₂, hnot, he, hr⟩ := exists_of_kerase hk
    have hv : v' = v := by
      have hl : List.dlookup k m.entries = some v := h
      rw [he, dlookup_append, dlookup_eq_none.mpr hnot, Option.none_or,
        dlookup_cons_eq] at hl
      exact Option.some.inj hl
    rw [weight_some h, show (m.erase k).entries = l₁ ++ l₂ from hr, he, hv, countP_append,
      countP_append, countP_cons]
    omega

/-- A replaced entry takes its old part out of a count and puts its new part in. -/
theorem countP_insert_add (p : Sigma β → Bool) (m : AList β) (k : α) (v : β k) :
    (m.insert k v).entries.countP p + weight p m k =
      m.entries.countP p + if p ⟨k, v⟩ then 1 else 0 := by
  have h := countP_erase_add p m k
  have hi : (m.insert k v).entries = ⟨k, v⟩ :: (m.erase k).entries := rfl
  rw [hi, countP_cons]
  omega

end Morphling.Assoc
