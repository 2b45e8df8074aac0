import Mathlib.Data.List.AList

/-!
# Partial maps and their inverses

A map from keys to values is a function to `Option`, and its writes and erasures are
`Function.update`. An index over it is its inverse (`Inverse`): it stays one where an entry is
inserted, erased or moved to another key in both.

`view` reads a part of each record of an association list as a partial map.
-/

namespace Morphling.PartialMap

open Function

variable {α β : Type*} [DecidableEq α] {f : α → Option β} {k a : α} {v b : β}

/-- A map with a new entry. -/
theorem update_some_iff (h : f k = none) :
    update f k (some v) a = some b ↔ (a = k ∧ b = v) ∨ f a = some b := by
  rw [update_apply]
  split
  next e => subst e; simp [h, eq_comm]
  next e => simp [e]

/-- A map without an entry. -/
theorem update_none_iff : update f k none a = some b ↔ a ≠ k ∧ f a = some b := by
  rw [update_apply]
  split
  next e => simp [e]
  next e => simp [e]

/-- What no key has, and the written value is not. -/
theorem update_ne {x y : Option β} (hx : x ≠ y) (h : ∀ a, f a ≠ y) (a : α) :
    update f k x a ≠ y := by
  rw [update_apply]
  split
  · exact hx
  · exact h a

/-! ## Inverse maps -/

/-- Two maps that are inverse to each other. -/
def Inverse (f : α → Option β) (g : β → Option α) : Prop := ∀ a b, f a = some b ↔ g b = some a

namespace Inverse

variable [DecidableEq β] {g : β → Option α}

theorem insert (h : Inverse f g) (hk : f k = none) (hv : g v = none) :
    Inverse (update f k (some v)) (update g v (some k)) := by
  intro a b
  rw [update_some_iff hk, update_some_iff hv, h a b, and_comm]

theorem erase (h : Inverse f g) (hk : f k = some v) :
    Inverse (update f k none) (update g v none) := by
  intro a b
  rw [update_none_iff, update_none_iff, h a b]
  refine and_congr_left fun hb => not_congr ⟨?_, ?_⟩
  · rintro rfl
    exact Option.some.inj (((h _ _).mpr hb).symm.trans hk)
  · rintro rfl
    exact Option.some.inj (hb.symm.trans ((h _ _).mp hk))

/-- The value of `k` moves to a key that no other value has. -/
theorem move (h : Inverse f g) (hk : f k = some v) {k' : α} (hk' : ∀ b, f k' = some b → b = v) :
    Inverse (update (update f k none) k' (some v))
      (update g v (some k')) := by
  have hfree : update f k none k' = none := by
    refine Option.eq_none_iff_forall_ne_some.mpr fun b hb => ?_
    obtain ⟨hne, hb⟩ := update_none_iff.mp hb
    obtain rfl := hk' b hb
    exact hne (Option.some.inj (((h _ _).mp hb).symm.trans ((h _ _).mp hk)))
  have := (h.erase hk).insert hfree (update_self v none g)
  rwa [update_idem] at this

end Inverse

/-! ## Views of records -/

section View
variable {γ δ : Type*} (p : γ → Option δ) (m : AList fun _ : α => γ)

/-- The part `p` of each record. -/
def view : α → Option δ := fun a => (m.lookup a).bind p

variable {p m} {r : γ}

theorem view_some (h : m.lookup a = some r) : view p m a = p r := by
  rw [view, h, Option.bind_some]

theorem view_none (h : m.lookup a = none) : view p m a = none := by
  rw [view, h, Option.bind_none]

theorem view_insert (a : α) (r : γ) :
    view p (m.insert a r) = update (view p m) a (p r) := by
  funext a'
  rw [update_apply]
  split
  next e => rw [e, view_some (AList.lookup_insert m)]
  next e => rw [view, AList.lookup_insert_ne e]; rfl

theorem view_erase (a : α) : view p (m.erase a) = update (view p m) a none := by
  funext a'
  rw [update_apply]
  split
  next e => rw [e, view_none (AList.lookup_erase a m)]
  next e => rw [view, AList.lookup_erase_ne e]; rfl

/-- A record replaced by one with the same part. -/
theorem view_insert_same {r' : γ} (h : m.lookup a = some r) (hp : p r' = p r) :
    view p (m.insert a r') = view p m := by
  rw [view_insert, hp, ← view_some (p := p) h, update_eq_self]

end View

end Morphling.PartialMap
