import Mathlib.Data.List.Basic

/-!
# Calls that can fail

A call gives a result or an error (`Except`). A sequence of calls gives a result where each of them
does.

* `bind_eq_ok`, `map_eq_ok`: the results of a call that uses the result of another.
* `mem_of_mapM`: what a call for each item of a list gives; `mapM_perm`: it succeeds in every order of
  the items, or in none, with the same results; `mapM_rel`: two calls that succeed together.
-/

namespace Morphling.Failing

open List

variable {ε α β : Type*} {x : Except ε α} {b : β}

theorem map_eq_ok {f : α → β} : x.map f = .ok b ↔ ∃ a, x = .ok a ∧ f a = b := by
  cases x <;> simp [Except.map]

/-- A sequence of calls that returns: each of them does. -/
theorem bind_eq_ok {f : α → Except ε β} : x.bind f = .ok b ↔ ∃ a, x = .ok a ∧ f a = .ok b := by
  cases x <;> simp [Except.bind]

variable {f : α → Except ε β} {xs : List α} {ys : List β}

theorem mapM_cons_eq_ok {x : α} :
    (x :: xs).mapM f = .ok ys ↔ ∃ y ys', f x = .ok y ∧ xs.mapM f = .ok ys' ∧ ys = y :: ys' := by
  rw [mapM_cons]
  constructor
  · intro h
    obtain ⟨y, hy, h⟩ := bind_eq_ok.mp h
    obtain ⟨ys', hys', h⟩ := bind_eq_ok.mp h
    exact ⟨y, ys', hy, hys', (Except.ok.inj h).symm⟩
  · rintro ⟨y, ys', hy, hys', rfl⟩
    rw [hy, hys']
    rfl

/-- Every result is that of an item. -/
theorem mem_of_mapM (h : xs.mapM f = .ok ys) {y : β} (hy : y ∈ ys) : ∃ x ∈ xs, f x = .ok y := by
  induction xs generalizing ys with
  | nil =>
    obtain rfl := Except.ok.inj h
    cases hy
  | cons x xs ih =>
    obtain ⟨y', ys', hx, hxs, rfl⟩ := mapM_cons_eq_ok.mp h
    rcases mem_cons.mp hy with rfl | hy
    · exact ⟨x, mem_cons_self, hx⟩
    · obtain ⟨x', hx', hok⟩ := ih hxs hy
      exact ⟨x', mem_cons_of_mem _ hx', hok⟩

/-- A call for each item succeeds in every order, or in none. -/
theorem mapM_perm {xs' : List α} (hperm : xs.Perm xs') (h : xs.mapM f = .ok ys) :
    ∃ ys', xs'.mapM f = .ok ys' ∧ ys.Perm ys' := by
  induction hperm generalizing ys with
  | nil => exact ⟨ys, h, .refl _⟩
  | cons x _ ih =>
    obtain ⟨y, ys₁, hx, hxs, rfl⟩ := mapM_cons_eq_ok.mp h
    obtain ⟨ys₂, hys₂, hp⟩ := ih hxs
    exact ⟨y :: ys₂, mapM_cons_eq_ok.mpr ⟨y, ys₂, hx, hys₂, rfl⟩, hp.cons y⟩
  | swap x x' _ =>
    obtain ⟨y', _, hx', hrest, rfl⟩ := mapM_cons_eq_ok.mp h
    obtain ⟨y, ys₁, hx, hxs, rfl⟩ := mapM_cons_eq_ok.mp hrest
    exact ⟨y :: y' :: ys₁, mapM_cons_eq_ok.mpr ⟨y, _, hx,
      mapM_cons_eq_ok.mpr ⟨y', ys₁, hx', hxs, rfl⟩, rfl⟩, .swap _ _ _⟩
  | trans _ _ ih₁ ih₂ =>
    obtain ⟨ys₁, hys₁, hp₁⟩ := ih₁ h
    obtain ⟨ys₂, hys₂, hp₂⟩ := ih₂ hys₁
    exact ⟨ys₂, hys₂, hp₁.trans hp₂⟩

/-- Two calls that succeed together, with related results. -/
theorem mapM_rel {γ : Type*} {g : α → Except ε γ} {R : β → γ → Prop}
    (hfg : ∀ x ∈ xs, ∀ y, f x = .ok y → ∃ z, g x = .ok z ∧ R y z) (h : xs.mapM f = .ok ys) :
    ∃ zs, xs.mapM g = .ok zs ∧ List.Forall₂ R ys zs := by
  induction xs generalizing ys with
  | nil =>
    obtain rfl := Except.ok.inj h
    exact ⟨[], rfl, .nil⟩
  | cons x xs ih =>
    obtain ⟨y, ys', hx, hxs, rfl⟩ := mapM_cons_eq_ok.mp h
    obtain ⟨z, hz, hR⟩ := hfg x mem_cons_self y hx
    obtain ⟨zs, hzs, hRs⟩ := ih (fun x hx => hfg x (mem_cons_of_mem _ hx)) hxs
    exact ⟨z :: zs, mapM_cons_eq_ok.mpr ⟨z, zs, hz, hzs, rfl⟩, .cons hR hRs⟩

end Morphling.Failing
