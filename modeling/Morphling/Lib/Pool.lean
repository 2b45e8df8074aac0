import Mathlib.Algebra.Ring.Nat
import Mathlib.Data.List.Basic

/-!
# A pool of tasks

Tasks in a list, where a step takes the task at one place and puts what is left of it back: nothing,
the task in its next state, or several tasks. `load f` is the sum of a measure of the tasks.

* `load_replace`, `count_replace`: a step changes the load by what it does to its own task.
* `mem_replace`, `mem_replace_of_mem`: the other tasks stay.
-/

namespace Morphling.Pool

open List

variable {α : Type*} {l new : List α} {i : Nat} {a x : α} {f g : α → Nat}

/-- The pool after the task at place `i` became the tasks `new`. -/
def replace (l : List α) (i : Nat) (new : List α) : List α := l.take i ++ new ++ l.drop (i + 1)

/-- The sum of a measure over the tasks. -/
def load (f : α → Nat) (l : List α) : Nat := (l.map f).sum

@[simp] theorem load_nil (f : α → Nat) : load f [] = 0 := rfl

@[simp] theorem load_cons (f : α → Nat) : load f (a :: l) = f a + load f l := by simp [load]

@[simp] theorem load_append (f : α → Nat) (l' : List α) :
    load f (l ++ l') = load f l + load f l' := by
  simp [load]

theorem load_congr (h : ∀ a ∈ l, f a = g a) : load f l = load g l := by
  rw [load, map_congr_left h, load]

theorem load_mono (h : ∀ a ∈ l, f a ≤ g a) : load f l ≤ load g l := by
  induction l with
  | nil => exact Nat.le_refl _
  | cons a l ih =>
    rw [load_cons, load_cons]
    exact Nat.add_le_add (h a mem_cons_self) (ih fun b hb => h b (mem_cons_of_mem a hb))

/-- A positive load comes from a task. -/
theorem exists_of_load_pos (h : 0 < load f l) : ∃ a ∈ l, 0 < f a := by
  by_contra hno
  have hz : load f l = load (fun _ => 0) l :=
    load_congr fun a ha => Nat.eq_zero_of_not_pos fun hp => hno ⟨a, ha, hp⟩
  rw [hz] at h
  simp [load] at h

theorem le_load (ha : a ∈ l) : f a ≤ load f l := by
  obtain ⟨l₁, l₂, rfl⟩ := append_of_mem ha
  rw [load_append, load_cons]
  omega

/-- The pool around the task at place `i`. -/
theorem eq_append (h : l[i]? = some a) : l = l.take i ++ a :: l.drop (i + 1) := by
  obtain ⟨hi, rfl⟩ := List.getElem?_eq_some_iff.mp h
  rw [getElem_cons_drop, take_append_drop]

theorem load_replace (f : α → Nat) (h : l[i]? = some a) :
    load f (replace l i new) + f a = load f l + load f new := by
  have hl : load f l = load f (l.take i) + (f a + load f (l.drop (i + 1))) := by
    rw [← load_cons, ← load_append, ← eq_append h]
  simp only [replace, load_append]
  omega

/-- A task that lost `c` of its measure. -/
theorem load_replace_one {c : Nat} (h : l[i]? = some a) (hf : f a = f x + c) :
    load f (replace l i [x]) + c = load f l := by
  have hr : load f (replace l i [x]) + f a = _ := load_replace f h
  rw [load_cons, load_nil] at hr
  omega

theorem count_replace [DecidableEq α] (new : List α) (x : α) (h : l[i]? = some a) :
    (replace l i new).count x + [a].count x = l.count x + new.count x := by
  have hl : l.count x = (l.take i).count x + ([a].count x + (l.drop (i + 1)).count x) := by
    rw [← count_append, ← count_append, singleton_append, ← eq_append h]
  simp only [replace, count_append]
  omega

theorem mem_replace (h : x ∈ replace l i new) : x ∈ l ∨ x ∈ new := by
  rcases mem_append.mp h with h | h
  · rcases mem_append.mp h with h | h
    · exact .inl (mem_of_mem_take h)
    · exact .inr h
  · exact .inl (mem_of_mem_drop h)

theorem mem_replace_of_new (h : x ∈ new) : x ∈ replace l i new :=
  mem_append_left _ (mem_append_right _ h)

/-- A task other than the one that moved is still there. -/
theorem mem_replace_of_mem (hi : l[i]? = some a) (hx : x ∈ l) : x = a ∨ x ∈ replace l i new := by
  rw [eq_append hi] at hx
  rcases mem_append.mp hx with hx | hx
  · exact .inr (mem_append_left _ (mem_append_left _ hx))
  · rcases mem_cons.mp hx with rfl | hx
    · exact .inl rfl
    · exact .inr (mem_append_right _ hx)

end Morphling.Pool
