import Mathlib.Data.List.Basic

/-!
# Streams of code words

A set `F` of words is a prefix code when no word of it is the start of another. A stream is then cut
into words in one way: `Cut F s ws rest` says that `s` is the words `ws` one after the other, and
`rest`, which has no word at its start.

* `Cut.unique`: there is at most one such cut.
* `Cut.append`: the cut of a stream that arrives in two parts, from the cut of the first.
-/

namespace Morphling.PrefixCode

open List

variable {α : Type*} {F : List α → Prop}

/-- No word is the start of another. -/
def IsPrefixFree (F : List α → Prop) : Prop := ∀ f g, F f → F g → f <+: g → f = g

/-- The words of a stream, and what is left. -/
structure Cut (F : List α → Prop) (s : List α) (ws : List (List α)) (rest : List α) : Prop where
  eq_append : s = ws.flatten ++ rest
  word : ∀ f ∈ ws, F f
  stop : ∀ f, F f → ¬ f <+: rest

variable {s t rest rest' f : List α} {ws ws' : List (List α)}

theorem Cut.nil (h : ∀ f, F f → ¬ f <+: s) : Cut F s [] s := ⟨rfl, by simp, h⟩

theorem Cut.cons (hf : F f) (h : Cut F s ws rest) : Cut F (f ++ s) (f :: ws) rest := by
  refine ⟨by simp [h.eq_append], fun g hg => ?_, h.stop⟩
  rcases mem_cons.mp hg with rfl | hg
  · exact hf
  · exact h.word g hg

/-- More of the stream only adds words. -/
theorem Cut.append (h : Cut F s ws rest) (h' : Cut F (rest ++ t) ws' rest') :
    Cut F (s ++ t) (ws ++ ws') rest' := by
  refine ⟨?_, fun g hg => ?_, h'.stop⟩
  · rw [h.eq_append, append_assoc, h'.eq_append, flatten_append, append_assoc]
  · rcases mem_append.mp hg with hg | hg
    · exact h.word g hg
    · exact h'.word g hg

/-- Two words at the start of one stream are the same. -/
theorem IsPrefixFree.eq_of_prefix (hF : IsPrefixFree F) {g : List α} (hf : F f) (hg : F g)
    (hfs : f <+: s) (hgs : g <+: s) : f = g := by
  rcases prefix_or_prefix_of_prefix hfs hgs with h | h
  · exact hF f g hf hg h
  · exact (hF g f hg hf h).symm

theorem Cut.unique (hF : IsPrefixFree F) (h : Cut F s ws rest) (h' : Cut F s ws' rest') :
    ws = ws' ∧ rest = rest' := by
  induction ws generalizing s ws' with
  | nil =>
    have hrest : s = rest := h.eq_append
    cases ws' with
    | nil => exact ⟨rfl, hrest.symm.trans h'.eq_append⟩
    | cons g ws' =>
      refine absurd ?_ (h.stop g (h'.word g mem_cons_self))
      rw [← hrest, h'.eq_append]
      exact ⟨ws'.flatten ++ rest', by simp⟩
  | cons f ws ih =>
    have hfs : f <+: s := ⟨ws.flatten ++ rest, by simp [h.eq_append]⟩
    cases ws' with
    | nil =>
      refine absurd ?_ (h'.stop f (h.word f mem_cons_self))
      rwa [← (show s = rest' from h'.eq_append)]
    | cons g ws' =>
      have hgs : g <+: s := ⟨ws'.flatten ++ rest', by simp [h'.eq_append]⟩
      obtain rfl := hF.eq_of_prefix (h.word f mem_cons_self) (h'.word g mem_cons_self)
        hfs hgs
      have htail : ws.flatten ++ rest = ws'.flatten ++ rest' := by
        have := h.eq_append.symm.trans h'.eq_append
        simpa using this
      obtain ⟨rfl, rfl⟩ := ih
        ⟨rfl, fun g hg => h.word g (mem_cons_of_mem _ hg), h.stop⟩
        ⟨htail, fun g hg => h'.word g (mem_cons_of_mem _ hg), h'.stop⟩
      exact ⟨rfl, rfl⟩

end Morphling.PrefixCode
