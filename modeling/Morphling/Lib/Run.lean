import Mathlib.Data.List.Basic

/-!
# Runs of a machine

A machine is a function `next` from a state and an input to the next state. `exec` is the state
after a list of inputs. `Along P` says that every input of a run meets `P` in the state where it is
taken, `Sometime P` that one does, `Always I` that every state of the run meets `I`.

* `Along.always`: an invariant that every allowed step keeps holds in every state of a run;
  `Along.of_inv`: what it says about a step holds of every step.
* `always_iff_along`: where the steps that keep the property are exactly those that meet `ok`, the
  runs that keep it are exactly those whose steps all meet `ok`.
* `exists_exec_of_rank`: where every state but the final ones has a run to a lower rank, every state
  has a run to a final one.
* `done_of_rounds`: where moreover some thread always helps, and goes on to help until it takes a
  step, every run in which all threads take steps often enough (`Rounds`) leads to a final state.
-/

namespace Morphling.Run

open List

variable {σ ι : Type*} (next : σ → ι → σ)

/-- The state after the inputs `is`. -/
def exec (s : σ) (is : List ι) : σ := is.foldl next s

/-- Every input of the run meets `P` in the state where it is taken. -/
def Along (P : σ → ι → Prop) : σ → List ι → Prop
  | _, [] => True
  | s, i :: is => P s i ∧ Along P (next s i) is

/-- Some input of the run meets `P` in the state where it is taken. -/
def Sometime (P : σ → ι → Prop) : σ → List ι → Prop
  | _, [] => False
  | s, i :: is => P s i ∨ Sometime P (next s i) is

/-- The run has `n` parts, one after the other, in each of which every thread takes a step. -/
def Rounds (threads : List ι) : Nat → List ι → Prop
  | 0, _ => True
  | n + 1, is => ∃ is₁ is₂, is = is₁ ++ is₂ ∧ (∀ t ∈ threads, t ∈ is₁) ∧ Rounds threads n is₂

theorem rounds_flatten (threads : List ι) : ∀ n, Rounds threads n (replicate n threads).flatten
  | 0 => trivial
  | n + 1 => ⟨threads, _, rfl, fun _ => id, rounds_flatten threads n⟩

/-- Every state of the run meets `I`. -/
def Always (I : σ → Prop) (s : σ) (is : List ι) : Prop := ∀ pre, pre <+: is → I (exec next s pre)

variable {next} {P Q : σ → ι → Prop} {I J : σ → Prop} {s : σ} {i : ι} {is is' : List ι}
  {ok : ι → Prop}

instance Along.decidable [∀ s i, Decidable (P s i)] : ∀ s is, Decidable (Along next P s is)
  | _, [] => .isTrue trivial
  | s, i :: is =>
    have := Along.decidable (next s i) is
    inferInstanceAs (Decidable (P s i ∧ Along next P (next s i) is))

instance Sometime.decidable [∀ s i, Decidable (P s i)] : ∀ s is, Decidable (Sometime next P s is)
  | _, [] => .isFalse id
  | s, i :: is =>
    have := Sometime.decidable (next s i) is
    inferInstanceAs (Decidable (P s i ∨ Sometime next P (next s i) is))

@[simp] theorem exec_nil : exec next s [] = s := rfl

@[simp] theorem exec_cons : exec next s (i :: is) = exec next (next s i) is := rfl

theorem exec_append : exec next s (is ++ is') = exec next (exec next s is) is' :=
  foldl_append

theorem along_append : Along next P s (is ++ is') ↔
    Along next P s is ∧ Along next P (exec next s is) is' := by
  induction is generalizing s with
  | nil => simp [Along]
  | cons i is ih => simp only [cons_append, Along, ih, exec_cons, and_assoc]

theorem Along.mono (h : ∀ s i, P s i → Q s i) (hP : Along next P s is) : Along next Q s is := by
  induction is generalizing s with
  | nil => trivial
  | cons i is ih => exact ⟨h s i hP.1, ih hP.2⟩

theorem Along.and (hP : Along next P s is) (hQ : Along next Q s is) :
    Along next (fun s i => P s i ∧ Q s i) s is := by
  induction is generalizing s with
  | nil => trivial
  | cons i is ih => exact ⟨⟨hP.1, hQ.1⟩, ih hP.2 hQ.2⟩

theorem Along.of_forall (h : ∀ s i, P s i) : Along next P s is := by
  induction is generalizing s with
  | nil => trivial
  | cons i is ih => exact ⟨h s i, ih⟩

/-- `Along`, by the prefixes of the run that end in a step. -/
theorem along_iff_forall : Along next P s is ↔
    ∀ pre i, pre ++ [i] <+: is → P (exec next s pre) i := by
  induction is generalizing s with
  | nil => simp [Along]
  | cons j is ih =>
    simp only [Along, ih]
    constructor
    · rintro ⟨hj, h⟩ pre i hpre
      cases pre with
      | nil =>
        obtain ⟨rfl, -⟩ := cons_prefix_cons.mp hpre
        exact hj
      | cons k pre =>
        obtain ⟨rfl, hp⟩ := cons_prefix_cons.mp hpre
        exact h pre i hp
    · intro h
      refine ⟨h [] j (by simp), fun pre i hpre => h (j :: pre) i ?_⟩
      exact cons_prefix_cons.mpr ⟨rfl, hpre⟩

theorem Always.last (h : Always next I s is) : I (exec next s is) := h is prefix_rfl

theorem Always.mono (h : ∀ s, I s → J s) (hI : Always next I s is) : Always next J s is :=
  fun pre hpre => h _ (hI pre hpre)

theorem always_nil : Always next I s [] ↔ I s := by
  simp [Always]

theorem always_cons : Always next I s (i :: is) ↔ I s ∧ Always next I (next s i) is := by
  refine ⟨fun h => ⟨h [] nil_prefix, fun pre hpre => h (i :: pre) ?_⟩, ?_⟩
  · exact cons_prefix_cons.mpr ⟨rfl, hpre⟩
  · rintro ⟨h₀, h⟩ pre hpre
    cases pre with
    | nil => exact h₀
    | cons j pre =>
      obtain ⟨rfl, hp⟩ := cons_prefix_cons.mp hpre
      exact h pre hp

/-- The rule of invariants: a property that every step meeting `P` keeps holds along the run. -/
theorem Along.always (step : ∀ s i, I s → P s i → I (next s i)) (h : Along next P s is)
    (hs : I s) : Always next I s is := by
  induction is generalizing s with
  | nil => exact always_nil.mpr hs
  | cons i is ih => exact always_cons.mpr ⟨hs, ih h.2 (step s i hs h.1)⟩

/-- The same, where the inputs alone say which steps are allowed. -/
theorem inv_exec (step : ∀ s i, I s → ok i → I (next s i)) (his : ∀ i ∈ is, ok i) (hs : I s) :
    I (exec next s is) := by
  induction is generalizing s with
  | nil => exact hs
  | cons i is ih =>
    rw [forall_mem_cons] at his
    exact ih his.2 (step s i hs his.1)

/-- What an invariant says about the steps of a run. -/
theorem Along.of_inv (step : ∀ s i, I s → P s i → I (next s i))
    (use : ∀ s i, I s → P s i → Q s i) (h : Along next P s is) (hs : I s) : Along next Q s is := by
  induction is generalizing s with
  | nil => trivial
  | cons i is ih => exact ⟨use s i hs h.1, ih h.2 (step s i hs h.1)⟩

/-- The exact rule: `J` supports `I`, steps that meet `ok` keep `J`, and from `J` a step to a state
with `I` meets `ok`. Then the runs that keep `I` are those whose steps meet `ok`. -/
theorem always_iff_along (weaken : ∀ s, J s → I s)
    (keep : ∀ s i, J s → P s i → Q s i → J (next s i))
    (exact : ∀ s i, J s → P s i → I (next s i) → Q s i) (h : Along next P s is) (hs : J s) :
    Always next I s is ↔ Along next Q s is := by
  induction is generalizing s with
  | nil => simp [always_nil, Along, weaken s hs]
  | cons i is ih =>
    rw [always_cons]
    constructor
    · rintro ⟨-, hi⟩
      have hQ := exact s i hs h.1 (hi [] nil_prefix)
      exact ⟨hQ, (ih h.2 (keep s i hs h.1 hQ)).mp hi⟩
    · rintro ⟨hQ, hi⟩
      exact ⟨weaken s hs, (ih h.2 (keep s i hs h.1 hQ)).mpr hi⟩

/-- The rule of progress, by a rank that goes down. -/
theorem exists_exec_of_rank (done : σ → Prop) (rank : σ → Nat)
    (step : ∀ s, I s → ¬done s → ∃ is : List ι, (∀ i ∈ is, ok i) ∧ I (exec next s is) ∧
      rank (exec next s is) < rank s) (hs : I s) :
    ∃ is : List ι, (∀ i ∈ is, ok i) ∧ I (exec next s is) ∧ done (exec next s is) := by
  induction hr : rank s using Nat.strongRecOn generalizing s with
  | _ r ih =>
    by_cases hdone : done s
    · exact ⟨[], by simp, hs, hdone⟩
    · obtain ⟨is, his, hI, hlt⟩ := step s hs hdone
      obtain ⟨is', his', hI', hdone'⟩ := ih _ (hr ▸ hlt) hI rfl
      refine ⟨is ++ is', fun i hi => (mem_append.mp hi).elim (his i) (his' i), ?_⟩
      rw [exec_append]
      exact ⟨hI', hdone'⟩

/-! ## Fair runs -/

section Fair

/-- What it takes to show that fair runs reach `done`: the rank never goes up, some thread can bring
it down, and goes on to be able to until the rank goes down. -/
structure Progress (next : σ → ι → σ) (I : σ → Prop) (ok : ι → Prop) (done : σ → Prop)
    (rank : σ → Nat) (threads : List ι) (helps : σ → ι → Prop) : Prop where
  inv : ∀ s i, I s → ok i → I (next s i)
  stays : ∀ s i, I s → ok i → done s → done (next s i)
  step : ∀ s i, I s → ok i → ¬done s → rank (next s i) < rank s ∨
    rank (next s i) = rank s ∧ ∀ t ∈ threads, helps s t → helps (next s i) t
  exists_helps : ∀ s, I s → ¬done s → ∃ t ∈ threads, helps s t
  down : ∀ s, ∀ t ∈ threads, I s → ¬done s → helps s t → rank (next s t) < rank s

variable {ok : ι → Prop} {done : σ → Prop} {rank : σ → Nat} {threads : List ι}
  {helps : σ → ι → Prop}

namespace Progress

section
variable (h : Progress next I ok done rank threads helps)
include h

theorem stays_exec (hs : I s) (his : ∀ i ∈ is, ok i) (hd : done s) : done (exec next s is) := by
  induction is generalizing s with
  | nil => exact hd
  | cons i is ih =>
    rw [forall_mem_cons] at his
    exact ih (h.inv s i hs his.1) his.2 (h.stays s i hs his.1 hd)

theorem rank_exec_le (hs : I s) (his : ∀ i ∈ is, ok i) :
    done (exec next s is) ∨ rank (exec next s is) ≤ rank s := by
  induction is generalizing s with
  | nil => exact .inr (Nat.le_refl _)
  | cons i is ih =>
    by_cases hd : done s
    · exact .inl (h.stays_exec hs his hd)
    rw [forall_mem_cons] at his
    have hle : rank (next s i) ≤ rank s :=
      (h.step s i hs his.1 hd).elim Nat.le_of_lt fun e => Nat.le_of_eq e.1
    exact (ih (h.inv s i hs his.1) his.2).imp id fun hr => Nat.le_trans hr hle

/-- A thread that helps takes a step. -/
theorem rank_exec_lt (hs : I s) (his : ∀ i ∈ is, ok i) {t : ι} (ht : t ∈ threads)
    (hhelps : helps s t) (hmem : t ∈ is) :
    done (exec next s is) ∨ rank (exec next s is) < rank s := by
  induction is generalizing s with
  | nil => cases hmem
  | cons i is ih =>
    by_cases hd : done s
    · exact .inl (h.stays_exec hs his hd)
    rw [forall_mem_cons] at his
    have hI := h.inv s i hs his.1
    have hrest : rank (next s i) < rank s →
        done (exec next (next s i) is) ∨ rank (exec next (next s i) is) < rank s :=
      fun hlt => (h.rank_exec_le hI his.2).imp id fun hle => Nat.lt_of_le_of_lt hle hlt
    rcases mem_cons.mp hmem with rfl | hmem
    · exact hrest (h.down s t ht hs hd hhelps)
    · rcases h.step s i hs his.1 hd with hlt | ⟨heq, hkeep⟩
      · exact hrest hlt
      · exact heq ▸ ih hI his.2 (hkeep t ht hhelps) hmem

/-- Enough rounds lead to a final state. -/
theorem done_of_rounds {n : Nat} (hs : I s) (his : ∀ i ∈ is, ok i) (hn : rank s < n)
    (hr : Rounds threads n is) : done (exec next s is) := by
  induction n generalizing s is with
  | zero => cases hn
  | succ n ih =>
    obtain ⟨is₁, is₂, rfl, hall, hr⟩ := hr
    have his₁ : ∀ i ∈ is₁, ok i := fun i hi => his i (mem_append_left _ hi)
    have his₂ : ∀ i ∈ is₂, ok i := fun i hi => his i (mem_append_right _ hi)
    have hI := inv_exec h.inv his₁ hs
    rw [exec_append]
    by_cases hd : done s
    · exact h.stays_exec hI his₂ (h.stays_exec hs his₁ hd)
    obtain ⟨t, ht, hhelps⟩ := h.exists_helps s hs hd
    rcases h.rank_exec_lt hs his₁ ht hhelps (hall t ht) with hd | hlt
    · exact h.stays_exec hI his₂ hd
    · exact ih hI his₂ (by omega) hr

end

end Progress

end Fair

end Morphling.Run
