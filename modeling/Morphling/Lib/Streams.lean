import Mathlib.Data.List.Basic

/-!
# Asynchronous streams

A host issues operations on streams and does not wait for them. The operations of one stream are
executed in the order of issue, and nothing else orders them; the host can wait for a stream to be
empty, or for an event that it recorded on a stream.

* `Step`: one step of the host or of the device. `pending` has the issued operations in the order of
  issue; the device may take any one that no earlier operation of its stream is before.
* `Orderly`: the host issues on one stream at a time, and waits before it changes to another.
* `Steps.result_of_done`: then every execution ends in the memory that the operations give in the
  order of issue, with nothing left pending.
* `Conf.progress`, `Steps.bound`: no execution is stuck before the host is done, and none is longer
  than twice the number of commands.
-/

namespace Morphling.Streams

open List

/-- What the host does: `S` names the streams, `E` the events and `O` the operations. -/
inductive Cmd (S E O : Type*) where
  | launch (s : S) (op : O)
  | record (s : S) (e : E)
  | syncStream (s : S)
  | syncEvent (e : E)
  deriving Repr, DecidableEq

/-- What is issued and not yet executed. -/
inductive Item (S E O : Type*) where
  | work (s : S) (op : O)
  | mark (s : S) (e : E)
  deriving Repr, DecidableEq

/-- The rest of the host's program, what is pending in the order of issue, and the memory. -/
structure Conf (S E O M : Type*) where
  cmds : List (Cmd S E O)
  pending : List (Item S E O)
  mem : M

variable {S E O M : Type*} {s : S}

def Item.stream : Item S E O → S
  | .work s _ => s
  | .mark s _ => s

/-- The effect of an item; a mark has none. -/
def Item.run (apply : O → M → M) : Item S E O → M → M
  | .work _ op, m => apply op m
  | .mark _ _, m => m

/-! ## One stream at a time -/

section Busy

/-- What the host knows of the device: nothing is pending; all that is pending is on `s`; and also,
the last of it is the event `e`. -/
inductive Busy (S E : Type*) where
  | idle
  | on (s : S)
  | marked (s : S) (e : E)
  deriving Repr, DecidableEq

/-- The stream that may be busy. -/
def Busy.stream? : Busy S E → Option S
  | .idle => none
  | .on s => some s
  | .marked s _ => some s

/-- Nothing is pending on another stream than `s`. -/
def Busy.Only (b : Busy S E) (s : S) : Prop := ∀ s' ∈ b.stream?, s' = s

/-- What is pending is what the host knows. -/
def Busy.Covers (b : Busy S E) (p : List (Item S E O)) : Prop :=
  (∀ i ∈ p, b.stream? = some i.stream) ∧
    ∀ s e, b = .marked s e → p = [] ∨ ∃ q, p = q ++ [.mark s e]

/-- The operations in the order of issue. -/
def Cmd.run (apply : O → M → M) : Cmd S E O → M → M
  | .launch _ op, m => apply op m
  | _, m => m

/-- The memory after all that is pending and all that is left to issue, in this order. -/
def Conf.result (apply : O → M → M) (c : Conf S E O M) : M :=
  c.cmds.foldl (fun m cmd => cmd.run apply m) (c.pending.foldl (fun m i => i.run apply m) c.mem)

variable {b : Busy S E} {p q : List (Item S E O)} {i : Item S E O}

@[simp] theorem Busy.only_idle (s : S) : (idle : Busy S E).Only s := nofun

@[simp] theorem Busy.only_on (s : S) : (on s : Busy S E).Only s := by simp [Only, stream?]

@[simp] theorem Busy.only_marked (s : S) (e : E) : (marked s e).Only s := by simp [Only, stream?]

theorem Busy.covers_nil : b.Covers ([] : List (Item S E O)) := ⟨by simp, fun _ _ _ => .inl rfl⟩

theorem Busy.Covers.nil_of_idle (h : Covers (.idle : Busy S E) p) : p = [] := by
  cases p with
  | nil => rfl
  | cons i p => cases h.1 i mem_cons_self

/-- With one stream, the device has to take the first item. -/
theorem Busy.Covers.head (h : b.Covers (p ++ i :: q)) (hi : ∀ j ∈ p, j.stream ≠ i.stream) :
    p = [] := by
  cases p with
  | nil => rfl
  | cons j p =>
    have hj := h.1 j (by simp)
    rw [h.1 i (by simp)] at hj
    exact absurd (Option.some.inj hj).symm (hi j mem_cons_self)

theorem Busy.Covers.tail (h : b.Covers (i :: q)) : b.Covers q := by
  refine ⟨fun j hj => h.1 j (mem_cons_of_mem _ hj), fun s e hb => ?_⟩
  rcases h.2 s e hb with hnil | ⟨q', hq'⟩
  · cases hnil
  · cases q' with
    | nil => exact .inl (List.cons.inj hq').2
    | cons j q' => exact .inr ⟨q', (List.cons.inj hq').2⟩

/-- One more item on the stream that is busy. -/
theorem Busy.Covers.append {b' : Busy S E} (h : b.Covers p)
    (hq : q ⊆ p) (hs : b.Only s) (hi : i.stream = s) (hb : b'.stream? = some s)
    (hlast : ∀ s e, b' = .marked s e → i = .mark s e) : b'.Covers (q ++ [i]) := by
  refine ⟨fun j hj => ?_, fun s e he => .inr ⟨q, by rw [hlast s e he]⟩⟩
  rcases mem_append.mp hj with hj | hj
  · rw [hb, hs _ (h.1 j (hq hj))]
  · rw [hb, mem_singleton.mp hj, hi]

end Busy

/-! ## Executions -/

/-- A recording of `e`. -/
def Item.marks [DecidableEq E] (e : E) : Item S E O → Bool
  | .work _ _ => false
  | .mark _ e' => e' = e

variable [DecidableEq E]

/-- One step of an execution. A wait for an event is for its last recording only, so a new recording
takes the place of one that is still pending. -/
inductive Step (apply : O → M → M) : Conf S E O M → Conf S E O M → Prop where
  | launch {s op cs p m} : Step apply ⟨.launch s op :: cs, p, m⟩ ⟨cs, p ++ [.work s op], m⟩
  | record {s e cs p m} : Step apply ⟨.record s e :: cs, p, m⟩
      ⟨cs, p.filter (!·.marks e) ++ [.mark s e], m⟩
  | syncStream {s cs p m} (h : ∀ i ∈ p, i.stream ≠ s) :
      Step apply ⟨.syncStream s :: cs, p, m⟩ ⟨cs, p, m⟩
  | syncEvent {e cs p m} (h : ∀ s, .mark s e ∉ p) :
      Step apply ⟨.syncEvent e :: cs, p, m⟩ ⟨cs, p, m⟩
  | device {cs p i q m} (h : ∀ j ∈ p, j.stream ≠ i.stream) :
      Step apply ⟨cs, p ++ i :: q, m⟩ ⟨cs, p ++ q, i.run apply m⟩

/-- Executions of `n` steps. -/
inductive Steps (apply : O → M → M) : Nat → Conf S E O M → Conf S E O M → Prop where
  | refl {c} : Steps apply 0 c c
  | tail {n c d e} : Steps apply n c d → Step apply d e → Steps apply (n + 1) c e

/-! ## Every execution ends -/

/-- Twice the commands that are left, and what is pending. -/
def Conf.size (c : Conf S E O M) : Nat := 2 * c.cmds.length + c.pending.length

variable {apply : O → M → M} {c d : Conf S E O M} {n : Nat}

theorem Step.size_lt (h : Step apply c d) : d.size < c.size := by
  cases h with
  | @record s e cs p m =>
    have := length_filter_le (!Item.marks e ·) p
    simp only [Conf.size, length_cons, length_append, length_nil]
    omega
  | _ =>
    simp only [Conf.size, length_cons, length_append, length_nil]
    omega

theorem Steps.bound (h : Steps apply n c d) : n + d.size ≤ c.size := by
  induction h with
  | refl => simp
  | tail _ hs ih =>
    have := hs.size_lt
    omega

/-- The host can go on, or the device can. -/
theorem Conf.progress (h : c.cmds ≠ []) : ∃ d, Step apply c d := by
  obtain ⟨cs, p, m⟩ := c
  cases p with
  | cons i q => exact ⟨_, .device (p := []) (by simp)⟩
  | nil =>
    cases cs with
    | nil => exact absurd rfl h
    | cons cmd cs =>
      cases cmd with
      | launch s op => exact ⟨_, .launch⟩
      | record s e => exact ⟨_, .record⟩
      | syncStream s => exact ⟨_, .syncStream (by simp)⟩
      | syncEvent e => exact ⟨_, .syncEvent (by simp)⟩

/-! ## Orderly programs -/

variable {b : Busy S E} {p : List (Item S E O)} {r : M}

/-- Recordings have no effect on the memory. -/
theorem foldl_filter_marks (e : E) (m : M) :
    (p.filter (!·.marks e)).foldl (fun m i => i.run apply m) m =
      p.foldl (fun m i => i.run apply m) m := by
  induction p generalizing m with
  | nil => rfl
  | cons i p ih =>
    cases i with
    | work s op => simpa [Item.marks] using ih _
    | mark s e' => by_cases he : e' = e <;> simpa [Item.marks, Item.run, he] using ih _

section Orderly
variable [DecidableEq S] {e : E} {cs : List (Cmd S E O)}

instance (b : Busy S E) (s : S) : Decidable (b.Only s) :=
  inferInstanceAs (Decidable (∀ s' ∈ b.stream?, s' = s))

/-- What the host knows after a command; `none` where it issues on a second stream. -/
def Busy.next (b : Busy S E) : Cmd S E O → Option (Busy S E)
  | .launch s _ => if b.Only s then some (.on s) else none
  | .record s e => if b.Only s then some (.marked s e) else none
  | .syncStream s => some (if b.stream? = some s then .idle else b)
  | .syncEvent e =>
    match b with
    | .marked _ e' => some (if e = e' then .idle else b)
    | _ => some b

@[simp] theorem Busy.next_launch {op : O} (h : b.Only s) : b.next (.launch s op) = some (.on s) := if_pos h

@[simp] theorem Busy.next_record (h : b.Only s) :
    b.next (.record s e : Cmd S E O) = some (.marked s e) := if_pos h

@[simp] theorem Busy.next_syncEvent :
    (marked s e).next (.syncEvent e : Cmd S E O) = some .idle := by simp [next]

/-- After a wait for the only busy stream nothing is pending. -/
@[simp] theorem Busy.next_syncStream (h : b.Only s) :
    b.next (.syncStream s : Cmd S E O) = some .idle := by
  cases b with
  | idle => rfl
  | on s' => simp [next, stream?, h s' rfl]
  | marked s' e => simp [next, stream?, h s' rfl]

/-- The host issues on one stream at a time, and at the end nothing is pending. -/
def Orderly (b : Busy S E) (cs : List (Cmd S E O)) : Prop := cs.foldlM Busy.next b = some .idle

instance (b : Busy S E) (cs : List (Cmd S E O)) : Decidable (Orderly b cs) :=
  inferInstanceAs (Decidable (_ = _))

theorem Orderly.cons {cmd : Cmd S E O} (h : Orderly b (cmd :: cs)) :
    ∃ b', b.next cmd = some b' ∧ Orderly b' cs := by
  rw [Orderly, foldlM_cons] at h
  exact Option.bind_eq_some_iff.mp h

/-- The invariant of an execution whose result is `r`. -/
structure Sound (apply : O → M → M) (r : M) (b : Busy S E) (c : Conf S E O M) : Prop where
  orderly : Orderly b c.cmds
  covers : b.Covers c.pending
  result_eq : c.result apply = r

theorem Sound.step (h : Sound apply r b c) (hs : Step apply c d) : ∃ b', Sound apply r b' d := by
  obtain ⟨horder, hcov, hres⟩ := h
  cases hs with
  | launch =>
    obtain ⟨b', hb, horder⟩ := horder.cons
    simp only [Busy.next] at hb
    split at hb
    next hs =>
      obtain rfl := Option.some.inj hb
      refine ⟨_, horder, hcov.append (List.Subset.refl _) hs rfl rfl nofun, ?_⟩
      rw [← hres]
      simp [Conf.result, Cmd.run, Item.run]
    next => cases hb
  | record =>
    obtain ⟨b', hb, horder⟩ := horder.cons
    simp only [Busy.next] at hb
    split at hb
    next hs =>
      obtain rfl := Option.some.inj hb
      refine ⟨_, horder, hcov.append (filter_subset_self _) hs rfl rfl ?_, ?_⟩
      · rintro s e ⟨⟩
        rfl
      · rw [← hres]
        simp only [Conf.result, foldl_append, foldl_filter_marks]
        rfl
    next => cases hb
  | syncStream hnone =>
    obtain ⟨b', hb, horder⟩ := horder.cons
    obtain rfl := Option.some.inj hb
    refine ⟨_, horder, ?_, hres⟩
    split
    next hs =>
      -- all that could be pending is on this stream
      have hnil := eq_nil_iff_forall_not_mem.mpr fun i hi =>
        hnone i hi (Option.some.inj ((hcov.1 i hi).symm.trans hs))
      rw [hnil]
      exact Busy.covers_nil
    next => exact hcov
  | syncEvent hnone =>
    obtain ⟨b', hb, horder⟩ := horder.cons
    refine ⟨b', horder, ?_, hres⟩
    cases b with
    | idle => exact Option.some.inj hb ▸ hcov
    | on s => exact Option.some.inj hb ▸ hcov
    | marked s e' =>
      obtain rfl := Option.some.inj hb
      split
      next he =>
        rcases hcov.2 s e' rfl with hnil | ⟨q, hq⟩
        · dsimp only at hnil
          rw [hnil]
          exact Busy.covers_nil
        · dsimp only at hq
          exact absurd (by simp [hq, he]) (hnone s)
      next => exact hcov
  | device hfirst =>
    obtain rfl := hcov.head hfirst
    exact ⟨b, horder, hcov.tail, hres⟩

theorem Sound.steps (h : Sound apply r b c) (hs : Steps apply n c d) :
    ∃ b', Sound apply r b' d := by
  induction hs with
  | refl => exact ⟨b, h⟩
  | tail _ hs ih =>
    obtain ⟨b', h'⟩ := ih h
    exact h'.step hs

/-- An orderly program has one result, whatever the device does: the one of its operations in the
order of issue. When the host is done, nothing is pending. -/
theorem Steps.result_of_done {m : M} (horder : Orderly .idle cs) (hs : Steps apply n ⟨cs, [], m⟩ d)
    (hdone : d.cmds = []) : d.pending = [] ∧ d.mem = cs.foldl (fun m cmd => cmd.run apply m) m := by
  obtain ⟨b, h⟩ := Sound.steps ⟨horder, Busy.covers_nil, rfl⟩ hs
  have hidle : b = .idle := by
    have := h.orderly
    rw [hdone] at this
    exact Option.some.inj this
  have hnil := (hidle ▸ h.covers).nil_of_idle
  refine ⟨hnil, ?_⟩
  rw [show cs.foldl _ m = _ from h.result_eq.symm, Conf.result, hdone, hnil]
  rfl

end Orderly

end Morphling.Streams
