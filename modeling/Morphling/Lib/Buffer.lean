import Mathlib.Data.List.Basic
import Mathlib.Data.List.Induction
import Mathlib.Data.Nat.Basic

/-!
# Typed buffers addressed by bytes

A buffer is a list of cells, each `w` bytes wide; a program addresses it by byte offsets. `read`
and `write` access a range of whole cells and fail (`none`) where the range is not aligned to the
cells or leaves the buffer, so a computation that returns `some` made no such access.

`splice` is the write in units of cells; `getElem?_splice` says which cells it changes.
`foldlM_agrees` is the rule for many writes in any order: when every write puts the value `v q` into
each cell `q` it covers, the order and the overlaps do not matter. `foldlM_put` is the rule for
writes of any values: the last one over a cell counts.
-/

namespace Morphling.Buffer

open List

variable {β : Type*} {buf xs dst src : List β} {o w n q : Nat}

/-- The cells of the `size` bytes from byte `off` on. -/
def read (w : Nat) (buf : List β) (off size : Nat) : Option (List β) :=
  if w ∣ off ∧ w ∣ size ∧ off + size ≤ w * buf.length then
    some ((buf.drop (off / w)).take (size / w))
  else none

/-- `buf` with the cells from `o` on replaced by `xs`. -/
def splice (buf : List β) (o : Nat) (xs : List β) : List β :=
  buf.take o ++ xs ++ buf.drop (o + xs.length)

/-- `buf` with the cells from byte `off` on replaced by `xs`. -/
def write (w : Nat) (buf : List β) (off : Nat) (xs : List β) : Option (List β) :=
  if w ∣ off ∧ off + w * xs.length ≤ w * buf.length then some (splice buf (off / w) xs) else none

/-- `memcpy` of `n` bytes between two buffers. -/
def memcpy (w : Nat) (dst : List β) (dstOff : Nat) (src : List β) (srcOff n : Nat) :
    Option (List β) :=
  (read w src srcOff n).bind (write w dst dstOff)

/-- An aligned read inside the buffer, in units of cells. -/
theorem read_mul (hw : 0 < w) (h : o + n ≤ buf.length) :
    read w buf (o * w) (n * w) = some ((buf.drop o).take n) := by
  have hb : o * w + n * w ≤ w * buf.length := by
    rw [← Nat.add_mul, Nat.mul_comm w]; exact Nat.mul_le_mul_right _ h
  rw [read, if_pos ⟨Nat.dvd_mul_left .., Nat.dvd_mul_left .., hb⟩, Nat.mul_div_cancel _ hw,
    Nat.mul_div_cancel _ hw]

/-- An aligned write inside the buffer, in units of cells. -/
theorem write_mul (hw : 0 < w) (h : o + xs.length ≤ buf.length) :
    write w buf (o * w) xs = some (splice buf o xs) := by
  have hb : o * w + w * xs.length ≤ w * buf.length := by
    rw [Nat.mul_comm o, ← Nat.mul_add]; exact Nat.mul_le_mul_left _ h
  rw [write, if_pos ⟨Nat.dvd_mul_left .., hb⟩, Nat.mul_div_cancel _ hw]

theorem memcpy_mul (hw : 0 < w) {d s : Nat} (hs : s + n ≤ src.length) (hd : d + n ≤ dst.length) :
    memcpy w dst (d * w) src (s * w) (n * w) = some (splice dst d ((src.drop s).take n)) := by
  have hl : ((src.drop s).take n).length = n := by simp; omega
  rw [memcpy, read_mul hw hs, Option.bind_some, write_mul hw (by rw [hl]; exact hd)]

/-- A copy over the whole of `dst`. -/
theorem memcpy_all (hw : 0 < w) (hs : n ≤ src.length) (hd : dst.length = n) :
    memcpy w dst 0 src 0 (n * w) = some (src.take n) := by
  have hcopy := memcpy_mul hw (show 0 + n ≤ src.length by omega)
    (show 0 + n ≤ dst.length by omega)
  have hnil : dst.drop (min n src.length) = [] := drop_eq_nil_of_le (by omega)
  simpa [splice, hnil] using hcopy

/-- A write right behind what was written. -/
theorem splice_append (done rest xs : List β) :
    splice (done ++ rest) done.length xs = done ++ xs ++ rest.drop xs.length := by
  simp [splice, drop_append]

theorem length_splice (h : o + xs.length ≤ buf.length) : (splice buf o xs).length = buf.length := by
  simp [splice]; omega

/-- The cells of the range come from `xs`, the others are unchanged. -/
theorem getElem?_splice (h : o + xs.length ≤ buf.length) (i : Nat) :
    (splice buf o xs)[i]? = if o ≤ i ∧ i < o + xs.length then xs[i - o]? else buf[i]? := by
  have ho : (buf.take o).length = o := by simp; omega
  rw [splice, append_assoc]
  by_cases hi : i < o
  · rw [getElem?_append_left (by omega), getElem?_take_of_lt hi, if_neg (by omega)]
  · rw [getElem?_append_right (by omega), ho]
    by_cases hx : i < o + xs.length
    · rw [getElem?_append_left (by omega), if_pos ⟨by omega, hx⟩]
    · rw [getElem?_append_right (by omega), if_neg (by omega), getElem?_drop]
      congr 1
      omega

/-- A write of the values `v` leaves every cell that had its value, and gives it to the range. -/
theorem splice_agrees (h : o + xs.length ≤ buf.length) {v : Nat → β}
    (hx : ∀ j < xs.length, xs[j]? = some (v (o + j)))
    (hq : (o ≤ q ∧ q < o + xs.length) ∨ buf[q]? = some (v q)) :
    (splice buf o xs)[q]? = some (v q) := by
  rw [getElem?_splice h]
  split
  next hr =>
    have := hx (q - o) (by omega)
    rwa [show o + (q - o) = q by omega] at this
  next hr => exact hq.resolve_left hr

/-- Steps that each give `v` to the cells they cover and take it from none: after all of them,
in any order, every covered cell has its value. -/
theorem foldlM_agrees {σ ι : Type*} (cell : σ → Nat → Option β) (I : σ → Prop) (v : Nat → β)
    (cover : ι → Nat → Prop) (f : σ → ι → Option σ) (xs : List ι)
    (h : ∀ i ∈ xs, ∀ s, I s → ∃ s', f s i = some s' ∧ I s' ∧
      ∀ q, cover i q ∨ cell s q = some (v q) → cell s' q = some (v q)) :
    ∀ s, I s → ∃ s', xs.foldlM f s = some s' ∧ I s' ∧
      ∀ q, (∃ i ∈ xs, cover i q) ∨ cell s q = some (v q) → cell s' q = some (v q) := by
  induction xs with
  | nil => exact fun s hs => ⟨s, rfl, hs, fun q hq => hq.resolve_left (by simp)⟩
  | cons x xs ih =>
    intro s hs
    obtain ⟨s₁, hf, h₁, hc₁⟩ := h x (by simp) s hs
    obtain ⟨s₂, hf₂, h₂, hc₂⟩ := ih (fun i hi => h i (by simp [hi])) s₁ h₁
    refine ⟨s₂, by rw [foldlM_cons, hf]; exact hf₂, h₂, ?_⟩
    rintro q (⟨i, hi, hq⟩ | hq)
    · rcases mem_cons.mp hi with rfl | hi
      · exact hc₂ q (.inr (hc₁ q (.inl hq)))
      · exact hc₂ q (.inl ⟨i, hi, hq⟩)
    · exact hc₂ q (.inr (hc₁ q (.inr hq)))

/-! ## Several writes -/

/-- A write, by its first cell and its cells. -/
abbrev Write (β : Type*) := Nat × List β

/-- The write covers the cell. -/
def Write.Covers (w : Write β) (q : Nat) : Prop := w.1 ≤ q ∧ q < w.1 + w.2.length

def put (buf : List β) (w : Write β) : Option (List β) :=
  if w.1 + w.2.length ≤ buf.length then some (splice buf w.1 w.2) else none

/-- What the last write that covers the cell puts there. -/
def lastWrite (ws : List (Write β)) (q : Nat) : Option β :=
  ws.reverse.findSome? fun w => if w.1 ≤ q then w.2[q - w.1]? else none

theorem lastWrite_append (ws : List (Write β)) (w : Write β) (q : Nat) :
    lastWrite (ws ++ [w]) q =
      if w.1 ≤ q ∧ q < w.1 + w.2.length then w.2[q - w.1]? else lastWrite ws q := by
  simp only [lastWrite, reverse_append, reverse_singleton, singleton_append,
    findSome?_cons]
  by_cases hq : w.1 ≤ q
  · by_cases hlt : q < w.1 + w.2.length
    · have hlen : q - w.1 < w.2.length := by omega
      simp [hq, hlt, hlen]
    · simp [hq, hlt, getElem?_eq_none (show w.2.length ≤ q - w.1 by omega)]
  · simp [hq]

variable {ws : List (Write β)}

theorem lastWrite_eq_none (h : ∀ w ∈ ws, ¬ w.Covers q) : lastWrite ws q = none := by
  refine findSome?_eq_none_iff.mpr fun w hw => ?_
  have := h w (mem_reverse.mp hw)
  split
  next hq => exact getElem?_eq_none (by simp only [Write.Covers] at this; omega)
  next => rfl

theorem length_of_foldlM_put {buf' : List β} (h : ws.foldlM put buf = some buf') :
    buf'.length = buf.length := by
  induction ws generalizing buf with
  | nil => rw [← Option.some.inj h]
  | cons w ws ih =>
    rw [foldlM_cons, Option.bind_eq_bind, Option.bind_eq_some_iff] at h
    obtain ⟨buf₁, hput, hrest⟩ := h
    unfold put at hput
    split at hput
    next hw => rw [ih hrest, ← Option.some.inj hput, length_splice hw]
    next => cases hput

/-- Writes that all stay inside: each cell has what the last write over it put there. -/
theorem foldlM_put (h : ∀ w ∈ ws, w.1 + w.2.length ≤ buf.length) :
    ∃ buf', ws.foldlM put buf = some buf' ∧ buf'.length = buf.length ∧
      ∀ q, buf'[q]? = (lastWrite ws q).or buf[q]? := by
  induction ws using List.reverseRecOn with
  | nil => exact ⟨buf, rfl, rfl, fun q => by simp [lastWrite]⟩
  | append_singleton ws w ih =>
    obtain ⟨buf₁, hfold, hlen, hcell⟩ := ih fun w' hw' => h w' (by simp [hw'])
    have hw : w.1 + w.2.length ≤ buf₁.length := hlen ▸ h w (by simp)
    refine ⟨splice buf₁ w.1 w.2, ?_, (length_splice hw).trans hlen, fun q => ?_⟩
    · simp [foldlM_append, hfold, put, hw]
    · rw [getElem?_splice hw, lastWrite_append, hcell q]
      split
      next hq =>
        have : q - w.1 < w.2.length := by omega
        simp [this]
      next => rfl

end Morphling.Buffer
