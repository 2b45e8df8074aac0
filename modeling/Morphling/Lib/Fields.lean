import Morphling.Lib.Bytes

/-!
# Fields of fixed width

Variables are written to a file one after the other, and read back from a stream that may end early.
A read that finds too few bytes puts them over the first bytes of the variable, and leaves the others
as they are; the reads after it leave their variables unchanged.

* `Field`: a type that is kept in a fixed number of bytes. `Field.ofNat`: the unsigned numbers.
* `Field.read_take`: what a read gives where the stream is cut anywhere. The value comes back if the
  field is whole, or if the variable had it before (`read_take_of`), and exactly if the variable had
  its missing bytes (`ofBytes_mixed_iff`).
* `Field.readList`: the same for the elements of a vector, which are read one by one.
-/

namespace Morphling.Fields

open List

variable {α : Type*}

/-- What a variable with the bytes `old` has after a read from a stream with the bytes `rest`. -/
def fill (rest old : List UInt8) : List UInt8 := rest.take old.length ++ old.drop rest.length

theorem fill_take {xs old : List UInt8} (h : old.length = xs.length) (more : List UInt8) (k : Nat) :
    fill ((xs ++ more).take k) old = xs.take k ++ old.drop k := by
  have htake : ((xs ++ more).take k).take old.length = xs.take k := by
    rw [take_take, Nat.min_comm, ← take_take, h, take_left]
  have hdrop : old.drop ((xs ++ more).take k).length = old.drop k := by
    rw [length_take, length_append]
    rcases Nat.le_total k (xs.length + more.length) with hk | hk
    · rw [Nat.min_eq_left hk]
    · rw [Nat.min_eq_right hk, drop_eq_nil_of_le (by omega), drop_eq_nil_of_le (by omega)]
  rw [fill, htake, hdrop]

/-- Lists of the same length agree from `k` on where their parts do. -/
theorem drop_append_eq_iff {xs xs' ys ys' : List UInt8} (h : xs.length = xs'.length) (k : Nat) :
    (xs ++ ys).drop k = (xs' ++ ys').drop k ↔
      xs.drop k = xs'.drop k ∧ ys.drop (k - xs.length) = ys'.drop (k - xs.length) := by
  rw [drop_append, drop_append, ← h]
  exact ⟨fun heq => append_inj heq (by simp [h]), fun heq => by rw [heq.1, heq.2]⟩

/-- A type that is kept in `width` bytes. -/
structure Field (α : Type*) where
  width : Nat
  toBytes : α → List UInt8
  ofBytes : List UInt8 → α
  length_toBytes : ∀ a, (toBytes a).length = width
  ofBytes_toBytes : ∀ a, ofBytes (toBytes a) = a
  /-- The first bytes of one value and the last bytes of another are not taken for the first value,
  unless they are its bytes. -/
  mixed : ∀ k a b, ofBytes ((toBytes a).take k ++ (toBytes b).drop k) = a →
    (toBytes b).drop k = (toBytes a).drop k

attribute [simp] Field.length_toBytes

namespace Field

/-- A number that is written with its least significant byte first. -/
def ofNat (w : Nat) (toNat : α → Nat) (ofNat : Nat → α) (lt : ∀ a, toNat a < 256 ^ w)
    (ofNat_toNat : ∀ a, ofNat (toNat a) = a) (toNat_ofNat : ∀ n < 256 ^ w, toNat (ofNat n) = n) :
    Field α where
  width := w
  toBytes a := Bytes.toLE w (toNat a)
  ofBytes bs := ofNat (Bytes.ofLE bs)
  length_toBytes a := Bytes.length_toLE w (toNat a)
  ofBytes_toBytes a := by rw [Bytes.ofLE_toLE (lt a), ofNat_toNat]
  mixed k a b h := by
    generalize hbs : (Bytes.toLE w (toNat a)).take k ++ (Bytes.toLE w (toNat b)).drop k = bs at h
    have hlen : bs.length = w := by
      rw [← hbs, length_append, length_take, length_drop, Bytes.length_toLE,
        Bytes.length_toLE]
      omega
    have hlt : Bytes.ofLE bs < 256 ^ w := hlen ▸ Bytes.ofLE_lt bs
    have hnum : Bytes.ofLE bs = toNat a := by rw [← toNat_ofNat _ hlt, h]
    have hall : bs = (Bytes.toLE w (toNat a)).take k ++ (Bytes.toLE w (toNat a)).drop k := by
      rw [take_append_drop, ← hnum, ← hlen, Bytes.toLE_ofLE]
    exact append_cancel_left (hbs.trans hall)

variable (f : Field α)

/-- The variable after a read, and the rest of the stream. -/
def read (old : α) (rest : List UInt8) : α × List UInt8 :=
  (f.ofBytes (fill rest (f.toBytes old)), rest.drop f.width)

/-- The elements of a vector, read one by one. -/
def readList : List α → List UInt8 → List α × List UInt8
  | [], rest => ([], rest)
  | old :: olds, rest =>
    let (a, rest) := f.read old rest
    let (as, rest) := readList olds rest
    (a :: as, rest)

variable (old a : α) (more : List UInt8) (k : Nat)

theorem read_take : f.read old ((f.toBytes a ++ more).take k) =
    (f.ofBytes ((f.toBytes a).take k ++ (f.toBytes old).drop k), more.take (k - f.width)) := by
  have hlen : (f.toBytes old).length = (f.toBytes a).length := by simp
  rw [read, fill_take hlen, drop_take, drop_left' (f.length_toBytes a)]

/-- The variable had the value before, or the field is whole. -/
theorem read_take_of {old a : α} {k : Nat} (h : old = a ∨ f.width ≤ k) (more : List UInt8) :
    f.read old ((f.toBytes a ++ more).take k) = (a, more.take (k - f.width)) := by
  rw [read_take]
  rcases h with rfl | h
  · rw [take_append_drop, f.ofBytes_toBytes]
  · rw [take_of_length_le (by simpa), drop_eq_nil_of_le (by simpa), append_nil,
      f.ofBytes_toBytes]

theorem ofBytes_mixed_iff : f.ofBytes ((f.toBytes a).take k ++ (f.toBytes old).drop k) = a ↔
    (f.toBytes old).drop k = (f.toBytes a).drop k := by
  refine ⟨f.mixed k a old, fun h => ?_⟩
  rw [h, take_append_drop, f.ofBytes_toBytes]

@[simp] theorem length_flatMap_toBytes (as : List α) :
    (as.flatMap f.toBytes).length = f.width * as.length := by
  induction as with
  | nil => rfl
  | cons a as ih => rw [flatMap_cons, length_append, ih, f.length_toBytes,
      length_cons, Nat.mul_succ, Nat.add_comm]

theorem readList_take {olds as : List α} (h : olds.length = as.length) (more : List UInt8)
    (k : Nat) :
    (f.readList olds ((as.flatMap f.toBytes ++ more).take k)).2 =
        more.take (k - f.width * as.length) ∧
      ((f.readList olds ((as.flatMap f.toBytes ++ more).take k)).1 = as ↔
        (olds.flatMap f.toBytes).drop k = (as.flatMap f.toBytes).drop k) := by
  induction as generalizing olds k with
  | nil =>
    obtain rfl := length_eq_zero_iff.mp h
    simp [readList]
  | cons a as ih =>
    cases olds with
    | nil => cases h
    | cons old olds =>
      obtain ⟨hrest, hval⟩ := ih (Nat.succ.inj h) (k - f.width)
      have hsub : k - f.width - f.width * as.length = k - f.width * (as.length + 1) := by
        rw [Nat.mul_succ]
        omega
      simp only [readList, flatMap_cons, append_assoc, read_take]
      refine ⟨by rw [hrest, hsub, length_cons], ?_⟩
      rw [List.cons.injEq, ofBytes_mixed_iff, hval, drop_append_eq_iff (by simp), f.length_toBytes]

end Field

end Morphling.Fields
