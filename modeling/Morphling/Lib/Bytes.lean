import Mathlib.Algebra.Ring.Nat
import Mathlib.Data.List.Basic

/-!
# Numbers in bytes

Unsigned numbers as lists of bytes, least significant byte first (`toLE`, `ofLE`) or last (`toBE`,
`ofBE`), in any width; the bytes that a pointer sees (`peek`), and writes through it (`poke`).

* `ofLE_toLE`, `ofBE_toBE`: a number that fits its width comes back; `toLE_ofLE`, `toBE_ofBE`: so do
  the bytes.
* `peek_append_iff`: a pointer to two byte strings, one after the other.
* `poke_append`, `poke_append_rev`: a write in two parts, in either order.
-/

namespace Morphling.Bytes

open List

/-- The `w` bytes of `n`, least significant first. -/
def toLE : Nat → Nat → List UInt8
  | 0, _ => []
  | w + 1, n => UInt8.ofNat n :: toLE w (n / 256)

/-- The number with these bytes, least significant first. -/
def ofLE : List UInt8 → Nat
  | [] => 0
  | b :: bs => b.toNat + 256 * ofLE bs

/-- The `w` bytes of `n`, most significant first. -/
def toBE (w n : Nat) : List UInt8 := (toLE w n).reverse

def ofBE (bs : List UInt8) : Nat := ofLE bs.reverse

@[simp] theorem length_toLE (w n : Nat) : (toLE w n).length = w := by
  induction w generalizing n with
  | zero => rfl
  | succ w ih => simp [toLE, ih]

@[simp] theorem length_toBE (w n : Nat) : (toBE w n).length = w := by simp [toBE]

theorem ofLE_toLE {w n : Nat} (h : n < 256 ^ w) : ofLE (toLE w n) = n := by
  induction w generalizing n with
  | zero =>
    have : n = 0 := by simpa using h
    simp [toLE, ofLE, this]
  | succ w ih =>
    have hdiv : n / 256 < 256 ^ w := Nat.div_lt_of_lt_mul (by rwa [Nat.pow_succ, Nat.mul_comm] at h)
    simp only [toLE, ofLE, ih hdiv, UInt8.toNat_ofNat']
    omega

theorem ofBE_toBE {w n : Nat} (h : n < 256 ^ w) : ofBE (toBE w n) = n := by
  simp [ofBE, toBE, ofLE_toLE h]

theorem toLE_ofLE (bs : List UInt8) : toLE bs.length (ofLE bs) = bs := by
  induction bs with
  | nil => rfl
  | cons b bs ih =>
    have hb := b.toNat_lt
    have hdiv : (b.toNat + 256 * ofLE bs) / 256 = ofLE bs := by omega
    have hmod : UInt8.ofNat (b.toNat + 256 * ofLE bs) = b := by
      apply UInt8.toNat_inj.mp
      rw [UInt8.toNat_ofNat']
      omega
    simp only [length_cons, toLE, ofLE, hdiv, hmod, ih]

theorem toBE_ofBE (bs : List UInt8) : toBE bs.length (ofBE bs) = bs := by
  have h := toLE_ofLE bs.reverse
  rw [length_reverse] at h
  rw [toBE, ofBE, h, reverse_reverse]

theorem ofLE_lt (bs : List UInt8) : ofLE bs < 256 ^ bs.length := by
  induction bs with
  | nil => simp [ofLE]
  | cons b bs ih =>
    have hb := b.toNat_lt
    simp only [ofLE, length_cons, Nat.pow_succ]
    omega

theorem ofBE_lt (bs : List UInt8) : ofBE bs < 256 ^ bs.length := by
  simpa [ofBE] using ofLE_lt bs.reverse

theorem take_toLE {j w : Nat} (h : j ≤ w) (n : Nat) : (toLE w n).take j = toLE j n := by
  induction j generalizing w n with
  | zero => rfl
  | succ j ih =>
    obtain ⟨w, rfl⟩ := Nat.exists_eq_add_of_le' (Nat.lt_of_lt_of_le (Nat.succ_pos j) h)
    simp only [toLE, take_succ_cons, ih (Nat.le_of_succ_le_succ h)]

/-- The low bytes of a number do not depend on the high ones. -/
theorem toLE_add_mul (j n m : Nat) : toLE j (n + 256 ^ j * m) = toLE j n := by
  induction j generalizing n with
  | zero => rfl
  | succ j ih =>
    have hmul : 256 ^ (j + 1) * m = 256 * (256 ^ j * m) := by
      rw [Nat.pow_succ', Nat.mul_assoc]
    have hlow : UInt8.ofNat (n + 256 * (256 ^ j * m)) = UInt8.ofNat n := by
      apply UInt8.toNat_inj.mp
      simp
    have hdiv : (n + 256 * (256 ^ j * m)) / 256 = n / 256 + 256 ^ j * m := by omega
    rw [hmul, toLE, hlow, hdiv, ih, toLE]

/-! ## Pointers -/

/-- `len` bytes from offset `off` of a pointer. -/
def peek (data : Nat → UInt8) (off len : Nat) : List UInt8 :=
  (List.range len).map fun i => data (off + i)

@[simp] theorem length_peek (data : Nat → UInt8) (off len : Nat) :
    (peek data off len).length = len := by
  simp [peek]

theorem peek_add (data : Nat → UInt8) (off a b : Nat) :
    peek data off (a + b) = peek data off a ++ peek data (off + a) b := by
  simp [peek, range_add, Nat.add_assoc]

/-- A pointer to a concatenation points to both parts. -/
theorem peek_append_iff {data : Nat → UInt8} {off : Nat} {xs ys : List UInt8} :
    peek data off (xs ++ ys).length = xs ++ ys ↔
      peek data off xs.length = xs ∧ peek data (off + xs.length) ys.length = ys := by
  rw [length_append, peek_add]
  exact ⟨fun h => append_inj h (by simp), fun ⟨hx, hy⟩ => by rw [hx, hy]⟩

/-! ## Writes -/

/-- The bytes after `bs` was written at offset `off`. -/
def poke (data : Nat → UInt8) (off : Nat) (bs : List UInt8) : Nat → UInt8 := fun x =>
  if off ≤ x then bs[x - off]?.getD (data x) else data x

@[simp] theorem poke_nil (data : Nat → UInt8) (off : Nat) : poke data off [] = data := by
  funext x
  simp [poke]

/-- A write in two parts, the first part first. -/
theorem poke_append (data : Nat → UInt8) (off : Nat) (xs ys : List UInt8) :
    poke data off (xs ++ ys) = poke (poke data off xs) (off + xs.length) ys := by
  funext x
  unfold poke
  by_cases hx : off ≤ x
  · by_cases hlt : x - off < xs.length
    · have hle : ¬ off + xs.length ≤ x := by omega
      simp [hx, hle, getElem?_append_left hlt]
    · have hle : off + xs.length ≤ x := by omega
      have hsub : x - off - xs.length = x - (off + xs.length) := by omega
      simp [hx, hle, getElem?_append_right (Nat.le_of_not_lt hlt), hsub,
        getElem?_eq_none (Nat.le_of_not_lt hlt)]
  · have hle : ¬ off + xs.length ≤ x := by omega
    simp [hx, hle]

/-- A write in two parts, the second part first. -/
theorem poke_append_rev (data : Nat → UInt8) (off : Nat) (xs ys : List UInt8) :
    poke data off (xs ++ ys) = poke (poke data (off + xs.length) ys) off xs := by
  funext x
  unfold poke
  by_cases hx : off ≤ x
  · by_cases hlt : x - off < xs.length
    · simp [hx, getElem?_append_left hlt, hlt]
    · have hle : off + xs.length ≤ x := by omega
      have hsub : x - off - xs.length = x - (off + xs.length) := by omega
      simp [hx, hle, getElem?_append_right (Nat.le_of_not_lt hlt), hsub,
        getElem?_eq_none (Nat.le_of_not_lt hlt)]
  · have hle : ¬ off + xs.length ≤ x := by omega
    simp [hx, hle]

theorem peek_poke_self (data : Nat → UInt8) (off : Nat) (bs : List UInt8) :
    peek (poke data off bs) off bs.length = bs := by
  refine ext_getElem (by simp) fun i hi hi' => ?_
  simp [peek, poke, hi']

theorem peek_poke_of_disjoint {data : Nat → UInt8} {off off' len : Nat} {bs : List UInt8}
    (h : off' + len ≤ off ∨ off + bs.length ≤ off') :
    peek (poke data off bs) off' len = peek data off' len := by
  refine map_congr_left fun i hi => ?_
  have hi := mem_range.mp hi
  unfold poke
  split
  · rw [getElem?_eq_none (by omega), Option.getD_none]
  · rfl

theorem take_peek (data : Nat → UInt8) (off : Nat) {n len : Nat} (h : n ≤ len) :
    (peek data off len).take n = peek data off n := by
  obtain ⟨k, rfl⟩ := Nat.exists_eq_add_of_le h
  rw [peek_add, take_left' (by simp)]

end Morphling.Bytes
