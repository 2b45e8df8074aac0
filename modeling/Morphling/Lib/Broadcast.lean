import Morphling.Lib.Index

/-!
# Broadcasting

Extents `small` expand to extents `big` where, aligned at the last one, each is 1 or the same. The
entry at `idx` of the expanded array is the entry at `restrict small idx` of the array.

* `sumTo`: the sum of an array down to smaller extents, over all entries that one entry expands to.
* `sumOver_restrict`: it is the adjoint of expanding.
-/

namespace Morphling.Index

open List

/-- The index of the entry that expands to `idx`: leading coordinates are dropped, and the
coordinate of an extent of 1 is 0. -/
def restrict (small idx : List Nat) : List Nat :=
  List.zipWith (fun s i => if s = 1 then 0 else i) small (idx.drop (idx.length - small.length))

/-- Extents with as many entries, each 1 or the same. -/
def Stretches : List Nat → List Nat → Prop
  | [], [] => True
  | s :: ss, b :: bs => (s = 1 ∨ s = b) ∧ Stretches ss bs
  | _, _ => False

instance decidableStretches : ∀ small big, Decidable (Stretches small big)
  | [], [] => .isTrue trivial
  | [], _ :: _ => .isFalse id
  | _ :: _, [] => .isFalse id
  | s :: ss, b :: bs =>
    have := decidableStretches ss bs
    inferInstanceAs (Decidable ((s = 1 ∨ s = b) ∧ Stretches ss bs))

/-- `is_expandable_to`. -/
def Expandable (small big : List Nat) : Prop :=
  small.length ≤ big.length ∧ Stretches small (big.drop (big.length - small.length))

instance (small big : List Nat) : Decidable (Expandable small big) :=
  inferInstanceAs (Decidable (_ ∧ _))

/-- The common extents of two aligned arrays, last extent first. -/
def broadcastRev : List Nat → List Nat → Option (List Nat)
  | [], bs => some bs
  | as, [] => some as
  | a :: as, b :: bs =>
    if a = b ∨ b = 1 then (broadcastRev as bs).map (a :: ·)
    else if a = 1 then (broadcastRev as bs).map (b :: ·)
    else none

/-- The extents that two arrays broadcast to. -/
def broadcast (as bs : List Nat) : Option (List Nat) :=
  (broadcastRev as.reverse bs.reverse).map List.reverse

variable {small big idx : List Nat}

theorem Stretches.refl : ∀ sizes : List Nat, Stretches sizes sizes
  | [] => trivial
  | _ :: ss => ⟨.inr rfl, Stretches.refl ss⟩

theorem Expandable.refl (sizes : List Nat) : Expandable sizes sizes :=
  ⟨Nat.le_refl _, by rw [Nat.sub_self]; exact .refl sizes⟩

/-- Trailing extents expand to the whole. -/
theorem Expandable.append (L sizes : List Nat) : Expandable sizes (L ++ sizes) := by
  refine ⟨by simp, ?_⟩
  rw [length_append, Nat.add_sub_cancel, drop_left]
  exact .refl sizes

theorem valid_zipWith : ∀ {small big idx : List Nat}, Stretches small big → Valid big idx →
    Valid small (List.zipWith (fun s i => if s = 1 then 0 else i) small idx)
  | [], [], [], _, _ => trivial
  | s :: ss, b :: bs, i :: is, hs, hv => by
    refine ⟨?_, valid_zipWith hs.2 hv.2⟩
    have hi := hv.1
    rcases hs.1 with rfl | rfl
    · exact Nat.zero_lt_one
    · dsimp only
      split <;> omega

theorem valid_drop : ∀ (n : Nat) {sizes idx : List Nat}, Valid sizes idx →
    Valid (sizes.drop n) (idx.drop n)
  | 0, _, _, h => h
  | _ + 1, [], [], _ => trivial
  | n + 1, _ :: _, _ :: _, h => valid_drop n h.2

/-- An entry of the expanded array comes from an entry. -/
theorem valid_restrict (hs : Expandable small big) (hv : Valid big idx) :
    Valid small (restrict small idx) := by
  unfold restrict
  rw [hv.length_eq]
  exact valid_zipWith hs.2 (valid_drop _ hv)

theorem zipWith_self : ∀ {sizes idx : List Nat}, Valid sizes idx →
    List.zipWith (fun s i => if s = 1 then 0 else i) sizes idx = idx
  | [], [], _ => rfl
  | s :: ss, i :: is, h => by
    rw [zipWith_cons_cons, zipWith_self h.2]
    have hi := h.1
    split
    · obtain rfl : i = 0 := by omega
      rfl
    · rfl

/-- Only the trailing coordinates matter. -/
theorem restrict_append {m : List Nat} (l : List Nat) (h : Valid small m) :
    restrict small (l ++ m) = m := by
  unfold restrict
  rw [length_append, h.length_eq, Nat.add_sub_cancel, drop_left, zipWith_self h]

theorem restrict_self (h : Valid small idx) : restrict small idx = idx := restrict_append [] h

theorem restrict_cons (i : Nat) (h : small.length ≤ idx.length) :
    restrict small (i :: idx) = restrict small idx := by
  unfold restrict
  rw [length_cons, Nat.succ_sub h, drop_succ_cons]

theorem broadcastRev_self : ∀ as : List Nat, broadcastRev as as = some as
  | [] => rfl
  | a :: as => by rw [broadcastRev, if_pos (.inl rfl), broadcastRev_self as, Option.map_some]

theorem broadcast_self (as : List Nat) : broadcast as as = some as := by
  rw [broadcast, broadcastRev_self, Option.map_some, reverse_reverse]

theorem broadcast_nil (as : List Nat) : broadcast as [] = some as := by
  have h : broadcastRev as.reverse [] = some as.reverse := by
    cases as.reverse <;> rfl
  rw [broadcast, reverse_nil, h, Option.map_some, reverse_reverse]

section Sum
variable {R : Type*} [CommSemiring R]

/-- The sum of the entries of `f`, of extents `big`, that the entry `idx` expands to. -/
def sumTo (big small : List Nat) (f : List Nat → R) (idx : List Nat) : R :=
  sumOver big fun idx' => if restrict small idx' = idx then f idx' else 0

/-- Summing down is the adjoint of expanding. -/
theorem sumOver_restrict (h : Expandable small big) (f g : List Nat → R) :
    sumOver big (fun idx => f idx * g (restrict small idx)) =
      sumOver small fun idx => sumTo big small f idx * g idx := by
  unfold sumTo
  simp only [← sumOver_mul_right]
  rw [sumOver_comm]
  refine sumOver_congr fun idx' hv => ?_
  simp only [ite_mul, zero_mul]
  exact (sumOver_ite_eq (valid_restrict h hv) fun idx => f idx' * g idx).symm

end Sum

end Morphling.Index
