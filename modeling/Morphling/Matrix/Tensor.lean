import Morphling.Lib.Index

/-!
# Row-major tensors

`Tensor β`: the extents of a tensor and its elements from `data_ptr()` on, row-major and without
gaps. The number of elements is part of the structure.

`rowDim` and `colDim` are the source's `shape[size() - 2]` and `shape[size() - 1]`. A shape of
rank below 2 has no such entries; the functions that read them say where they ask for the rank.
-/

namespace Morphling

open Index List

/-- A row-major tensor. -/
structure Tensor (β : Type*) where
  sizes : List Nat
  data : List β
  size_eq : data.length = sizes.prod

/-- `shape[size() - 2]`. -/
def rowDim (sizes : List Nat) : Nat := sizes.getD (sizes.length - 2) 0

/-- `shape[size() - 1]`. -/
def colDim (sizes : List Nat) : Nat := sizes.getD (sizes.length - 1) 0

/-- `std::vector(shape.begin(), shape.end() - 2)`. -/
def leading (sizes : List Nat) : List Nat := sizes.take (sizes.length - 2)

@[simp] theorem rowDim_append (L : List Nat) (m n : Nat) : rowDim (L ++ [m, n]) = m := by
  simp [rowDim]

@[simp] theorem colDim_append (L : List Nat) (m n : Nat) : colDim (L ++ [m, n]) = n := by
  simp [colDim]

@[simp] theorem leading_append (L : List Nat) (m n : Nat) : leading (L ++ [m, n]) = L := by
  simp [leading]

variable {sizes : List Nat}

/-- A shape of rank at least 2 ends in rows and columns. -/
theorem eq_leading_append (h : 2 ≤ sizes.length) :
    sizes = leading sizes ++ [rowDim sizes, colDim sizes] := by
  apply ext_getElem?
  intro i
  unfold leading rowDim colDim
  rcases Nat.lt_or_ge i (sizes.length - 2) with hi | hi
  · rw [getElem?_append_left (by simp; omega), getElem?_take_of_lt hi]
  · rw [getElem?_append_right (by simp; omega)]
    have hl : (sizes.take (sizes.length - 2)).length = sizes.length - 2 := by simp
    rw [hl]
    obtain rfl | rfl | hi' : i = sizes.length - 2 ∨ i = sizes.length - 1 ∨ sizes.length ≤ i := by
      omega
    · have hlt : sizes.length - 2 < sizes.length := by omega
      simp [getD_eq_getElem?_getD, hlt]
    · have hlt : sizes.length - 1 < sizes.length := by omega
      rw [show sizes.length - 1 - (sizes.length - 2) = 1 by omega]
      simp [getD_eq_getElem?_getD, hlt]
    · rw [getElem?_eq_none hi', getElem?_eq_none (by simp; omega)]

namespace Tensor

variable {β : Type*} {t u : Tensor β} {idx : List Nat} {f : List Nat → β}

/-- `dim()`. -/
def dim (t : Tensor β) : Nat := t.sizes.length

theorem ext_data (hs : t.sizes = u.sizes) (hd : t.data = u.data) : t = u := by
  cases t
  cases u
  simp_all

/-- The entry at `idx`. -/
def get? (t : Tensor β) (idx : List Nat) : Option β :=
  if Valid t.sizes idx then t.data[flat t.sizes idx]? else none

/-- The tensor of extents `sizes` whose entry at `idx` is `f idx`. -/
def ofFn (sizes : List Nat) (f : List Nat → β) : Tensor β where
  sizes := sizes
  data := (indices sizes).map f
  size_eq := by simp

@[simp] theorem sizes_ofFn (sizes : List Nat) (f : List Nat → β) : (ofFn sizes f).sizes = sizes :=
  rfl

theorem get?_of_valid (h : Valid t.sizes idx) : t.get? idx = t.data[flat t.sizes idx]? := if_pos h

@[simp] theorem get?_ofFn (h : Valid sizes idx) : (ofFn sizes f).get? idx = some (f idx) := by
  rw [get?_of_valid h]
  simp [ofFn, getElem?_indices h]

/-- An entry inside the extents exists. -/
theorem exists_get? (h : Valid t.sizes idx) : ∃ x, t.get? idx = some x := by
  have hlt : flat t.sizes idx < t.data.length := by rw [t.size_eq]; exact flat_lt h
  exact ⟨t.data[flat t.sizes idx], by rw [get?_of_valid h, getElem?_eq_getElem hlt]⟩

/-- Tensors with the same extents and the same entries are equal. -/
theorem ext_get? (hs : t.sizes = u.sizes) (h : ∀ idx, Valid t.sizes idx → t.get? idx = u.get? idx) :
    t = u := by
  obtain ⟨ts, td, ht⟩ := t
  obtain ⟨us, ud, hu⟩ := u
  obtain rfl : ts = us := hs
  have hd : td = ud := by
    apply ext_getElem?
    intro n
    rcases Nat.lt_or_ge n ts.prod with hn | hn
    · obtain ⟨idx, hv, rfl⟩ := exists_flat hn
      have := h idx hv
      rwa [get?_of_valid hv, get?_of_valid hv] at this
    · rw [getElem?_eq_none (by omega), getElem?_eq_none (by omega)]
  subst hd
  rfl

/-- The entry at `idx`, `0` outside the extents. -/
def get [Zero β] (t : Tensor β) (idx : List Nat) : β := (t.get? idx).getD 0

theorem get_of_valid [Zero β] (h : Valid t.sizes idx) :
    t.get idx = t.data.getD (flat t.sizes idx) 0 := by
  rw [get, get?_of_valid h, getD_eq_getElem?_getD]

@[simp] theorem get_ofFn [Zero β] (h : Valid sizes idx) : (ofFn sizes f).get idx = f idx := by
  rw [get, get?_ofFn h, Option.getD_some]

theorem ofFn_congr {g : List Nat → β} (h : ∀ idx, Valid sizes idx → f idx = g idx) :
    ofFn sizes f = ofFn sizes g :=
  ext_get? rfl fun idx hv => by
    have hv : Valid sizes idx := hv
    rw [get?_ofFn hv, get?_ofFn hv, h idx hv]

/-- A tensor is made of its entries. -/
theorem ofFn_get [Zero β] (t : Tensor β) : ofFn t.sizes t.get = t :=
  ext_get? rfl fun idx hv => by
    have hv : Valid t.sizes idx := hv
    obtain ⟨x, hx⟩ := exists_get? hv
    rw [get?_ofFn hv, get, hx, Option.getD_some]

end Tensor
end Morphling
