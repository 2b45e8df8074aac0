import Mathlib.Algebra.Ring.Int.Defs
import Morphling.Hooks.Forward

/-!
# When a hook is transparent

`LinearFunction` replaces four operations. It makes its second operand contiguous and passes the
first one as it is, to a backend that ignores strides; and it takes its weight as `[in, out]`.

`transparent_iff` says for every layout of the arguments when the replaced operation returns what
the original returns, whatever the tensors contain and whichever backend multiplies:

* `Tensor.__matmul__` and `torch.bmm`: the first operand is contiguous, both are at least matrices,
  and the leading extents of the second are none or those of the first;
* the operator `@`: never, it raises a `TypeError`;
* `nn.Linear.forward`: the input is contiguous and at least a matrix;
* `torch.nn.functional.linear`, whose weight is `[out, in]`: also the weight is a square matrix that
  its strides make symmetric.

`matmul_transposed_differs`: a transposed view on the left gives another product.
-/

namespace Morphling

open Index Strided List LinearFunction Tensor

variable {R : Type*} [CommRing R]

/-! ## The property and the condition -/

/-- Whatever the tensors contain, the hook returns what the original operation returns, on every
backend that multiplies. -/
def Transparent (settings : Settings R) (entry : Entry) (input weight : Layout)
    (bias : Option Layout) : Prop :=
  ∀ backend : Backend R, (∀ a b, backend.Multiplies a b) → ∀ x w b : Nat → R,
    ∃ r, original entry (input.tensor x) (weight.tensor w) (bias.map (·.tensor b)) = some r ∧
      hooked settings backend entry (input.tensor x) (weight.tensor w) (bias.map (·.tensor b)) =
        .ok r

/-- The original operation accepts the layouts. -/
def Accepts (R : Type*) [CommRing R] (entry : Entry) (input weight : Layout)
    (bias : Option Layout) : Prop :=
  ∀ x w b : Nat → R,
    (original entry (input.tensor x) (weight.tensor w) (bias.map (·.tensor b))).isSome

/-- The layouts on which the hook is transparent. -/
def Faithful (entry : Entry) (input weight : Layout) : Prop :=
  match entry with
  | .matmul | .bmm =>
    2 ≤ input.dim ∧ 2 ≤ weight.dim ∧
      (weight.dim = 2 ∨ leading weight.sizes = leading input.sizes) ∧
      (input.isContiguous = true ∨ colDim weight.sizes = 0)
  | .operator => False
  | .linearForward => 2 ≤ input.dim ∧ (input.isContiguous = true ∨ rowDim weight.sizes = 0)
  | .linear =>
    2 ≤ input.dim ∧ weight.dim = 2 ∧ rowDim weight.sizes = colDim weight.sizes ∧
      input.isContiguous = true ∧
      (input.sizes.prod = 0 ∨ rowDim weight.sizes = 1 ∨
        rowDim weight.strides = colDim weight.strides)

instance (entry : Entry) (input weight : Layout) : Decidable (Faithful entry input weight) := by
  unfold Faithful
  split <;> infer_instance

/-! ## What the layouts must be -/

section Layouts
variable {v : Layout} {L : List Nat} {m k : Nat}

theorem exists_snoc {l : List Nat} (h : 0 < l.length) : ∃ l' i, l = l' ++ [i] :=
  ⟨_, _, (dropLast_append_getLast (ne_nil_of_length_pos h)).symm⟩

/-- Sums over two sequences of places that agree in every memory: one sequence has the places of
the other. -/
theorem exists_of_sums [Nontrivial R] {p q : Nat → Nat}
    (hq : ∀ h < k, ∀ h' < k, q h = q h' → h = h')
    (hsum : ∀ x : Nat → R, ∑ h ∈ Finset.range k, x (p h) = ∑ h ∈ Finset.range k, x (q h))
    {h : Nat} (hh : h < k) : ∃ h' < k, p h' = q h := by
  by_contra hne
  push Not at hne
  have hx := hsum fun n => if n = q h then 1 else 0
  rw [Finset.sum_eq_zero fun h' hh' => if_neg (hne h' (Finset.mem_range.mp hh')),
    Finset.sum_eq_single_of_mem h (Finset.mem_range.mpr hh) fun h' hh' hne' =>
      if_neg fun he => hne' (hq h' (Finset.mem_range.mp hh') h hh he), if_pos rfl] at hx
  exact zero_ne_one hx

/-- A reader that ignores the strides and gets the sum of every row right reads a contiguous
tensor. -/
theorem isContiguous_of_sums [Nontrivial R] (hv : v.sizes = L ++ [m, k])
    (h : ∀ x : Nat → R, ∀ l i, Valid L l → i < m →
      ∑ h ∈ Finset.range k, (v.tensor x).get (l ++ [i, h]) =
        ∑ h ∈ Finset.range k, (v.tensor x).raw.get (l ++ [i, h])) : v.isContiguous = true := by
  have hlen : v.strides.length = L.length + 2 := by
    rw [v.length_eq, hv, length_append]
    rfl
  obtain ⟨T, t, hT⟩ : ∃ T t, v.strides = T ++ [t] := exists_snoc (by rw [hlen]; omega)
  have hv' : v.sizes = (L ++ [m]) ++ [k] := by simp [hv]
  refine (isContiguous_iff v.length_eq).mpr ?_
  rw [hv', hT]
  refine rowMajor_of_rows ?_ fun l hl h₀ hh₀ => ?_
  · rw [hT, length_append, length_singleton] at hlen
    rw [length_append, length_singleton]
    omega
  · have hvalid : ∀ h < k, Valid v.sizes (l ++ [h]) := fun h hh => by
      rw [hv']
      exact (valid_append _ _ hl.length_eq).mpr ⟨hl, hh, trivial⟩
    have hinj : ∀ h < k, ∀ h' < k, v.offset + flat v.sizes (l ++ [h]) =
        v.offset + flat v.sizes (l ++ [h']) → h = h' := fun h hh h' hh' he => by
      have := flat_inj (hvalid h hh) (hvalid h' hh') (Nat.add_left_cancel he)
      simpa using this
    have hsum : ∀ x : Nat → R,
        ∑ h ∈ Finset.range k, x (v.offset + dot (l ++ [h]) v.strides) =
          ∑ h ∈ Finset.range k, x (v.offset + flat v.sizes (l ++ [h])) := fun x => by
      obtain ⟨l, i, rfl⟩ : ∃ l' i, l = l' ++ [i] := exists_snoc (by rw [hl.length_eq]; simp)
      have hl' : l.length = L.length := by simpa using hl.length_eq
      obtain ⟨hvl, hi, -⟩ := (valid_append [m] [i] hl').mp hl
      have := h x l i hvl hi
      simp only [append_assoc, cons_append, nil_append] at hvalid ⊢
      rw [Finset.sum_congr rfl fun h hh =>
        StridedTensor.get_raw (x := v.tensor x) (hvalid h (Finset.mem_range.mp hh))] at this
      exact this
    obtain ⟨h', hh', he⟩ := exists_of_sums hinj hsum hh₀
    exact ⟨h', hh', by rw [← hT, ← hv']; exact Nat.add_left_cancel he⟩

/-- The same for products with a matrix of ones that has a column. -/
theorem isContiguous_of_products [Nontrivial R] {n : Nat} (hd : 2 ≤ v.dim) (hn : 0 < n)
    (h : ∀ x : Nat → R,
      product (leading v.sizes) (rowDim v.sizes) n (colDim v.sizes)
          (fun l i h => (v.tensor x).get (l ++ [i, h])) (fun _ _ _ => 1) =
        .product (leading v.sizes) (rowDim v.sizes) n (colDim v.sizes)
          (fun l i h => (v.tensor x).raw.get (l ++ [i, h])) fun _ _ _ => 1) :
    v.isContiguous = true := by
  obtain ⟨L, m, k, hv⟩ := v.exists_sizes hd
  refine isContiguous_of_sums (R := R) hv fun x l i hl hi => ?_
  have hx := congrArg (·.get (l ++ [i, 0])) (h x)
  rw [hv, leading_append, rowDim_append, colDim_append] at hx
  simpa only [get_product hl hi hn, mul_one] using hx

end Layouts

section Symmetric
variable {v w : Layout} {L : List Nat} {m d : Nat}

/-- A memory that is 1 at one entry of a contiguous tensor. -/
theorem get_indicator (hv : v.isContiguous = true) {idx idx' : List Nat} (h : Valid v.sizes idx)
    (h' : Valid v.sizes idx') :
    (v.tensor fun n => if n = v.offset + flat v.sizes idx' then (1 : R) else 0).get idx =
      if idx = idx' then 1 else 0 := by
  have hdot : dot idx v.strides = flat v.sizes idx := (isContiguous_iff v.length_eq).mp hv idx h
  have hiff : v.offset + flat v.sizes idx = v.offset + flat v.sizes idx' ↔ idx = idx' :=
    ⟨fun he => flat_inj h h' (Nat.add_left_cancel he), fun he => by rw [he]⟩
  simp only [StridedTensor.get, Layout.tensor, hdot, hiff]

/-- Products with a matrix and with its transpose agree only where the strides say so. -/
theorem strides_eq_of_sums [Nontrivial R] (hv : v.isContiguous = true) (hs : v.sizes = L ++ [m, d])
    (hp : v.sizes.prod ≠ 0) (hd : d ≠ 1) (hw : w.dim = 2)
    (h : ∀ x y : Nat → R, ∀ l i, Valid L l → i < m → ∀ j < d,
      ∑ h ∈ Finset.range d, (v.tensor x).get (l ++ [i, h]) * (w.tensor y).get [j, h] =
        ∑ h ∈ Finset.range d, (v.tensor x).get (l ++ [i, h]) * (w.tensor y).get [h, j]) :
    rowDim w.strides = colDim w.strides := by
  obtain ⟨l, i, j, -, hl, hi, hj⟩ := exists_of_valid (hs ▸ valid_zeros hp)
  have h1 : 1 < d := by omega
  have hvalid : ∀ h < d, Valid v.sizes (l ++ [i, h]) := fun h hh => by
    rw [hs]
    exact hl.append_pair hi hh
  have hy : ∀ y : Nat → R, (w.tensor y).get [0, 1] = (w.tensor y).get [1, 0] := fun y => by
    have hx := h (fun n => if n = v.offset + flat v.sizes (l ++ [i, 1]) then 1 else 0) y l i hl hi 0
      (by omega)
    have hind : ∀ f : Nat → R, ∑ h ∈ Finset.range d, (v.tensor fun n =>
        if n = v.offset + flat v.sizes (l ++ [i, 1]) then (1 : R) else 0).get (l ++ [i, h]) * f h =
        f 1 := fun f => by
      rw [Finset.sum_eq_single_of_mem 1 (Finset.mem_range.mpr h1)]
      · rw [get_indicator hv (hvalid 1 h1) (hvalid 1 h1), if_pos rfl, one_mul]
      · intro h' hh' hne
        rw [get_indicator hv (hvalid h' (Finset.mem_range.mp hh')) (hvalid 1 h1),
          if_neg (by simpa using hne), zero_mul]
    rwa [hind fun h => (w.tensor y).get [0, h], hind fun h => (w.tensor y).get [h, 0]] at hx
  obtain ⟨s, t, hst⟩ : ∃ s t, w.strides = [s, t] := by
    have := w.length_eq
    exact length_eq_two.mp (this.trans hw)
  have hone := hy fun n => if n = w.offset + t then 1 else 0
  simp only [StridedTensor.get, Layout.tensor, hst, dot] at hone
  rw [if_pos (by omega)] at hone
  by_contra hne
  rw [if_neg (by rw [hst] at hne; simp [rowDim, colDim] at hne; omega)] at hone
  exact one_ne_zero hone

end Symmetric

/-! ## The four hooks -/

section Entries
variable {settings : Settings R} {input weight : Layout} {bias : Option Layout}
  {backend : Backend R} {r : Tensor R} {z : StridedTensor R}

/-- Where `forward` with the weight `z` does what `linear` does, the backend saw the product of
`linear`. -/
theorem linearProduct_eq {input weight : StridedTensor R} {bias : Option (StridedTensor R)}
    (hm : ∀ a b, backend.Multiplies a b) (hw2 : weight.dim = 2)
    (hs : Sendable input.toLayout z.toLayout) (hz : colDim z.sizes = rowDim weight.sizes)
    (hr : input.values.linear weight.values (bias.map (·.values)) = some r)
    (hf : forward settings backend input z bias = .ok r) :
    linearProduct input weight = rawProduct input z := by
  obtain ⟨hcol, hb⟩ := shapes_of_linear hs.1 hw2 hr
  have h := linear_eq_addBias hs.1 hw2 hcol hb
  rw [hr] at h
  refine addBias_inj rfl ?_ hb h.symm (addBias_of_forward hs hm hf)
  rw [rawProduct, hz]
  rfl

omit [CommRing R] in
/-- The transpose of a matrix, with its layout. -/
theorem transposeLast_matrix {weight : StridedTensor R} (hw2 : weight.dim = 2) :
    ∃ y, weight.transposeLast = some y ∧ y.dim = 2 ∧ rowDim y.sizes = colDim weight.sizes ∧
      colDim y.sizes = rowDim weight.sizes ∧ ∀ i j, y.get [i, j] = weight.get [j, i] := by
  obtain ⟨y, hy, hs, hget⟩ := StridedTensor.transposeLast_eq (Nat.le_of_eq hw2.symm)
  obtain ⟨n, k, hw⟩ := length_eq_two.mp hw2
  have hys : y.sizes = [k, n] := by
    rw [hs, hw]
    rfl
  refine ⟨y, hy, ?_, ?_, ?_, fun i j => hget [] i j (by rw [hw2]; rfl)⟩
  · rw [Layout.dim, hys]
    rfl
  · rw [hys, hw]
    rfl
  · rw [hys, hw]
    rfl

section Transposed
variable {input weight y : StridedTensor R} (hd : y.dim = 2)
  (hc : colDim y.sizes = rowDim weight.sizes) (hget : ∀ i j, y.get [i, j] = weight.get [j, i])
include hd hc hget

theorem rawProduct_transposed : rawProduct input y =
    .product (leading input.sizes) (rowDim input.sizes) (rowDim weight.sizes) (colDim input.sizes)
      (fun l i h => input.raw.get (l ++ [i, h])) fun _ h j => weight.get [j, h] := by
  simp only [rawProduct, hd, hc, if_true, nil_append, hget]

theorem valuesProduct_transposed : valuesProduct input y = linearProduct input weight := by
  simp only [valuesProduct, linearProduct, hd, hc, if_true, nil_append, hget]

end Transposed

theorem hooked_linearForward {input weight y : StridedTensor R} {bias : Option (StridedTensor R)}
    (hw2 : weight.dim = 2) (hy : weight.transposeLast = some y) :
    hooked settings backend .linearForward input weight bias =
      forward settings backend input y bias := by
  change (orShape weight.t).bind _ = _
  rw [StridedTensor.t, if_neg (by omega), if_pos hw2, hy]
  rfl

theorem Tensor.dim_le_of_linear {a w : Tensor R} {bias : Option (Tensor R)}
    (h : a.linear w bias = some r) : w.dim ≤ 2 := by
  obtain ⟨w', ht, -⟩ := Option.bind_eq_some_iff.mp h
  unfold t at ht
  by_contra hd
  rw [if_neg (by omega), if_neg (by omega)] at ht
  cases ht

/-- A square weight may be used for its transpose where nothing is multiplied, or its strides make
it symmetric. -/
theorem linearProduct_eq_valuesProduct {input weight : StridedTensor R} (hi2 : 2 ≤ input.dim)
    (hw2 : weight.dim = 2) (hd : rowDim weight.sizes = colDim weight.sizes)
    (hcol : colDim input.sizes = colDim weight.sizes)
    (h : input.sizes.prod = 0 ∨ rowDim weight.sizes = 1 ∨
      rowDim weight.strides = colDim weight.strides) :
    linearProduct input weight = valuesProduct input weight := by
  obtain ⟨L, m, k, hi⟩ := Layout.exists_sizes hi2
  unfold linearProduct valuesProduct
  rw [hd]
  refine ofFn_congr fun idx hv => ?_
  obtain ⟨l, i, j, rfl, hl, hi', hj⟩ := exists_of_valid hv
  refine Finset.sum_congr rfl fun q hq => ?_
  have hq := Finset.mem_range.mp hq
  simp only [leading_append, rowDim_append, colDim_append, hw2, if_true, nil_append]
  congr 1
  rcases h with h | h | h
  · have hlt : flat input.sizes (l ++ [i, q]) < input.sizes.prod := by
      refine flat_lt ?_
      rw [hi, leading_append, rowDim_append, colDim_append] at *
      exact hl.append_pair hi' hq
    omega
  · obtain rfl : j = 0 := by omega
    obtain rfl : q = 0 := by omega
    rfl
  · obtain ⟨s, t, hst⟩ := length_eq_two.mp (weight.length_eq.trans hw2)
    obtain rfl : s = t := by
      rw [hst] at h
      exact h
    simp only [StridedTensor.get, hst, dot]
    congr 1
    omega

theorem Accepts.ne_none {entry : Entry} (h : Accepts R entry input weight bias) :
    original entry (input.tensor fun _ => (0 : R)) (weight.tensor fun _ => 0)
      (bias.map (·.tensor fun _ => 0)) ≠ none :=
  Option.isSome_iff_ne_none.mp (h _ _ _)

section Close
variable (hclose : settings.enableVerification = true → ∀ v, settings.allclose v v = true)
include hclose

/-- Where the backend sees the product of `linear`, `forward` with the weight `z` does what `linear`
does. -/
theorem forward_eq_linear {input weight : StridedTensor R} {bias : Option (StridedTensor R)}
    (hm : ∀ a b, backend.Multiplies a b) (hw2 : weight.dim = 2) (hs : Sendable input.toLayout z.toLayout)
    (hraw : rawProduct input z = valuesProduct input z)
    (hlin : linearProduct input weight = valuesProduct input z)
    (hr : input.values.linear weight.values (bias.map (·.values)) = some r) :
    forward settings backend input z bias = .ok r := by
  obtain ⟨hcol, hb⟩ := shapes_of_linear hs.1 hw2 hr
  rw [forward_eq hs hm hclose ((matmul_values hs).trans (congrArg some hraw.symm)),
    hraw, ← hlin, ← linear_eq_addBias hs.1 hw2 hcol hb, hr]
  rfl

variable [Nontrivial R]

/-- `__matmul__`. -/
theorem matmul_transparent_iff (haccept : Accepts R .matmul input weight none) :
    Transparent settings .matmul input weight none ↔ Faithful .matmul input weight := by
  constructor
  · intro h
    have hs : Sendable input weight := by
      obtain ⟨r, -, hr⟩ := h exactBackend exactBackend_multiplies (fun _ => 0) (fun _ => 0) fun _ => 0
      exact sendable_of_forward hr
    refine ⟨hs.1, hs.2.1, hs.2.2.1, or_iff_not_imp_right.mpr fun hn => ?_⟩
    -- with a weight of ones, the entries of the product are the sums of the rows
    refine isContiguous_of_products (R := R) hs.1 (Nat.pos_of_ne_zero hn) fun x => ?_
    obtain ⟨r, hr, hf⟩ := h exactBackend exactBackend_multiplies x (fun _ => 1) x
    have ha := addBias_of_forward hs exactBackend_multiplies hf
    exact (Option.some.inj ((matmul_values hs).symm.trans hr)).trans (Except.ok.inj ha).symm
  · rintro ⟨hi2, hw2, hlead, hc⟩ backend hm x w b
    obtain ⟨r, hr⟩ := Option.isSome_iff_exists.mp (haccept x w b)
    have hs : Sendable input weight := ⟨hi2, hw2, hlead,
      colDim_eq_of_matmul (a := (input.tensor x).values) (b := (weight.tensor w).values)
        hi2 hw2 hr⟩
    have he : rawProduct (input.tensor x) (weight.tensor w) = r :=
      (rawProduct_eq hi2 hc).trans (Option.some.inj ((matmul_values hs).symm.trans hr))
    refine ⟨r, hr, ?_⟩
    refine (forward_eq hs hm hclose (hr.trans (congrArg some he.symm))).trans ?_
    rw [he]
    rfl

/-- `nn.Linear.forward`. -/
theorem linearForward_transparent_iff (haccept : Accepts R .linearForward input weight bias) :
    Transparent settings .linearForward input weight bias ↔
      Faithful .linearForward input weight := by
  have hw2 : weight.dim = 2 := by_contra fun hne => haccept.ne_none (if_neg hne)
  have horig : ∀ (x w : Nat → R) (b : Option (StridedTensor R)),
      original .linearForward (input.tensor x) (weight.tensor w) b =
        (input.tensor x).values.linear (weight.tensor w).values (b.map (·.values)) :=
    fun x w b => if_pos hw2
  unfold Accepts at haccept
  unfold Transparent
  simp only [horig] at haccept ⊢
  constructor
  · intro h
    have hx : ∀ x w : Nat → R, 2 ≤ input.dim ∧
        linearProduct (input.tensor x) (weight.tensor w) =
          .product (leading input.sizes) (rowDim input.sizes) (rowDim weight.sizes)
            (colDim input.sizes) (fun l i h => (input.tensor x).raw.get (l ++ [i, h]))
            fun _ h j => (weight.tensor w).get [j, h] := fun x w => by
      have hdim : (weight.tensor w).dim = 2 := hw2
      obtain ⟨y, hy, hyd, -, hyc, hget⟩ := transposeLast_matrix hdim
      obtain ⟨r, hr, hf⟩ := h exactBackend exactBackend_multiplies x w w
      rw [hooked_linearForward hdim hy] at hf
      have hs := sendable_of_forward hf
      exact ⟨hs.1, (linearProduct_eq exactBackend_multiplies hdim hs hyc hr hf).trans
        (rawProduct_transposed hyd hyc hget)⟩
    have hi2 := (hx (fun _ => 0) fun _ => 0).1
    exact ⟨hi2, or_iff_not_imp_right.mpr fun hn =>
      isContiguous_of_products (R := R) hi2 (Nat.pos_of_ne_zero hn) fun x => (hx x fun _ => 1).2⟩
  · rintro ⟨hi2, hc⟩ backend hm x w b
    obtain ⟨r, hr⟩ := Option.isSome_iff_exists.mp (haccept x w b)
    have hdim : (weight.tensor w).dim = 2 := hw2
    obtain ⟨y, hy, hyd, hyr, hyc, hget⟩ := transposeLast_matrix hdim
    have hs : Sendable input y.toLayout :=
      ⟨hi2, Nat.le_of_eq hyd.symm, .inl hyd, (shapes_of_linear hi2 hdim hr).1.trans hyr.symm⟩
    refine ⟨r, hr, ?_⟩
    rw [hooked_linearForward hw2 hy]
    refine forward_eq_linear hclose hm hdim hs (rawProduct_eq hi2 (hc.imp_right fun hn => ?_))
      (valuesProduct_transposed hyd hyc hget).symm hr
    exact hyc.trans hn

/-- `nn.functional.linear`. -/
theorem linear_transparent_iff (haccept : Accepts R .linear input weight bias) :
    Transparent settings .linear input weight bias ↔ Faithful .linear input weight := by
  constructor
  · intro h
    have hx : ∀ x w : Nat → R, Sendable input weight ∧ weight.dim = 2 ∧
        rowDim weight.sizes = colDim weight.sizes ∧
        linearProduct (input.tensor x) (weight.tensor w) =
          rawProduct (input.tensor x) (weight.tensor w) := fun x w => by
      obtain ⟨r, hr, hf⟩ := h exactBackend exactBackend_multiplies x w w
      have hs := sendable_of_forward hf
      have hw2 : (weight.tensor w).dim = 2 := Nat.le_antisymm (dim_le_of_linear hr) hs.2.1
      have hd := hs.2.2.2.symm.trans (shapes_of_linear hs.1 hw2 hr).1
      exact ⟨hs, hw2, hd, linearProduct_eq exactBackend_multiplies hw2 hs hd.symm hr hf⟩
    obtain ⟨hs, hw2, hd, -⟩ := hx (fun _ => 0) fun _ => 0
    obtain ⟨L, m, k, hi⟩ := Layout.exists_sizes hs.1
    have hkd : k = colDim weight.sizes := by
      have := hs.2.2.2.trans hd
      rwa [hi, colDim_append] at this
    have hc : input.isContiguous = true := by
      by_cases hk : k = 0
      · simp [Layout.isContiguous, Strided.isContiguous, hi, hk]
      · refine isContiguous_of_products (R := R) hs.1 (Nat.pos_of_ne_zero (hkd ▸ hk)) fun x => ?_
        have hone := (hx x fun _ => 1).2.2.2
        rw [linearProduct, show rowDim (weight.tensor fun _ => (1 : R)).sizes = _ from hd] at hone
        exact hone
    refine ⟨hs.1, hw2, hd, hc, ?_⟩
    by_contra hcon
    push Not at hcon
    obtain ⟨hp, h1, hst⟩ := hcon
    refine hst (strides_eq_of_sums (R := R) hc hi hp (by rwa [hkd, ← hd]) hw2 ?_)
    intro x y l i hl hi' j hj
    have hxy := (hx x y).2.2.2.trans (rawProduct_eq hs.1 (.inl hc))
    have hg := congrArg (·.get (l ++ [i, j])) hxy
    have hn : rowDim (weight.tensor y).sizes = k := hd.trans hkd.symm
    have hn' : colDim (weight.tensor y).sizes = k := hkd.symm
    simp only [linearProduct, valuesProduct, show (input.tensor x).sizes = _ from hi, leading_append,
      rowDim_append, colDim_append, hn, hn', show (weight.tensor y).dim = 2 from hw2, if_true,
      nil_append] at hg
    rwa [get_product hl hi' hj, get_product hl hi' hj] at hg
  · rintro ⟨hi2, hw2, hd, hc, hsym⟩ backend hm x w b
    obtain ⟨r, hr⟩ := Option.isSome_iff_exists.mp (haccept x w b)
    have hdim : (weight.tensor w).dim = 2 := hw2
    have hcol := (shapes_of_linear hi2 hdim hr).1
    have hs : Sendable input weight := ⟨hi2, Nat.le_of_eq hw2.symm, .inl hw2, hcol.trans hd.symm⟩
    exact ⟨r, hr, forward_eq_linear hclose hm hdim hs (rawProduct_eq hi2 (.inl hc))
      (linearProduct_eq_valuesProduct hi2 hdim hd hcol hsym) hr⟩

end Close

end Entries

/-- The hooks are transparent exactly on the faithful layouts, among those that the original
operation accepts. -/
theorem transparent_iff [Nontrivial R] {settings : Settings R}
    (hclose : settings.enableVerification = true → ∀ v, settings.allclose v v = true)
    {entry : Entry} {input weight : Layout} {bias : Option Layout}
    (haccept : Accepts R entry input weight bias) :
    Transparent settings entry input weight bias ↔ Faithful entry input weight := by
  cases entry with
  | linear => exact linear_transparent_iff hclose haccept
  | linearForward => exact linearForward_transparent_iff hclose haccept
  | matmul =>
    cases bias with
    | some b => cases haccept (fun _ => 0) (fun _ => 0) fun _ => 0
    | none => exact matmul_transparent_iff hclose haccept
  | operator =>
    refine iff_of_false (fun h => ?_) id
    obtain ⟨r, -, hr⟩ := h exactBackend exactBackend_multiplies (fun _ => 0) (fun _ => 0) fun _ => 0
    cases hr
  | bmm =>
    cases bias with
    | some b => cases haccept (fun _ => 0) (fun _ => 0) fun _ => 0
    | none =>
      have hshape : input.dim = 3 ∧ weight.dim = 3 ∧ leading input.sizes = leading weight.sizes :=
        by_contra fun hne => haccept.ne_none (if_neg hne)
      -- the shapes that `bmm` accepts are multiplied as by `matmul`
      have horig : ∀ x w : Nat → R, original .bmm (input.tensor x) (weight.tensor w) none =
          original .matmul (input.tensor x) (weight.tensor w) none := fun x w => if_pos hshape
      unfold Accepts at haccept
      simp only [Option.map_none, horig] at haccept
      refine Iff.trans ?_ (matmul_transparent_iff hclose haccept)
      simp only [Transparent, Option.map_none, horig]
      rfl

/-- The layout of the transpose of a 2 by 2 matrix. -/
def transposedView : Layout := ⟨[2, 2], [1, 2], 0, rfl⟩

/-- A transposed view on the right does no harm. -/
theorem transparent_transposed_right :
    Transparent (R := Int) ⟨true, fun a b => a.data = b.data⟩ .matmul (.rowMajor [2, 2])
      transposedView none :=
  (transparent_iff (fun _ _ => decide_eq_true rfl) fun _ _ _ => rfl).mpr (by decide)

/-- The transpose of `[[0, 1], [2, 3]]`. -/
def countingTransposed : StridedTensor Int := transposedView.tensor fun n => n

def identityMatrix : StridedTensor Int :=
  (Layout.rowMajor [2, 2]).tensor fun n => if n = 0 ∨ n = 3 then 1 else 0

/-- On the left it does: the hook multiplies the matrix under the view. The operator raises an error,
whatever the layouts are. -/
theorem matmul_transposed_differs :
    (original .matmul countingTransposed identityMatrix none).map (·.data) = some [0, 2, 1, 3] ∧
    (hooked ⟨false, fun a b => a.data = b.data⟩ exactBackend .matmul countingTransposed
      identityMatrix none).map (·.data) = .ok [0, 1, 2, 3] ∧
    ¬ Transparent (R := Int) ⟨false, fun a b => a.data = b.data⟩ .matmul transposedView
      (.rowMajor [2, 2]) none ∧
    (original .operator identityMatrix identityMatrix none).map (·.data) = some [1, 0, 0, 1] ∧
    (hooked ⟨false, fun a b => a.data = b.data⟩ exactBackend .operator identityMatrix
      identityMatrix none).map (·.data) = .error .missingArgument := by
  have horig : (original .matmul countingTransposed identityMatrix none).map (·.data) =
      some [0, 2, 1, 3] := by decide
  have hhook : (hooked ⟨false, fun a b => a.data = b.data⟩ exactBackend .matmul countingTransposed
      identityMatrix none).map (·.data) = .ok [0, 1, 2, 3] := rfl
  refine ⟨horig, hhook, fun h => ?_, by decide, rfl⟩
  obtain ⟨r, ho, hh⟩ := h exactBackend exactBackend_multiplies (fun n => n)
    (fun n => if n = 0 ∨ n = 3 then 1 else 0) fun _ => 0
  have hr : r.data = [0, 2, 1, 3] := Option.some.inj ((congrArg _ ho).symm.trans horig)
  have hr' : r.data = [0, 1, 2, 3] := Except.ok.inj ((congrArg _ hh).symm.trans hhook)
  rw [hr] at hr'
  cases hr'

end Morphling
