import Morphling.Hooks.Autograd

/-!
# What `forward` returns

* `rawProduct`: the product that the backend returns to `forward`, with the input as the backend
  reads it. `Sendable` is what the shapes must be for that.
* `valuesProduct`, `linearProduct`: the products of `matmul` and of `nn.functional.linear` for the
  same operands.
* `LinearFunction.of_forward`, `forward_eq`: a call that returns has added the bias to `rawProduct`,
  and it returns if that is the product of the operands.
* `linear_eq_addBias`: `nn.functional.linear` adds its bias in the same way.
-/

namespace Morphling

open Index Strided Failing List StridedTensor Layout

variable {R : Type*} [CommRing R] {p r b q : Tensor R} {L : List Nat} {transposed : StridedTensor R}

/-! ## The forward pass -/

/-- The shapes that `forward` can send to the backend. -/
def Sendable (input weight : Layout) : Prop :=
  2 ≤ input.dim ∧ 2 ≤ weight.dim ∧
    (weight.dim = 2 ∨ leading weight.sizes = leading input.sizes) ∧
    colDim input.sizes = rowDim weight.sizes

instance (input weight : Layout) : Decidable (Sendable input weight) :=
  inferInstanceAs (Decidable (_ ∧ _))

/-- The product of what the backend reads of the input with the weight. -/
def rawProduct (input weight : StridedTensor R) : Tensor R :=
  .product (leading input.sizes) (rowDim input.sizes) (colDim weight.sizes) (colDim input.sizes)
    (fun l i h => input.raw.get (l ++ [i, h]))
    fun l h j => weight.get ((if weight.dim = 2 then [] else l) ++ [h, j])

theorem Layout.exists_sizes {v : Layout} (h : 2 ≤ v.dim) : ∃ L m k, v.sizes = L ++ [m, k] :=
  ⟨_, _, _, eq_leading_append h⟩

/-- The matrix of the weight that goes with matrix `l` of the input. -/
theorem Layout.valid_batch {w : Layout} {L' l : List Nat} {p q : Nat} (hw : w.sizes = L' ++ [p, q])
    (h : w.dim = 2 ∨ L' = L) (hl : Valid L l) : Valid L' (if w.dim = 2 then [] else l) := by
  split
  next hd =>
    rw [dim, hw, length_append] at hd
    rw [length_eq_zero_iff.mp (Nat.add_right_cancel hd : L'.length = 0)]
    trivial
  next hd =>
    rw [h.resolve_left hd]
    exact hl

/-- What the backend is asked for in `forward`. -/
theorem multiply_transposed {input weight : StridedTensor R}
    (ht : weight.transposeLast = some transposed) :
    multiply input transposed.contiguous =
      if Sendable input.toLayout weight.toLayout then some (rawProduct input weight) else none := by
  have h2 : 2 ≤ weight.dim := by
    by_contra h
    rw [transposeLast, if_neg h] at ht
    cases ht
  obtain ⟨y, hy, hys, hyget⟩ := transposeLast_eq h2
  obtain rfl : y = transposed := Option.some.inj (hy.symm.trans ht)
  obtain ⟨L, p, q, hw⟩ := exists_sizes h2
  have hsizes : y.contiguous.sizes = L ++ [q, p] := by
    rw [sizes_contiguous, hys, hw, swapLast_append]
  have hdim : y.contiguous.dim = weight.dim := by
    rw [dim, hsizes, dim, hw, length_append, length_append]
    rfl
  have hcond : (2 ≤ input.dim ∧ 2 ≤ y.contiguous.dim ∧
      (y.contiguous.dim = 2 ∨ leading y.contiguous.sizes = leading input.sizes) ∧
      colDim input.sizes = colDim y.contiguous.sizes) ↔
      Sendable input.toLayout weight.toLayout := by
    unfold Sendable
    rw [hdim, hsizes, hw, leading_append, leading_append, colDim_append, rowDim_append]
  unfold multiply
  by_cases hs : Sendable input.toLayout weight.toLayout
  · rw [if_pos (hcond.mpr hs), if_pos hs]
    obtain ⟨-, -, hlead, hcol⟩ := hs
    rw [hw, rowDim_append] at hcol
    unfold rawProduct
    rw [hsizes, hw, rowDim_append, colDim_append, hdim]
    refine congrArg some (Tensor.product_congr (fun _ _ _ _ _ _ => rfl) fun l h j hl hh hj => ?_)
    rw [hw, leading_append] at hlead
    have hl' := valid_batch hw hlead hl
    have hv : Valid y.sizes ((if weight.dim = 2 then [] else l) ++ [j, h]) := by
      rw [hys, hw, swapLast_append]
      exact hl'.append_pair hj (hcol ▸ hh)
    rw [raw_contiguous, get_values hv, hyget]
    rw [hl'.length_eq, dim, hw, length_append]
    rfl
  · rw [if_neg (mt hcond.mp hs), if_neg hs]

/-- The backend that does what is assumed and no more. -/
def exactBackend : Backend R := fun a b =>
  match multiply a b with
  | some r => (0, r)
  | none => (-1, .ofFn [] fun _ => 0)

theorem exactBackend_multiplies (a b : StridedTensor R) : exactBackend.Multiplies a b := by
  intro r hr
  simp [exactBackend, hr]

namespace LinearFunction

variable {settings : Settings R} {backend : Backend R} {input weight : StridedTensor R}
  {bias : Option (StridedTensor R)} {r : Tensor R}

/-- What `forward` did before the verification, if it returned. -/
theorem of_forward (h : forward settings backend input weight bias = .ok r) :
    ∃ transposed output, weight.transposeLast = some transposed ∧
      waitForDispatchedMatmul (backend input transposed.contiguous) "forward" = .ok output ∧
      addBias output bias = .ok r := by
  obtain ⟨transposed, ht, h⟩ := bind_eq_ok.mp h
  obtain ⟨output, hw, h⟩ := bind_eq_ok.mp h
  obtain ⟨v, hv, h⟩ := bind_eq_ok.mp h
  refine ⟨transposed, output, orShape_eq_ok.mp ht, hw, ?_⟩
  split at h
  · obtain ⟨ref, -, h⟩ := bind_eq_ok.mp h
    obtain ⟨ref', -, h⟩ := bind_eq_ok.mp h
    rw [hv, eq_of_assertClose h]
  · exact hv.trans h

/-- `forward` cannot return where the backend has no product to give. -/
theorem sendable_of_forward (h : forward settings exactBackend input weight bias = .ok r) :
    Sendable input.toLayout weight.toLayout := by
  obtain ⟨transposed, output, ht, hw, -⟩ := of_forward h
  by_contra hs
  have hm : multiply input transposed.contiguous = none :=
    (multiply_transposed ht).trans (if_neg hs)
  simp [exactBackend, hm, waitForDispatchedMatmul] at hw

section Sendable
variable (hs : Sendable input.toLayout weight.toLayout) (hm : ∀ a b, backend.Multiplies a b)
include hs hm

theorem wait_rawProduct (ht : weight.transposeLast = some transposed) :
    waitForDispatchedMatmul (backend input transposed.contiguous) "forward" =
      .ok (rawProduct input weight) := by
  obtain ⟨h0, hr⟩ := hm input transposed.contiguous _ ((multiply_transposed ht).trans (if_pos hs))
  rw [waitForDispatchedMatmul, if_neg (not_lt.mpr h0), hr]

theorem addBias_of_forward (h : forward settings backend input weight bias = .ok r) :
    addBias (rawProduct input weight) bias = .ok r := by
  obtain ⟨transposed, output, ht, hw, h⟩ := of_forward h
  rw [wait_rawProduct hs hm ht] at hw
  rwa [Except.ok.inj hw]

/-- Where the backend sees the product of the operands, `forward` returns it with the bias; the
verification cannot find a difference. -/
theorem forward_eq
    (hclose : settings.enableVerification = true → ∀ v, settings.allclose v v = true)
    (hmat : input.values.matmul weight.values = some (rawProduct input weight)) :
    forward settings backend input weight bias = addBias (rawProduct input weight) bias := by
  obtain ⟨transposed, ht, -⟩ := transposeLast_eq hs.2.1
  unfold forward
  rw [ht, hmat]
  change (waitForDispatchedMatmul _ _).bind _ = _
  rw [wait_rawProduct hs hm ht]
  change (addBias _ _).bind _ = _
  cases ha : addBias (rawProduct input weight) bias with
  | error e => rfl
  | ok v =>
    change (if settings.enableVerification = true then (addBias _ _).bind _ else _) = _
    split
    next hv =>
      rw [ha]
      exact if_pos (hclose hv v)
    next => rfl

end Sendable
end LinearFunction

/-! ## The bias -/

section Bias
variable {L : List Nat} {m n k : Nat}

theorem Tensor.get_unsqueeze (x : Tensor R) {idx : List Nat} (h : Valid x.sizes idx) :
    x.unsqueeze.get (0 :: idx) = x.get idx := by
  have h' : Valid x.unsqueeze.sizes (0 :: idx) := ⟨Nat.zero_lt_one, h⟩
  rw [Tensor.get_of_valid h', Tensor.get_of_valid h]
  simp [Tensor.unsqueeze, flat]

/-- The bias, a row, under every row of the output. -/
theorem expand_unsqueeze (hb : b.sizes = [n]) :
    b.unsqueeze.expand (L ++ [m, n]) = b.expand (L ++ [m, n]) := by
  have h1 : Expandable b.unsqueeze.sizes (L ++ [m, n]) := by
    simp [Tensor.unsqueeze, hb, Expandable, Stretches]
  have h2 : Expandable b.sizes (L ++ [m, n]) := by
    rw [hb, show L ++ [m, n] = (L ++ [m]) ++ [n] by simp]
    exact .append _ _
  rw [Tensor.expand, if_pos h1, Tensor.expand, if_pos h2]
  refine congrArg some (Tensor.ofFn_congr fun idx hv => ?_)
  have hr : restrict b.unsqueeze.sizes idx = 0 :: restrict b.sizes idx := by
    obtain ⟨l, i, j, rfl, -, -, -⟩ := Tensor.exists_of_valid hv
    simp [Tensor.unsqueeze, hb, restrict]
  rw [hr, Tensor.get_unsqueeze _ (valid_restrict h2 hv)]

theorem addBias_some {b : StridedTensor R} (hp : p.sizes = L ++ [m, n]) (hb : b.sizes = [n]) :
    ∃ e, b.values.expand p.sizes = some e ∧ addBias p (some b) = .ok (p.add e) := by
  have h : Expandable b.values.sizes p.sizes := by
    rw [sizes_values, hb, hp, show L ++ [m, n] = (L ++ [m]) ++ [n] by simp]
    exact .append _ _
  have he : b.values.unsqueeze.expand p.sizes = b.values.expand p.sizes := by
    rw [hp]
    exact expand_unsqueeze hb
  refine ⟨_, if_pos h, ?_⟩
  change (orShape (b.values.unsqueeze.expand p.sizes)).bind _ = _
  rw [he, Tensor.expand, if_pos h]
  rfl

/-- Adding the same to two tensors keeps them apart. -/
theorem Tensor.eq_of_add_eq {e : Tensor R} (hs : p.sizes = q.sizes) (h : p.add e = q.add e) :
    p = q := by
  rw [← p.ofFn_get, ← q.ofFn_get, hs]
  refine ofFn_congr fun idx hv => ?_
  have hg := congrArg (·.get idx) h
  simp only [add] at hg
  rw [get_ofFn (hs ▸ hv), get_ofFn hv] at hg
  exact add_right_cancel hg

end Bias

/-! ## The operations that are replaced -/

/-- The product that `rawProduct` should be. -/
def valuesProduct (input weight : StridedTensor R) : Tensor R :=
  .product (leading input.sizes) (rowDim input.sizes) (colDim weight.sizes) (colDim input.sizes)
    (fun l i h => input.get (l ++ [i, h]))
    fun l h j => weight.get ((if weight.dim = 2 then [] else l) ++ [h, j])

/-- The product of `nn.functional.linear`. -/
def linearProduct (input weight : StridedTensor R) : Tensor R :=
  .product (leading input.sizes) (rowDim input.sizes) (rowDim weight.sizes) (colDim input.sizes)
    (fun l i h => input.get (l ++ [i, h])) fun _ h j => weight.get [j, h]

section Originals
variable {input weight : StridedTensor R} {bias : Option (StridedTensor R)}

/-- The backend sees the right product: the input is contiguous, or there is nothing to see. -/
theorem rawProduct_eq (hd : 2 ≤ input.dim)
    (h : input.isContiguous = true ∨ colDim weight.sizes = 0) :
    rawProduct input weight = valuesProduct input weight := by
  obtain ⟨L, m, k, hi⟩ := exists_sizes hd
  rcases h with h | h
  · refine Tensor.product_congr (fun l i h' hl hi' hh => ?_) fun _ _ _ _ _ _ => rfl
    rw [raw_eq_values h, get_values]
    rw [hi, leading_append, rowDim_append, colDim_append] at *
    exact hl.append_pair hi' hh
  · refine Tensor.ofFn_congr fun idx hv => ?_
    obtain ⟨l, i, j, -, -, -, hj⟩ := Tensor.exists_of_valid hv
    omega

theorem matmul_values (hs : Sendable input.toLayout weight.toLayout) :
    input.values.matmul weight.values = some (valuesProduct input weight) := by
  obtain ⟨hi2, hw2, hlead, hcol⟩ := hs
  obtain ⟨L, m, k, hi⟩ := exists_sizes hi2
  obtain ⟨L', p, n, hw⟩ := exists_sizes hw2
  rw [hi, hw, leading_append, leading_append] at hlead
  rw [hi, hw, colDim_append, rowDim_append] at hcol
  subst hcol
  have hsizes : weight.sizes = [k, n] ∨ weight.sizes = L ++ [k, n] := by
    rw [hw]
    refine hlead.imp (fun hd => ?_) fun he => by rw [he]
    rw [dim, hw, length_append] at hd
    rw [length_eq_zero_iff.mp (Nat.add_right_cancel hd : L'.length = 0)]
    rfl
  rw [Tensor.matmul_eq hi hsizes, valuesProduct]
  simp only [hi, hw, leading_append, rowDim_append, colDim_append]
  refine congrArg some (Tensor.product_congr (fun l i h hl hi' hh => ?_) fun l h j hl hh hj => ?_)
  · refine get_values ?_
    rw [hi]
    exact hl.append_pair hi' hh
  · have hl' := valid_batch hw hlead hl
    refine get_values ?_
    rw [hw]
    exact hl'.append_pair hh hj

theorem Tensor.colDim_eq_of_matmul {a : Tensor R} (ha : 2 ≤ a.dim) (hb : 2 ≤ b.dim)
    (h : a.matmul b = some r) : colDim a.sizes = rowDim b.sizes := by
  unfold matmul at h
  rw [if_neg (by omega)] at h
  simp only [show ¬ a.dim = 1 by omega, show ¬ b.dim = 1 by omega, if_false] at h
  by_contra hne
  rw [if_pos hne] at h
  cases h

/-- `nn.functional.linear` of a batch of matrices. -/
theorem linear_values (hi2 : 2 ≤ input.dim) (hw2 : weight.dim = 2)
    (hcol : colDim input.sizes = colDim weight.sizes) :
    ∃ w, weight.values.t = some w ∧
      input.values.matmul w = some (linearProduct input weight) := by
  obtain ⟨L, m, k, hi⟩ := exists_sizes hi2
  obtain ⟨n, k', hw⟩ := length_eq_two.mp hw2
  rw [hi, hw, colDim_append] at hcol
  obtain rfl : k = k' := hcol
  have hdim : weight.values.dim = 2 := hw2
  refine ⟨.ofFn [k, n] fun idx => weight.values.get (swapLast idx), ?_, ?_⟩
  · rw [Tensor.t, if_neg (by omega), if_pos hdim, Tensor.transposeLast, if_pos (by omega)]
    rw [sizes_values, hw]
    rfl
  · rw [Tensor.matmul_eq hi (.inl rfl), linearProduct]
    simp only [hi, hw, leading_append, rowDim_append, colDim_append]
    refine congrArg some (Tensor.product_congr (fun l i h hl hi' hh => ?_) fun l h j hl hh hj => ?_)
    · refine get_values ?_
      rw [hi]
      exact hl.append_pair hi' hh
    · have hv : Valid [k, n] [h, j] := ⟨hh, hj, trivial⟩
      have hv' : Valid weight.sizes [j, h] := by
        rw [hw]
        exact ⟨hj, hh, trivial⟩
      exact (Tensor.get_ofFn hv).trans (get_values hv')

/-- The shapes that `nn.functional.linear` accepts. -/
theorem shapes_of_linear (hi2 : 2 ≤ input.dim) (hw2 : weight.dim = 2)
    (h : input.values.linear weight.values (bias.map (·.values)) = some r) :
    colDim input.sizes = colDim weight.sizes ∧
      ∀ b, bias = some b → b.sizes = [rowDim weight.sizes] := by
  obtain ⟨n, k, hw⟩ := length_eq_two.mp hw2
  have hdim : weight.values.dim = 2 := hw2
  obtain ⟨w, ht, h⟩ := Option.bind_eq_some_iff.mp h
  obtain ⟨p, hp, h⟩ := Option.bind_eq_some_iff.mp h
  have hws : w.sizes = [k, n] := by
    rw [Tensor.t, if_neg (by omega), if_pos hdim, Tensor.transposeLast, if_pos (by omega)] at ht
    rw [← Option.some.inj ht, Tensor.sizes_ofFn, sizes_values, hw]
    rfl
  refine ⟨?_, ?_⟩
  · have := Tensor.colDim_eq_of_matmul (a := input.values) hi2 (by simp [Tensor.dim, hws]) hp
    rw [hws] at this
    rw [hw]
    exact this
  · rintro b rfl
    simp only [Option.map_some] at h
    split at h
    next hb =>
      rw [sizes_values, sizes_values, hw] at hb
      rw [hb, hw]
      rfl
    next => cases h

/-- `nn.functional.linear` adds the bias as the hook does. -/
theorem linear_eq_addBias (hi2 : 2 ≤ input.dim) (hw2 : weight.dim = 2)
    (hcol : colDim input.sizes = colDim weight.sizes)
    (hb : ∀ b, bias = some b → b.sizes = [rowDim weight.sizes]) :
    orShape (input.values.linear weight.values (bias.map (·.values))) =
      addBias (linearProduct input weight) bias := by
  obtain ⟨w, ht, hm⟩ := linear_values hi2 hw2 hcol
  unfold Tensor.linear
  rw [ht, Option.bind_some, hm, Option.bind_some]
  cases bias with
  | none => rfl
  | some b =>
    obtain ⟨e, he, ha⟩ := addBias_some (p := linearProduct input weight) rfl (hb b rfl)
    have hdrop : b.values.sizes = weight.values.sizes.dropLast := by
      obtain ⟨n, k, hw⟩ := length_eq_two.mp hw2
      rw [sizes_values, sizes_values, hb b rfl, hw]
      rfl
    simp only [Option.map_some]
    rw [if_pos hdrop, he, ha]
    rfl

end Originals

/-- Two products to which adding the bias gives the same are the same. -/
theorem addBias_inj {m n : Nat} {bias : Option (StridedTensor R)} (hp : p.sizes = L ++ [m, n])
    (hq : q.sizes = L ++ [m, n]) (hb : ∀ b, bias = some b → b.sizes = [n])
    (h : addBias p bias = .ok r) (h' : addBias q bias = .ok r) : p = q := by
  cases bias with
  | none => exact (Except.ok.inj h).trans (Except.ok.inj h').symm
  | some b =>
    obtain ⟨e, he, ha⟩ := addBias_some hp (hb b rfl)
    obtain ⟨e', he', ha'⟩ := addBias_some hq (hb b rfl)
    obtain rfl : e = e' := by
      rw [hp] at he
      rw [hq, he] at he'
      exact Option.some.inj he'
    refine Tensor.eq_of_add_eq (hp.trans hq.symm) (e := e) ?_
    rw [ha] at h
    rw [ha'] at h'
    exact (Except.ok.inj h).trans (Except.ok.inj h').symm

end Morphling
