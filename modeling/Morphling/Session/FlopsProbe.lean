import Mathlib.Algebra.BigOperators.Fin
import Mathlib.Algebra.Order.Field.Basic
import Mathlib.Data.Matrix.Mul
import Mathlib.Data.Rat.Cast.Order
import Morphling.Lib.Gemm
import Morphling.Session.FlopsInv

/-!
# The FLOPS probe (`proxy_cli.cpp`, `proxy_svr.cpp`, `device_measurement_session.cpp`)

The session sends two matrices, the device answers with their product, and the session compares the
answer with a reference. Here is what the two sides compute over exact arithmetic, and what the
comparison is worth.

* `probeArgs` is the column-major call of the device, `referenceArgs` the row-major call of the
  server. Both give the product of the matrices (`gemm_probeArgs`, `gemm_referenceArgs`).
* `handleProbeFlopsRequest` is the device: the checks of the request, and the answer.
* `exactDouble` are the operations of a session that calculates in an ordered field. How numbers are
  stored in four bytes is a parameter (`FloatFormat`).
* `verified_iff`: what the comparison accepts, entry by entry.

The seeds and the pseudorandom numbers of the challenge are left out: the matrices are any two of
the right size.
-/

namespace Morphling

open List

/-! ## The two products -/

section Product

variable {R : Type*}

/-- The matrix that is stored by rows in a buffer. -/
def rowMajor [Zero R] (rows cols : Nat) (x : List R) : Matrix (Fin rows) (Fin cols) R :=
  fun i j => x.getD (i * cols + j) 0

/-- The product of two matrices, stored by rows. -/
def product [CommSemiring R] (m n k : Nat) (a b : List R) : List R :=
  List.ofFn fun p : Fin (m * n) => (rowMajor m k a * rowMajor k n b) p.divNat p.modNat

@[simp] theorem length_product [CommSemiring R] (m n k : Nat) (a b : List R) :
    (product m n k a b).length = m * n := by
  simp [product]

/-- The call that `HandleProbeFlops` gives to the worker pool. -/
def probeArgs [Zero R] [One R] (m n k : Nat) (a b : List R) : Blas.Args R where
  transa := .n
  transb := .n
  m := n
  n := m
  k := k
  alpha := 1
  beta := 0
  a := b
  lda := n
  b := a
  ldb := k
  c := List.replicate (m * n) (some 0)
  ldc := n

/-- The call of the reference GEMM of the server. -/
def referenceArgs [Zero R] [One R] (m n k : Nat) (a b : List R) : Blas.Args R where
  transa := .n
  transb := .n
  m := m
  n := n
  k := k
  alpha := 1
  beta := 0
  a := a
  lda := k
  b := b
  ldb := n
  c := List.replicate (m * n) (some 0)
  ldc := n

variable [CommSemiring R] [DecidableEq R] {m n k : Nat} {a b : List R}

omit [DecidableEq R] in
theorem getElem?_product {p : Nat} (hp : p < m * n) :
    (product m n k a b)[p]? =
      some (∑ l ∈ Finset.range k, b.getD (l * n + p % n) 0 * a.getD (p / n * k + l) 0) := by
  rw [product, List.getElem?_ofFn, dif_pos hp, Matrix.mul_apply, Finset.sum_range]
  simp only [rowMajor, Fin.coe_divNat, Fin.coe_modNat, mul_comm]

/-- The device computes the product. -/
theorem gemm_probeArgs (hm : 1 ≤ m) (hn : 1 ≤ n) (hk : 1 ≤ k) (ha : a.length = m * k)
    (hb : b.length = k * n) :
    Blas.gemm (probeArgs m n k a b) = some ((product m n k a b).map some) := by
  have hfits : ∀ {rows cols len : Nat}, 1 ≤ rows → 1 ≤ cols → len = cols * rows →
      Blas.Fits rows cols rows len := by
    intro rows cols len hr hc hlen
    refine ⟨by omega, fun _ => ?_⟩
    rw [hlen, ← Nat.succ_mul, Nat.succ_eq_add_one, Nat.sub_add_cancel hc]
  obtain ⟨out, hout, hlen, hcell⟩ := Blas.gemm_eq_some (g := probeArgs m n k a b)
    (hfits hn hk hb) (hfits hk hm ha) (hfits hn hm (length_replicate ..))
  have hc : (probeArgs m n k a b).c.length = m * n := length_replicate ..
  rw [hout, Option.some_inj]
  refine ext_getElem? fun p => ?_
  by_cases hp : p < m * n
  · have hdiv : p / n < m := Nat.div_lt_of_lt_mul (by rwa [Nat.mul_comm])
    rw [hcell p (hc ▸ hp), getElem?_map, getElem?_product hp]
    simp [probeArgs, Blas.outEntry, Blas.entry, Nat.mod_lt p hn, hdiv, Nat.add_comm]
  · rw [getElem?_eq_none (by omega), getElem?_eq_none (by simp; omega)]

/-- The reference is the product as well: its call is that of the device, by rows. -/
theorem gemm_referenceArgs (hm : 1 ≤ m) (hn : 1 ≤ n) (hk : 1 ≤ k) (ha : a.length = m * k)
    (hb : b.length = k * n) :
    Blas.rowGemm (referenceArgs m n k a b) = some ((product m n k a b).map some) := by
  rw [Blas.rowGemm_eq_gemm]
  exact gemm_probeArgs hm hn hk ha hb

/-- The buffer that the reference GEMM hands to `done`. A call with a zero dimension is refused by
the library, and the buffer, which is empty then, stays as it is. -/
def referenceGemm (m n k : Nat) (a b : List R) : List R :=
  ((Blas.rowGemm (referenceArgs m n k a b)).getD (referenceArgs m n k a b).c).filterMap id

theorem referenceGemm_eq {d : Nat} (ha : a.length = d * d) (hb : b.length = d * d) :
    referenceGemm d d d a b = product d d d a b := by
  rcases Nat.eq_zero_or_pos d with rfl | hd
  · rfl
  · rw [referenceGemm, gemm_referenceArgs hd hd hd ha hb]
    simp

end Product

/-! ## Exact arithmetic -/

/-- How the numbers of a system are stored in four bytes, and cast to integers. -/
class FloatFormat (K : Type*) where
  load : List UInt8 → K
  toUInt64 : K → Nat

/-- The first `len` numbers of a buffer. -/
def floats {K : Type*} [FloatFormat K] (len : Nat) (bytes : List UInt8) : List K :=
  (List.range len).map fun i => FloatFormat.load ((bytes.drop (4 * i)).take 4)

/-- The buffer holds these numbers, and no more. -/
def Stored {K : Type*} [FloatFormat K] (bytes : List UInt8) (xs : List K) : Prop :=
  bytes.length = xs.length * 4 ∧ floats xs.length bytes = xs

/-- The operations of a session that calculates without rounding. -/
instance exactDouble {K : Type*} [Field K] [LinearOrder K] [FloatFormat K] : Double K where
  decLt := inferInstance
  fabs x := |x|
  ofNat n := n
  toUInt64 := FloatFormat.toUInt64
  nano := 1 / 10 ^ 9
  load := FloatFormat.load

/-- The device's value `d` is as close to the true value `r` as the tolerance asks. -/
def Close {K : Type*} [Field K] [LinearOrder K] (tol r d : K) : Prop :=
  |r - d| ≤ tol + tol * |r|

/-! ## The device -/

/-- `ProbeMessageCodec::FlopsRequestView`. -/
structure FlopsRequestView where
  probeId : Nat
  seed : Nat
  m : Nat
  n : Nat
  k : Nat
  matrixA : List UInt8
  matrixB : List UInt8

section Device

variable {K : Type*} [CommSemiring K] [DecidableEq K] [FloatFormat K]

/-- `HandleProbeFlopsRequest` and `HandleProbeFlops`: the id and the matrix of the answer, or none
where the request is refused. -/
def handleProbeFlopsRequest (view : FlopsRequestView) : Option (Nat × List K) :=
  if view.m = 0 ∨ view.n = 0 ∨ view.k = 0 then none
  else if view.matrixA.length ≠ view.m * view.k * 4 ∨
      view.matrixB.length ≠ view.k * view.n * 4 then none
  else
    (Blas.gemm (probeArgs view.m view.n view.k (floats (view.m * view.k) view.matrixA)
      (floats (view.k * view.n) view.matrixB))).map fun c => (view.probeId, c.filterMap id)

/-- The answer to a request that holds matrices of the right size. -/
theorem handleProbeFlopsRequest_eq {view : FlopsRequestView} {a b : List K} (hm : 1 ≤ view.m)
    (hn : 1 ≤ view.n) (hk : 1 ≤ view.k) (ha : a.length = view.m * view.k)
    (hb : b.length = view.k * view.n) (hA : Stored view.matrixA a) (hB : Stored view.matrixB b) :
    handleProbeFlopsRequest view = some (view.probeId, product view.m view.n view.k a b) := by
  have hsize : ¬ (view.matrixA.length ≠ view.m * view.k * 4 ∨
      view.matrixB.length ≠ view.k * view.n * 4) := by
    rw [hA.1, hB.1, ha, hb]
    simp
  rw [handleProbeFlopsRequest, if_neg (by omega), if_neg hsize, ← ha, ← hb, hA.2, hB.2,
    gemm_probeArgs hm hn hk ha hb]
  simp

end Device

/-! ## The session -/

namespace DeviceMeasurementSession

variable {K : Type*} [Field K] [LinearOrder K] [FloatFormat K]

theorem deviceC_eq_floats (d : Nat) (bytes : List UInt8) :
    (deviceC d bytes : List K) = floats (d * d) bytes := rfl

theorem verified_iff (cfg : Config K) (cref cdev : List K) :
    verified cfg cref cdev = true ↔ List.Forall₂ (Close cfg.flopsTolerance) cref cdev := by
  have hclose : ∀ r d : K, (!decide (cfg.flopsTolerance + cfg.flopsTolerance * Double.fabs r <
      Double.fabs (r - d))) = true ↔ Close cfg.flopsTolerance r d := by
    intro r d
    rw [Bool.not_eq_true', decide_eq_false_iff_not]
    exact not_lt
  rw [List.forall₂_iff_zip, verified, Bool.and_eq_true, beq_iff_eq, all_eq_true]
  refine and_congr_right fun _ => ⟨fun h r d hrd => (hclose r d).mp (h (r, d) hrd), fun h x hx => ?_⟩
  exact (hclose x.1 x.2).mpr (h hx)

variable (cfg : Config K) (a b : List K)

/-- The product that a session asks for. -/
def trueProduct : List K := product cfg.flopsMatrixDim cfg.flopsMatrixDim cfg.flopsMatrixDim a b

/-- What the reference GEMM of the server computes for it. -/
def reference : List K :=
  referenceGemm cfg.flopsMatrixDim cfg.flopsMatrixDim cfg.flopsMatrixDim a b

/-- The request that a session sends, as the device parses it. -/
structure Request (view : FlopsRequestView) : Prop where
  m : view.m = cfg.flopsMatrixDim
  n : view.n = cfg.flopsMatrixDim
  k : view.k = cfg.flopsMatrixDim
  matrixA : Stored view.matrixA a
  matrixB : Stored view.matrixB b

/-- The reference GEMM is that of the server, and every answer to the FLOPS probe in flight holds the
true product. -/
def HonestStep (s : DeviceMeasurementSession K) (e : Event K) : Prop :=
  s.Enabled e ∧ (∀ r ∈ e.references, r = ⟨true, some (reference cfg a b)⟩) ∧
    ∀ view ∈ s.answers e, Stored view.matrixC (trueProduct cfg a b)

variable {cfg a b}

omit [LinearOrder K] [FloatFormat K] in
theorem length_trueProduct :
    (trueProduct cfg a b).length = cfg.flopsMatrixDim * cfg.flopsMatrixDim :=
  length_product _ _ _ _ _

section Ordered

variable [IsStrictOrderedRing K]

omit [FloatFormat K] in
/-- A value is close to itself, for a tolerance that is not negative. -/
theorem close_self {tol : K} (h : 0 ≤ tol) (r : K) : Close tol r r := by
  rw [Close, sub_self, abs_zero]
  exact add_nonneg h (mul_nonneg h (abs_nonneg r))

/-- The comparison accepts the true product. -/
theorem agrees_of_stored (htol : 0 ≤ cfg.flopsTolerance) {view : FlopsResponseView}
    (h : Stored view.matrixC (trueProduct cfg a b)) : Agrees cfg (trueProduct cfg a b) view := by
  obtain ⟨hlen, hfloats⟩ := h
  rw [length_trueProduct] at hlen hfloats
  refine ⟨hlen, ?_⟩
  rw [deviceC_eq_floats, hfloats, verified_iff, List.forall₂_same]
  exact fun r _ => close_self htol r

variable (cfg a b) in
/-- The FLOPS probe is complete and sound, over exact arithmetic.

* The device's column-major call and the server's row-major call leave the same buffer, the product;
  and this is what the device answers to a request of a session.
* A session that gets this answer to its probe in flight, and the reference, ends with a verified
  result, whichever comes first.
* A verified result, from any device, means that each entry of the last answer is close to that of
  the product. -/
theorem flopsProbe_complete_and_sound (ha : a.length = cfg.flopsMatrixDim * cfg.flopsMatrixDim)
    (hb : b.length = cfg.flopsMatrixDim * cfg.flopsMatrixDim) :
    (∀ (m n k : Nat) (x y : List K), 1 ≤ m → 1 ≤ n → 1 ≤ k → x.length = m * k → y.length = k * n →
      Blas.gemm (probeArgs m n k x y) = Blas.rowGemm (referenceArgs m n k x y) ∧
        Blas.gemm (probeArgs m n k x y) = some ((product m n k x y).map some)) ∧
    (∀ view, Request cfg a b view → 1 ≤ cfg.flopsMatrixDim →
      handleProbeFlopsRequest view = some (view.probeId, trueProduct cfg a b)) ∧
    (∀ events, 0 ≤ cfg.flopsTolerance → Run.Along handle (HonestStep cfg a b) (new cfg) events →
      Run.Sometime handle Delivers (new cfg) events →
      Run.Sometime handle TakesAnswer (new cfg) events →
      EndedVerified (Run.exec handle (new cfg) events)) ∧
    ∀ events, Run.Along handle (fun s e => s.Enabled e ∧ e.ReferencesAre (reference cfg a b))
        (new cfg) events →
      ∀ r, .done r ∈ (Run.exec handle (new cfg) events).trace →
        r.measuredProfile.measuredFlopsVerified = true →
        ∃ view, lastAnswer (new cfg) events = some view ∧
          view.matrixC.length = cfg.flopsMatrixDim * cfg.flopsMatrixDim * 4 ∧
          List.Forall₂ (Close cfg.flopsTolerance) (trueProduct cfg a b)
            (floats (cfg.flopsMatrixDim * cfg.flopsMatrixDim) view.matrixC) := by
  have href : reference cfg a b = trueProduct cfg a b := referenceGemm_eq ha hb
  refine ⟨fun m n k x y hm hn hk hx hy => ?_, fun view h hd => ?_, fun events htol he hd hans => ?_,
    fun events he r hr hv => ?_⟩
  · have hdev := gemm_probeArgs hm hn hk hx hy
    exact ⟨hdev.trans (gemm_referenceArgs hm hn hk hx hy).symm, hdev⟩
  · have hans := handleProbeFlopsRequest_eq (by rwa [h.m]) (by rwa [h.n]) (by rwa [h.k])
      (by rw [h.m, h.k, ha]) (by rw [h.k, h.n, hb]) h.matrixA h.matrixB
    rw [hans, h.m, h.n, h.k]
    rfl
  · refine endedVerified_exec (C := trueProduct cfg a b) (he.mono fun s e h => ?_) hd hans
    exact ⟨h.1, href ▸ h.2.1, fun view hv => agrees_of_stored htol (h.2.2 view hv)⟩
  · rw [href] at he
    rcases flopsInv_exec he with hnew | hinv
    · rw [← exec_handleAnswer (new cfg, none) events, hnew] at hr
      cases hr
    · obtain ⟨view, hview, hlen, hver⟩ := (hinv.reported r hr).2 hv
      exact ⟨view, hview, hlen, (verified_iff cfg _ _).mp hver⟩

end Ordered

/-! ## A probe -/

/-- Small numbers, in the first of the four bytes. -/
instance : FloatFormat ℚ where
  load bytes := (bytes.headD 0).toNat
  toUInt64 x := x.num.toNat

def twoByTwo : Config ℚ := { enableFlops := true, flopsMatrixDim := 2, flopsTolerance := 0 }

/-- The product of `1 2 / 3 4` and `5 6 / 7 8`, as the device sends it. -/
def fourBytes : List UInt8 := [19, 0, 0, 0, 22, 0, 0, 0, 43, 0, 0, 0, 50, 0, 0, 0]

def deviceFirst : List (Event ℚ) :=
  [.start {}, .flopsResponse (some ⟨1, fourBytes⟩) {}, .reference ⟨true, some [19, 22, 43, 50]⟩]

def referenceFirst : List (Event ℚ) :=
  [.start { reference := some ⟨true, some [19, 22, 43, 50]⟩ },
    .flopsResponse (some ⟨1, fourBytes⟩) {}]

theorem reference_twoByTwo : reference twoByTwo [1, 2, 3, 4] [5, 6, 7, 8] = [19, 22, 43, 50] := by
  decide +kernel

theorem stored_fourBytes : Stored fourBytes (trueProduct twoByTwo [1, 2, 3, 4] [5, 6, 7, 8]) :=
  ⟨by decide +kernel, by decide +kernel⟩

theorem honest_deviceFirst :
    Run.Along handle (HonestStep twoByTwo [1, 2, 3, 4] [5, 6, 7, 8]) (new twoByTwo) deviceFirst := by
  refine ⟨⟨rfl, nofun, nofun⟩, ⟨nofun, nofun, ?_⟩, ⟨nofun, ?_, nofun⟩, trivial⟩
  · rintro view ⟨⟩
    exact stored_fourBytes
  · intro r hr
    rw [mem_singleton.mp hr, reference_twoByTwo]

theorem honest_referenceFirst :
    Run.Along handle (HonestStep twoByTwo [1, 2, 3, 4] [5, 6, 7, 8]) (new twoByTwo)
      referenceFirst := by
  refine ⟨⟨rfl, ?_, nofun⟩, ⟨nofun, nofun, ?_⟩, trivial⟩
  · intro r hr
    rw [mem_singleton.mp hr, reference_twoByTwo]
  · rintro view ⟨⟩
    exact stored_fourBytes

/-- The product is verified in both orders of arrival. -/
theorem twoByTwo_verified : EndedVerified (Run.exec handle (new twoByTwo) deviceFirst) ∧
    EndedVerified (Run.exec handle (new twoByTwo) referenceFirst) := by
  obtain ⟨-, -, complete, -⟩ :=
    flopsProbe_complete_and_sound twoByTwo [1, 2, 3, 4] [5, 6, 7, 8] rfl rfl
  refine ⟨complete deviceFirst le_rfl honest_deviceFirst ?_ ?_,
    complete referenceFirst le_rfl honest_referenceFirst ?_ ?_⟩
  · exact .inr (.inr (.inl rfl))
  · exact .inr (.inl rfl)
  · exact .inl ⟨nofun, nofun, rfl⟩
  · exact .inr (.inl rfl)

end DeviceMeasurementSession
end Morphling
