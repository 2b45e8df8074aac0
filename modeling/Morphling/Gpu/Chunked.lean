import Morphling.Gpu.Worker

/-!
# Chunked and single-shot GEMM agree

Whatever the source of SM targets returns, whatever the chunks take and whatever the configuration
says, a call of `RunChunkedGemm` covers every column once and leaves
`alpha * op(A) * op(B) + beta * C` in the host's buffer, in every order of the streams.

* `ChunkActs`: the actions of the chunk loop, as a chain of chunks. `ChunkLoop.run_eq_some`: the
  loop ends, and its actions are such a chain.
* `ChunkActs.busy`: a chain changes streams only when nothing is pending. With
  `Streams.Steps.result_of_done` every execution has the result of the actions in order.
* `Staged`: the memory when the columns before `j` are done; a chunk moves `j` (`Staged.runChunk`).
-/

namespace Morphling

open Streams List GemmArgs GemmOp

/-! ## The chain of chunks -/

/-- The actions of the loop from column `j` on slot `s` to the end, on slot `e`. Each change of slot
at a reading meets `P`. -/
inductive ChunkActs (P : Int → Int → Int → Prop) (n : Nat) :
    Nat → Int → List Action → Int → Prop where
  | done {s} : ChunkActs P n n s [] s
  | chunk {j s t e cw pre acts r} (hcw : 1 ≤ cw) (hj : j + cw ≤ n)
      (hpre : s = t ∧ pre = [.retarget r s s] ∨ pre = [.synchronize s, .retarget r s t])
      (hP : P r s t) (rest : ChunkActs P n (j + cw) t acts e) :
      ChunkActs P n j s (pre ++ ChunkLoop.timedChunk t j cw ++ acts) e

variable {P : Int → Int → Int → Prop} {i : Nat} {I : ChunkLoop → Prop} {s e : Int}
  {acts : List Action}

namespace ChunkLoop

variable {env : FloatEnv} {cfg : DynConfig} {n : Nat} {l : ChunkLoop}

/-- The next chunk has a column, and stays inside. -/
theorem thisCw_bounds (h : l.j < n) : 1 ≤ l.thisCw n ∧ l.j + l.thisCw n ≤ n := by
  unfold thisCw
  dsimp only
  split <;> omega

@[simp] theorem retarget_j (r : Int) : (l.retarget cfg r).2.j = l.j := by
  unfold retarget
  dsimp only
  split <;> rfl

section Body
variable (r : Int) (ms : Rat)

theorem body_j : (l.body env cfg n r ms).2.j =
    (l.retarget cfg r).2.j + (l.retarget cfg r).2.thisCw n := by simp only [body]

theorem body_worker : (l.body env cfg n r ms).2.worker = (l.retarget cfg r).2.worker := by
  simp only [body]

theorem body_dwell : (l.body env cfg n r ms).2.dwell =
    toInt32 ((l.retarget cfg r).2.dwell + 1) := by simp only [body]

end Body

theorem retarget_acts (cfg : DynConfig) (r : Int) :
    let t := (l.retarget cfg r).2.worker.active
    l.worker.active = t ∧ (l.retarget cfg r).1 = [.retarget r l.worker.active l.worker.active] ∨
      (l.retarget cfg r).1 = [.synchronize l.worker.active, .retarget r l.worker.active t] := by
  unfold retarget
  dsimp only
  split
  · exact .inr rfl
  · exact .inl ⟨rfl, rfl⟩

/-- The loop ends: each iteration does a column. The rule for an invariant `I` of the loop that
says how the slot changes. -/
theorem run_eq_some {readings : Nat → Int} {times : Nat → Rat} {fuel : Nat}
    (hstep : ∀ l i, I l → l.j < n →
      P (readings i) l.worker.active (l.retarget cfg (readings i)).2.worker.active ∧
        I (l.body env cfg n (readings i) (times i)).2) (hI : I l) (hj : l.j ≤ n)
    (hfuel : n ≤ l.j + fuel) :
    ∃ acts l', run env cfg n readings times fuel i l = some (acts, l') ∧
      ChunkActs P n l.j l.worker.active acts l'.worker.active ∧ I l' := by
  induction fuel generalizing i l with
  | zero =>
    obtain rfl : l.j = n := by omega
    exact ⟨[], l, by simp [run], .done, hI⟩
  | succ fuel ih =>
    by_cases hdone : n ≤ l.j
    · obtain rfl : l.j = n := by omega
      exact ⟨[], l, by simp [run], .done, hI⟩
    · have hcw := thisCw_bounds (n := n) (l := (l.retarget cfg (readings i)).2)
        (by rw [retarget_j]; omega)
      rw [retarget_j] at hcw
      have hbody : (l.body env cfg n (readings i) (times i)).2.j =
          l.j + (l.retarget cfg (readings i)).2.thisCw n := by rw [body_j, retarget_j]
      obtain ⟨hP, hI'⟩ := hstep l i hI (by omega)
      obtain ⟨acts, l', hrun, hacts, hl'⟩ := ih (i := i + 1) hI' (by omega) (by omega)
      refine ⟨(l.body env cfg n (readings i) (times i)).1 ++ acts, l', ?_, ?_, hl'⟩
      · rw [run, if_neg hdone]
        simp [hrun]
      · rw [hbody] at hacts
        have hchunk := ChunkActs.chunk hcw.1 hcw.2 (retarget_acts cfg (readings i)) hP hacts
        simpa [body] using hchunk

end ChunkLoop

/-- A chunked call, by the rule for its loop. -/
theorem runChunks_eq_some {R : Type*} [Zero R] [DecidableEq R] (env : FloatEnv) (cfg : DynConfig)
    (w : XtGemmWorker) (readings : Nat → Int) (times : Nat → Rat) (args : GemmArgs R)
    (hstep : ∀ l i, I l → l.j < args.n →
      P (readings (i + 1)) l.worker.active (l.retarget cfg (readings (i + 1))).2.worker.active ∧
        I (l.body env cfg args.n (readings (i + 1)) (times i)).2)
    (hI : I (ChunkLoop.start cfg w (readings 0))) :
    ∃ s chunks l, s = (ChunkLoop.start cfg w (readings 0)).worker.active ∧
      runChunks env cfg w readings times args =
        some (.retarget (readings 0) w.active s :: stageActions args s ++ chunks ++
          [.synchronize l.worker.active], l.worker) ∧
      ChunkActs P args.n 0 s chunks l.worker.active ∧ I l := by
  obtain ⟨chunks, l, hrun, hchunks, hl⟩ := ChunkLoop.run_eq_some (i := 0) hstep hI
    (Nat.zero_le args.n) (Nat.le_add_left ..)
  refine ⟨_, chunks, l, rfl, ?_, hchunks, hl⟩
  rw [runChunks, hrun]
  rfl

/-! ## Columns -/

/-- The action computes column `c`. -/
def Action.covers (c : Nat) : Action → Bool
  | .runChunk _ j cw => decide (j ≤ c ∧ c < j + cw)
  | _ => false

/-- Every column from `j` on is computed by one chunk. -/
theorem ChunkActs.countP_covers {n j : Nat} (h : ChunkActs P n j s acts e) (c : Nat) :
    acts.countP (·.covers c) = if j ≤ c ∧ c < n then 1 else 0 := by
  induction h with
  | done => rw [if_neg (by omega)]; rfl
  | @chunk j s t e cw pre acts r hcw hj hpre _ _ ih =>
    have hpre : pre.countP (·.covers c) = 0 := by
      rcases hpre with ⟨-, rfl⟩ | rfl <;> rfl
    have hone : (ChunkLoop.timedChunk t j cw).countP (·.covers c) =
        if j ≤ c ∧ c < j + cw then 1 else 0 := by
      simp [ChunkLoop.timedChunk, countP_cons, Action.covers]
    rw [countP_append, countP_append, hpre, hone, ih]
    by_cases hc : c < j + cw
    · simp [hc, show c < n by omega, show ¬ j + cw ≤ c by omega]
    · simp [hc, show j ≤ c by omega, show j + cw ≤ c by omega]

/-! ## Streams -/

section Streams
variable {n j : Nat} {s e : Int} {acts : List Action}

/-- What is pending before an iteration is on the slot of the last one; when the slot changes, the
host waits first, and each chunk ends with a wait. -/
theorem ChunkActs.busy (h : ChunkActs P n j s acts e) {b : Busy Int Bool} (hb : b.Only s) :
    ∃ b', (acts.flatMap Action.cmds).foldlM Busy.next b = some b' ∧ b'.Only e := by
  induction h generalizing b with
  | done => exact ⟨b, rfl, hb⟩
  | @chunk j s t e cw pre acts r hcw hj hpre _ _ ih =>
    obtain ⟨b', hrest, hb'⟩ := ih (b := .idle) (Busy.only_idle _)
    refine ⟨b', ?_, hb'⟩
    have hbefore : ∃ b₁ : Busy Int Bool,
        (pre.flatMap Action.cmds).foldlM Busy.next b = some b₁ ∧ b₁.Only t := by
      rcases hpre with ⟨rfl, rfl⟩ | rfl
      · exact ⟨b, rfl, hb⟩
      · exact ⟨.idle, by simp [Action.cmds, hb], Busy.only_idle _⟩
    obtain ⟨b₁, hpre₁, hb₁⟩ := hbefore
    have hchunk : ((ChunkLoop.timedChunk t j cw).flatMap Action.cmds).foldlM Busy.next b₁ =
        some .idle := by
      simp [ChunkLoop.timedChunk, Action.cmds, hb₁]
    simp [foldlM_append, hpre₁, hchunk, hrest]

end Streams

/-! ## Memory -/

namespace GemmArgs

variable {R : Type*}

/-- What BLAS asks of the arguments, and host buffers of the sizes that are copied. -/
structure Legal (args : GemmArgs R) : Prop where
  m_pos : 1 ≤ args.m
  n_pos : 1 ≤ args.n
  k_pos : 1 ≤ args.k
  lda : (if isN args.transa then args.m else args.k) ≤ args.lda
  ldb : (if isN args.transb then args.k else args.n) ≤ args.ldb
  ldc : args.m ≤ args.ldc
  a_len : args.aElems ≤ args.a.length
  b_len : args.bElems ≤ args.b.length
  c_len : args.cElems ≤ args.c.length

variable {args : GemmArgs R}

theorem aElems_eq :
    args.aElems = args.lda * (Blas.stored (cudaTransOp args.transa) args.m args.k).2 := by
  cases hN : isN args.transa <;> simp [aElems, cudaTransOp, Blas.stored, hN]

theorem bElems_eq :
    args.bElems = args.ldb * (Blas.stored (cudaTransOp args.transb) args.k args.n).2 := by
  cases hN : isN args.transb <;> simp [bElems, cudaTransOp, Blas.stored, hN]

theorem Legal.stored_a (h : args.Legal) :
    (Blas.stored (cudaTransOp args.transa) args.m args.k).1 ≤ args.lda := by
  have := h.lda
  cases hN : isN args.transa <;> simpa [cudaTransOp, Blas.stored, hN] using this

theorem Legal.stored_b (h : args.Legal) :
    (Blas.stored (cudaTransOp args.transb) args.k args.n).1 ≤ args.ldb := by
  have := h.ldb
  cases hN : isN args.transb <;> simpa [cudaTransOp, Blas.stored, hN] using this

theorem chunkCall_b (mem : GemmMem R) (j cw : Nat) : (args.chunkCall mem j cw).b =
    mem.dB.drop (Blas.colOffset (cudaTransOp args.transb) j args.ldb) := by
  cases hN : isN args.transb <;> simp [chunkCall, cudaTransOp, Blas.colOffset, hN]

/-- Entry `(i, c)` of `alpha * op(A) * op(B) + beta * C`, from the host's buffers. -/
def out [CommRing R] (args : GemmArgs R) (i c : Nat) : R :=
  args.alpha * ∑ l ∈ Finset.range args.k,
      Blas.entry (cudaTransOp args.transa) args.a args.lda i l *
        Blas.entry (cudaTransOp args.transb) args.b args.ldb l c +
    args.beta * args.c.getD (i + c * args.ldc) 0

end GemmArgs

section Memory
variable {R : Type*} [CommRing R] [DecidableEq R] {args : GemmArgs R} {mem : GemmMem R}
  {j cw c : Nat}

/-- The memory when the columns before `j` are done. -/
structure Staged (args : GemmArgs R) (j : Nat) (mem : GemmMem R) : Prop where
  dA : mem.dA = args.a.take args.aElems
  dB : mem.dB = args.b.take args.bElems
  dC_len : mem.dC.length = args.cElems
  hostC_len : mem.hostC.length = args.c.length
  fresh : args.beta ≠ 0 → ∀ p, j * args.ldc ≤ p → p < args.cElems →
    mem.dC[p]? = some (some (args.c.getD p 0))
  done : ∀ i < args.m, ∀ c < j, mem.hostC[i + c * args.ldc]? = some (some (args.out i c))

omit [DecidableEq R] in
/-- The sums of a chunk are those of the whole product. -/
theorem Staged.sum_eq (h : args.Legal) (hs : Staged args j mem) (hj : j + cw ≤ args.n)
    (hi : i < args.m) (hc : c < cw) :
    ∑ l ∈ Finset.range args.k, Blas.entry (cudaTransOp args.transa) mem.dA args.lda i l *
        Blas.entry (cudaTransOp args.transb) (args.chunkCall mem j cw).b args.ldb l c =
      ∑ l ∈ Finset.range args.k, Blas.entry (cudaTransOp args.transa) args.a args.lda i l *
        Blas.entry (cudaTransOp args.transb) args.b args.ldb l (j + c) := by
  refine Finset.sum_congr rfl fun l hl => ?_
  have hl := Finset.mem_range.mp hl
  rw [chunkCall_b, Blas.entry_drop, hs.dA, hs.dB, aElems_eq, bElems_eq,
    Blas.entry_take h.stored_a hi hl, Blas.entry_take h.stored_b hl (by omega)]

/-- Where `beta` is not zero, the cell of `C` has to be the host's. -/
theorem Staged.outEntry_eq (h : args.Legal) (hs : Staged args j mem) (hj : j + cw ≤ args.n)
    (hi : i < args.m) (hc : c < cw) {old : Option R}
    (hold : args.beta ≠ 0 → old = some (args.c.getD (i + (j + c) * args.ldc) 0)) :
    Blas.outEntry (args.chunkCall mem j cw) i c old = some (args.out i (j + c)) := by
  rw [out, ← hs.sum_eq h hj hi hc]
  by_cases hbeta : args.beta = 0
  · simp [Blas.outEntry, chunkCall, hbeta]
  · simp [Blas.outEntry, chunkCall, hbeta, hold hbeta]

/-- The call of a chunk is legal. -/
theorem Staged.gemm_eq_some (h : args.Legal) (hs : Staged args j mem) (hcw : 1 ≤ cw)
    (hj : j + cw ≤ args.n) :
    ∃ out, Blas.gemm (args.chunkCall mem j cw) = some out ∧
      out.length = args.cElems - j * args.ldc ∧ ∀ q (hq : q < (mem.dC.drop (j * args.ldc)).length),
        out[q]? = some (if q % args.ldc < args.m ∧ q / args.ldc < cw then
          Blas.outEntry (args.chunkCall mem j cw) (q % args.ldc) (q / args.ldc)
            (mem.dC.drop (j * args.ldc))[q]
          else (mem.dC.drop (j * args.ldc))[q]) := by
  have ha := Blas.fits_cols _ (j := 0) h.m_pos h.k_pos h.stored_a (by omega)
  have hb := Blas.fits_cols _ h.k_pos hcw h.stored_b hj
  have hc : Blas.Fits args.m cw args.ldc (args.cElems - j * args.ldc) :=
    Blas.fits_cols .n h.m_pos hcw h.ldc hj
  have hlenA : mem.dA.length = args.aElems := by rw [hs.dA, length_take, min_eq_left h.a_len]
  have hlenB : mem.dB.length = args.bElems := by rw [hs.dB, length_take, min_eq_left h.b_len]
  rw [Blas.colOffset_zero, Nat.sub_zero, ← aElems_eq, ← hlenA] at ha
  rw [← bElems_eq, ← hlenB, ← length_drop, ← chunkCall_b mem j cw] at hb
  rw [← hs.dC_len, ← length_drop] at hc
  obtain ⟨out, hgemm, hlen, hget⟩ := Blas.gemm_eq_some (g := args.chunkCall mem j cw) ha hb hc
  refine ⟨out, hgemm, ?_, hget⟩
  rw [hlen, ← hs.dC_len]
  exact length_drop

/-- What a chunk's call leaves on the device: its columns of the product, and the later columns as
they were. -/
theorem Staged.gemm (h : args.Legal) (hs : Staged args j mem) (hcw : 1 ≤ cw)
    (hj : j + cw ≤ args.n) :
    ∃ dC, run args mem (.gemm j cw) = some { mem with dC := dC } ∧
      dC.length = args.cElems ∧
      (∀ i < args.m, ∀ c < cw, dC[i + (j + c) * args.ldc]? = some (some (args.out i (j + c)))) ∧
      ∀ p, (j + cw) * args.ldc ≤ p → p < args.cElems → dC[p]? = mem.dC[p]? := by
  obtain ⟨out, hgemm, hlen, hget⟩ := hs.gemm_eq_some h hcw hj
  have hldc : 0 < args.ldc := Nat.lt_of_lt_of_le h.m_pos h.ldc
  have hsmall : j * args.ldc ≤ args.cElems := by
    rw [cElems, Nat.mul_comm]; exact Nat.mul_le_mul_left _ (by omega)
  have hdrop : (mem.dC.drop (j * args.ldc)).length = args.cElems - j * args.ldc := by
    rw [length_drop, hs.dC_len]
  have htake : (mem.dC.take (j * args.ldc)).length = j * args.ldc := by
    rw [length_take, hs.dC_len]; omega
  -- a cell of the columns from `j` on is a cell of the result of the call
  have hcell : ∀ q, (mem.dC.take (j * args.ldc) ++ out)[j * args.ldc + q]? = out[q]? := by
    intro q
    rw [getElem?_append_right (by omega), htake, Nat.add_sub_cancel_left]
  refine ⟨mem.dC.take (j * args.ldc) ++ out, by simp [run, hgemm], ?_, ?_, ?_⟩
  · rw [length_append, htake, hlen]; omega
  · intro i hi c hc
    have hpos : i + (j + c) * args.ldc = j * args.ldc + (i + c * args.ldc) := by ring
    have hlt : i + (j + c) * args.ldc < args.cElems :=
      Blas.index_lt (Nat.lt_of_lt_of_le hi h.ldc) (by omega)
    have hmod : (i + c * args.ldc) % args.ldc = i := by
      rw [Nat.add_mul_mod_self_right, Nat.mod_eq_of_lt (Nat.lt_of_lt_of_le hi h.ldc)]
    have hdiv : (i + c * args.ldc) / args.ldc = c := by
      rw [Nat.add_mul_div_right _ _ hldc, Nat.div_eq_of_lt (Nat.lt_of_lt_of_le hi h.ldc),
        Nat.zero_add]
    rw [hpos, hcell, hget _ (by omega), hmod, hdiv, if_pos ⟨hi, hc⟩]
    refine congrArg some (hs.outEntry_eq h hj hi hc fun hbeta => Option.some.inj ?_)
    have hold := hs.fresh hbeta _ (by omega) hlt
    rw [hpos, ← getElem?_drop, getElem?_eq_getElem (by omega), ← hpos] at hold
    exact hold
  · intro p hp hlt
    have hmul : (j + cw) * args.ldc = j * args.ldc + cw * args.ldc := Nat.add_mul ..
    obtain ⟨q, rfl⟩ := Nat.exists_eq_add_of_le (show j * args.ldc ≤ p by omega)
    have hdiv : cw ≤ q / args.ldc := (Nat.le_div_iff_mul_le hldc).mpr (by omega)
    rw [hcell, hget q (by omega), if_neg (by omega), ← getElem?_eq_getElem,
      getElem?_drop]

/-- A chunk does its columns. -/
theorem Staged.runChunk (h : args.Legal) (hs : Staged args j mem) (hcw : 1 ≤ cw)
    (hj : j + cw ≤ args.n) :
    ∃ mem', apply args (.copyBack j cw) (apply args (.gemm j cw) (some mem)) =
      some mem' ∧ Staged args (j + cw) mem' := by
  obtain ⟨dC, hrun, hlen, hnew, hkept⟩ := hs.gemm h hcw hj
  have hend : j * args.ldc + cw * args.ldc ≤ args.cElems := by
    rw [← Nat.add_mul, cElems, Nat.mul_comm]
    exact Nat.mul_le_mul_left _ hj
  have hhost : args.cElems ≤ mem.hostC.length := by rw [hs.hostC_len]; exact h.c_len
  have hcopy := Buffer.memcpy_mul (w := elementSize) (d := j * args.ldc) (by decide)
    (show j * args.ldc + cw * args.ldc ≤ dC.length by omega) (hend.trans hhost)
  have hpart : ((dC.drop (j * args.ldc)).take (cw * args.ldc)).length = cw * args.ldc := by
    rw [length_take, length_drop]; omega
  have happly : apply args (.copyBack j cw) (apply args (.gemm j cw) (some mem)) =
      some
        { mem with
          dC := dC
          hostC := Buffer.splice mem.hostC (j * args.ldc)
            ((dC.drop (j * args.ldc)).take (cw * args.ldc)) } := by
    simp only [apply, Option.bind_some, hrun]
    simp only [run, hcopy]
    rfl
  refine ⟨_, happly, hs.dA, hs.dB, hlen, ?_, ?_, ?_⟩
  · rw [← hs.hostC_len]
    exact Buffer.length_splice (by omega)
  · intro hbeta p hp hlt
    have : j * args.ldc ≤ (j + cw) * args.ldc := Nat.mul_le_mul_right _ (by omega)
    exact (hkept p hp hlt).trans (hs.fresh hbeta p (by omega) hlt)
  · intro i hi c hc
    have hldc := Nat.lt_of_lt_of_le hi h.ldc
    rw [Buffer.getElem?_splice (by omega), hpart]
    by_cases hold : c < j
    · have := Blas.index_lt hldc hold
      rw [Nat.mul_comm args.ldc] at this
      rw [if_neg (by omega)]
      exact hs.done i hi c hold
    · obtain ⟨d, rfl⟩ := Nat.exists_eq_add_of_le (Nat.le_of_not_lt hold)
      have hd := Blas.index_lt hldc (show d < cw by omega)
      have hpos : i + (j + d) * args.ldc = j * args.ldc + (i + d * args.ldc) := by ring
      rw [Nat.mul_comm args.ldc] at hd
      rw [if_pos (by omega), hpos, Nat.add_sub_cancel_left, getElem?_take_of_lt hd,
        getElem?_drop, ← hpos]
      exact hnew i hi d (by omega)

/-- The operations of the actions, in their order. -/
def runActs (args : GemmArgs R) (acts : List Action) (mem : Option (GemmMem R)) :
    Option (GemmMem R) :=
  (acts.flatMap Action.cmds).foldl (fun mem cmd => cmd.run (apply args) mem) mem

theorem runActs_append (acts acts' : List Action) (mem : Option (GemmMem R)) :
    runActs args (acts ++ acts') mem = runActs args acts' (runActs args acts mem) := by
  simp [runActs]

/-- The loop does all columns from `j` on. -/
theorem ChunkActs.staged (h : args.Legal) (hacts : ChunkActs P args.n j s acts e)
    (hs : Staged args j mem) :
    ∃ mem', runActs args acts (some mem) = some mem' ∧ Staged args args.n mem' := by
  generalize hn : args.n = n at hacts
  induction hacts generalizing mem with
  | done => exact ⟨mem, rfl, hn ▸ hs⟩
  | @chunk j s t e cw pre acts r hcw hj hpre _ _ ih =>
    obtain ⟨mem₁, hrun, hs₁⟩ := hs.runChunk h hcw (hn ▸ hj)
    obtain ⟨mem', hrest, hs'⟩ := ih hs₁
    have hpre : runActs args pre (some mem) = some mem := by
      rcases hpre with ⟨-, rfl⟩ | rfl <;> rfl
    refine ⟨mem', ?_, hs'⟩
    rw [runActs_append, runActs_append, hpre, ← hrest, ← hrun]
    rfl

/-- The memory at the start of a call: the device's buffers hold anything. -/
def GemmArgs.initial (args : GemmArgs R) (dA dB : List R) (dC : List (Option R)) : GemmMem R :=
  { hostC := args.c.map some, dA := dA, dB := dB, dC := dC }

/-- Staging makes the invariant. -/
theorem staged_stageActions (h : args.Legal) {dA dB : List R} {dC : List (Option R)}
    (hA : dA.length = args.aElems) (hB : dB.length = args.bElems) (hC : dC.length = args.cElems)
    (slot : Int) :
    ∃ mem, runActs args (stageActions args slot) (some (args.initial dA dB dC)) = some mem ∧
      Staged args 0 mem := by
  have hcopyA := Buffer.memcpy_all (w := elementSize) (by decide) h.a_len hA
  have hcopyB := Buffer.memcpy_all (w := elementSize) (by decide) h.b_len hB
  have hlenC : args.cElems ≤ (args.c.map some).length := by rw [length_map]; exact h.c_len
  have hcopyC := Buffer.memcpy_all (w := elementSize) (by decide) hlenC hC
  by_cases hbeta : args.beta = 0
  · refine ⟨args.initial (args.a.take args.aElems) (args.b.take args.bElems) dC, ?_, rfl, rfl, hC,
      length_map .., fun hne => absurd hbeta hne, nofun⟩
    simp [runActs, stageActions, hbeta, Action.cmds, Cmd.run, apply, run,
      initial, hcopyA, hcopyB]
  · refine ⟨args.initial (args.a.take args.aElems) (args.b.take args.bElems)
      ((args.c.map some).take args.cElems), ?_, rfl, rfl, ?_, length_map .., ?_, nofun⟩
    · simp [runActs, stageActions, hbeta, Action.cmds, Cmd.run, apply, run,
        initial, hcopyA, hcopyB, hcopyC]
    · exact length_take_of_le hlenC
    · intro _ p _ hp
      have hlt := Nat.lt_of_lt_of_le hp h.c_len
      simp [initial, getElem?_take_of_lt hp, getD_eq_getElem?_getD, hlt]

end Memory

/-! ## Calls -/

section Call
variable {R : Type*} [CommRing R] [DecidableEq R]

variable (env : FloatEnv) (cfg : DynConfig) (w : XtGemmWorker) (source : Option (Nat → Int))
  (times : Nat → Rat) (args : GemmArgs R)

/-- The actions of a call: staging, a chain of chunks or one chunk, and a wait. -/
inductive CallActs (args : GemmArgs R) : List Action → Prop where
  | intro {first s chunks e} (hcmds : first.cmds = []) (hcovers : ∀ c, first.covers c = false)
      (hchunks : ChunkActs (fun _ _ _ => True) args.n 0 s chunks e ∨
        chunks = [.runChunk s 0 args.n] ∧ s = e) :
      CallActs args (first :: stageActions args s ++ chunks ++ [.synchronize e])

/-- A call returns. -/
theorem runChunkedGemm_eq_some : ∃ acts w',
    runChunkedGemm env cfg w source times args = some (acts, w') ∧ CallActs args acts := by
  have hwhole : CallActs args (runWhole w args).1 := ⟨rfl, fun _ => rfl, .inr ⟨rfl, rfl⟩⟩
  cases source with
  | none => exact ⟨_, _, rfl, hwhole⟩
  | some readings =>
    rw [runChunkedGemm]
    split
    · obtain ⟨s, chunks, l, -, hrun, hchunks, -⟩ := runChunks_eq_some env cfg w readings times args
        (P := fun _ _ _ => True) (I := fun _ => True) (fun _ _ _ _ => ⟨trivial, trivial⟩) trivial
      exact ⟨_, _, hrun, rfl, fun _ => rfl, .inl hchunks⟩
    · exact ⟨_, _, rfl, hwhole⟩

variable {env cfg w source times args} {acts : List Action}

/-- Staging issues on one stream. -/
theorem busy_stageActions (args : GemmArgs R) (s : Int) : ∃ b : Busy Int Bool,
    ((stageActions args s).flatMap Action.cmds).foldlM Busy.next .idle = some b ∧ b.Only s := by
  refine ⟨.on s, ?_, Busy.only_on s⟩
  by_cases hbeta : args.beta = 0 <;> simp [stageActions, hbeta, Action.cmds]

/-- A call issues on one stream at a time, and waits at the end. -/
theorem CallActs.orderly (h : CallActs args acts) : Orderly .idle (acts.flatMap Action.cmds) := by
  obtain ⟨hcmds, -, hchunks⟩ := h
  rename_i first s chunks e
  obtain ⟨b, hstage, hb⟩ := busy_stageActions args s
  have hchunks : ∃ b', (chunks.flatMap Action.cmds).foldlM Busy.next b = some b' ∧ b'.Only e := by
    rcases hchunks with hchunks | ⟨rfl, rfl⟩
    · exact hchunks.busy hb
    · exact ⟨.on s, by simp [Action.cmds, hb], Busy.only_on s⟩
  obtain ⟨b', hrun, hb'⟩ := hchunks
  have hlast : (Action.synchronize e).cmds.foldlM Busy.next b' = some .idle := by
    simp [Action.cmds, hb']
  simp [Orderly, foldlM_append, hcmds, hstage, hrun, hlast]

/-- A call computes every column once. -/
theorem CallActs.countP_covers (h : CallActs args acts) (c : Nat) :
    acts.countP (·.covers c) = if c < args.n then 1 else 0 := by
  obtain ⟨-, hcovers, hchunks⟩ := h
  rename_i first s chunks e
  have hstage : (stageActions args s).countP (·.covers c) = 0 := by
    by_cases hbeta : args.beta = 0 <;> simp [stageActions, hbeta, Action.covers]
  have hchunks : chunks.countP (·.covers c) = if c < args.n then 1 else 0 := by
    rcases hchunks with hchunks | ⟨rfl, -⟩
    · simpa using hchunks.countP_covers c
    · simp [countP_cons, Action.covers]
  have hlast : (Action.synchronize e).covers c = false := rfl
  simp [hcovers, hstage, hchunks, hlast]

/-- The operations of a call in their order compute the product. -/
theorem CallActs.staged (hargs : args.Legal) (h : CallActs args acts) {dA dB : List R}
    {dC : List (Option R)} (hA : dA.length = args.aElems) (hB : dB.length = args.bElems)
    (hC : dC.length = args.cElems) :
    ∃ mem, runActs args acts (some (args.initial dA dB dC)) = some mem ∧
      Staged args args.n mem := by
  obtain ⟨hcmds, -, hchunks⟩ := h
  rename_i first s chunks e
  obtain ⟨mem, hstage, hs⟩ := staged_stageActions hargs hA hB hC s
  have hchunks :
      ∃ mem', runActs args chunks (some mem) = some mem' ∧ Staged args args.n mem' := by
    rcases hchunks with hchunks | ⟨rfl, -⟩
    · exact hchunks.staged hargs hs
    · obtain ⟨mem', hrun, hs'⟩ := hs.runChunk hargs hargs.n_pos (by omega)
      exact ⟨mem', hrun, by simpa using hs'⟩
  obtain ⟨mem', hrun, hs'⟩ := hchunks
  refine ⟨mem', ?_, hs'⟩
  have hfirst : runActs args (first :: stageActions args s) (some (args.initial dA dB dC)) =
      some mem := by rw [← hstage, runActs, runActs, flatMap_cons, hcmds, nil_append]
  rw [runActs_append, runActs_append, hfirst, hrun]
  rfl

/-- A call of `RunChunkedGemm` with legal arguments ends, computes every column once, and in every
order of the streams leaves the product in the host's buffer. No execution is stuck, and the host
does not return (and so does not free the device's buffers) before the device is done. -/
theorem runChunkedGemm_correct (env : FloatEnv) (cfg : DynConfig) (w : XtGemmWorker)
    (source : Option (Nat → Int)) (times : Nat → Rat) (args : GemmArgs R) (hargs : args.Legal) :
    ∃ acts w', runChunkedGemm env cfg w source times args = some (acts, w') ∧
      (∀ c, acts.countP (·.covers c) = if c < args.n then 1 else 0) ∧
      ∀ dA dB dC, dA.length = args.aElems → dB.length = args.bElems → dC.length = args.cElems →
        ∀ steps conf, Steps (apply args) steps
            ⟨acts.flatMap Action.cmds, [], some (args.initial dA dB dC)⟩ conf →
          steps ≤ 2 * (acts.flatMap Action.cmds).length ∧
          (conf.cmds ≠ [] → ∃ conf', Step (apply args) conf conf') ∧
          (conf.cmds = [] → conf.pending = [] ∧ ∃ mem, conf.mem = some mem ∧
            ∀ i < args.m, ∀ c < args.n,
              mem.hostC[i + c * args.ldc]? = some (some (args.out i c))) := by
  obtain ⟨acts, w', hrun, hacts⟩ := runChunkedGemm_eq_some env cfg w source times args
  refine ⟨acts, w', hrun, hacts.countP_covers, fun dA dB dC hA hB hC steps conf hsteps => ?_⟩
  refine ⟨?_, Conf.progress, fun hdone => ?_⟩
  · have := hsteps.bound
    simp only [Conf.size, length_nil] at this
    omega
  · obtain ⟨hnil, hmem⟩ := hsteps.result_of_done hacts.orderly hdone
    obtain ⟨mem, hfold, hs⟩ := hacts.staged hargs hA hB hC
    exact ⟨hnil, mem, hmem.trans hfold, hs.done⟩

/-- A call with `B` transposed and a padded `C`. -/
def paddedArgs : GemmArgs Int :=
  { transa := 'N', transb := 't', m := 1, n := 2, k := 1, alpha := 2, a := [3], lda := 1
    b := [5, 7], ldb := 2, beta := 1, c := [1, 0, 4, 0], ldc := 2 }

/-- Two slots and chunks of one column: the target goes from 2 to 4 and back at each reading. -/
theorem runChunkedGemm_correct_padded : paddedArgs.Legal ∧ ∃ acts w',
    runChunkedGemm ⟨id⟩ { enabled := true, minChunkCols := -1, maxChunkCols := 1 }
      { smStep := 2, partitionSmCount := 4, contextSlots := [2, 4], active := 4 }
      (some fun i => if i % 2 = 0 then 2 else 4) (fun _ => 1) paddedArgs = some (acts, w') ∧
    ∀ steps conf, Steps (apply paddedArgs) steps
        ⟨acts.flatMap Action.cmds, [],
          some (paddedArgs.initial [0] [0, 0] [none, none, none, none])⟩ conf →
      conf.cmds = [] → ∃ mem, conf.mem = some mem ∧
        mem.hostC[0]? = some (some (paddedArgs.out 0 0)) ∧
        mem.hostC[2]? = some (some (paddedArgs.out 0 1)) := by
  have hargs : paddedArgs.Legal := by constructor <;> decide
  obtain ⟨acts, w', hrun, -, hdone⟩ := runChunkedGemm_correct ⟨id⟩
    { enabled := true, minChunkCols := -1, maxChunkCols := 1 }
    { smStep := 2, partitionSmCount := 4, contextSlots := [2, 4], active := 4 }
    (some fun i => if i % 2 = 0 then 2 else 4) (fun _ => 1) paddedArgs hargs
  refine ⟨hargs, acts, w', hrun, fun steps conf hsteps hnil => ?_⟩
  obtain ⟨-, -, hres⟩ := hdone [0] [0, 0] [none, none, none, none] rfl rfl rfl steps conf hsteps
  obtain ⟨-, mem, hmem, hcell⟩ := hres hnil
  exact ⟨mem, hmem, hcell 0 (by decide) 0 (by decide), hcell 0 (by decide) 1 (by decide)⟩

end Call

end Morphling
