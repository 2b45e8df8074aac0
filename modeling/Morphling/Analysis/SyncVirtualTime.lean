import Morphling.Lib.Dict

/-!
# Synchronizing virtual time (`sync_virtual_time.py`)

Each device has a virtual clock of its own. The script shifts the records of a device in a GEMM so that
all devices begin to compute at one time, the earliest or the latest, and then shifts all records so
that the log begins at zero.

* `offset`: the offset of a device in a GEMM, read off the log: the baseline minus the last
  `COMPUTE START` of the device. `offsetOf_eq`: the script computes it.
* `synchronize_fst`: every record is moved as a whole.
* `minVt`: the normalization looks only at times after zero, of both kinds of records.
* `synchronized_iff`: the log is synchronized exactly if no device has two different `COMPUTE START`
  times in one GEMM, and the first record is the one that the normalization finds.

The texts of the lines are left out; a record that is printed is the record here.
-/

namespace Morphling.SyncVirtualTime

open List

structure VTEvent where
  timestampUs : Int
  deviceId : Int
  gemmId : Int
  phase : String
  event : String
  vtStartUs : Int
  vtEndUs : Int
  vtDurationUs : Int
  deriving DecidableEq

structure ThroughputEvent where
  timestampUs : Int
  deviceId : Int
  gemmId : Int
  direction : String
  bytes : Int
  throughputBS : Rat
  epochStartUs : Int
  epochEndUs : Int
  packetDurationUs : Int
  deriving DecidableEq

inductive Method where
  | earliest
  | latest
  deriving DecidableEq

def isComputeStart (e : VTEvent) : Bool := e.phase == "COMPUTE" && e.event == "START"

/-- `find_compute_start_times` -/
def findComputeStartTimes (vtimeEvents : List VTEvent) : List (Int × List (Int × Int)) :=
  Dict.group₂ VTEvent.gemmId VTEvent.deviceId (fun e _ => e.vtStartUs) []
    (vtimeEvents.filter isComputeStart)

/-- The time that the devices of a GEMM are moved to. -/
def baseline (method : Method) (times : List Int) : Option Int :=
  match method with
  | .earliest => times.min?
  | .latest => times.max?

/-- The offsets of the devices of one GEMM. -/
def deviceOffsets (method : Method) (deviceTimes : List (Int × Int)) : Option (List (Int × Int)) :=
  (baseline method (deviceTimes.map Prod.snd)).map fun b => deviceTimes.map fun q => (q.1, b - q.2)

/-- `calculate_offsets` -/
def calculateOffsets (computeStarts : List (Int × List (Int × Int))) (method : Method) :
    List (Int × List (Int × Int)) :=
  computeStarts.filterMap fun p => (deviceOffsets method p.2).map fun offsets => (p.1, offsets)

/-- `offsets.get(gemm_id, {}).get(device_id, 0)` -/
def offsetOf (offsets : List (Int × List (Int × Int))) (gemmId deviceId : Int) : Int :=
  (((offsets.lookup gemmId).getD []).lookup deviceId).getD 0

/-- The first pass over the VTIME records. -/
def adjustVtime (offsets : List (Int × List (Int × Int))) (e : VTEvent) : VTEvent :=
  let offset := offsetOf offsets e.gemmId e.deviceId
  { e with vtStartUs := e.vtStartUs + offset, vtEndUs := e.vtEndUs + offset }

/-- The first pass over the throughput records: times up to zero are not valid. -/
def adjustThroughput (offsets : List (Int × List (Int × Int))) (e : ThroughputEvent) :
    ThroughputEvent :=
  let offset := offsetOf offsets e.gemmId e.deviceId
  { e with
    epochStartUs := if e.epochStartUs > 0 then e.epochStartUs + offset else e.epochStartUs
    epochEndUs := if e.epochEndUs > 0 then e.epochEndUs + offset else e.epochEndUs }

/-- The second pass: the least time after zero, or zero. -/
def minVt (vtimeEvents : List VTEvent) (throughputEvents : List ThroughputEvent) : Int :=
  (((vtimeEvents.map VTEvent.vtStartUs ++ throughputEvents.map ThroughputEvent.epochStartUs).filter
    (0 < ·)).min?).getD 0

/-- `apply_offsets` -/
def applyOffsets (vtimeEvents : List VTEvent) (throughputEvents : List ThroughputEvent)
    (offsets : List (Int × List (Int × Int))) : List VTEvent × List ThroughputEvent :=
  let vtimeEvents := vtimeEvents.map (adjustVtime offsets)
  let throughputEvents := throughputEvents.map (adjustThroughput offsets)
  let minVt := minVt vtimeEvents throughputEvents
  (vtimeEvents.map fun e =>
      { e with vtStartUs := e.vtStartUs - minVt, vtEndUs := e.vtEndUs - minVt },
    throughputEvents.map fun e =>
      { e with
        epochStartUs := if e.epochStartUs > 0 then e.epochStartUs - minVt else e.epochStartUs
        epochEndUs := if e.epochEndUs > 0 then e.epochEndUs - minVt else e.epochEndUs })

/-- The three functions, one after the other. -/
def synchronize (method : Method) (vtimeEvents : List VTEvent)
    (throughputEvents : List ThroughputEvent) : List VTEvent × List ThroughputEvent :=
  applyOffsets vtimeEvents throughputEvents
    (calculateOffsets (findComputeStartTimes vtimeEvents) method)

/-! ## What a synchronized log is -/

section Laws
variable (method : Method) (vtimeEvents : List VTEvent) (throughputEvents : List ThroughputEvent)

/-- The records with what became of them. -/
def moved : List (VTEvent × VTEvent) :=
  vtimeEvents.zip (synchronize method vtimeEvents throughputEvents).1

structure Synchronized : Prop where
  /-- All devices begin to compute a GEMM at one time. -/
  aligned : ∀ e ∈ (synchronize method vtimeEvents throughputEvents).1,
    ∀ e' ∈ (synchronize method vtimeEvents throughputEvents).1, isComputeStart e = true →
      isComputeStart e' = true → e.gemmId = e'.gemmId → e.vtStartUs = e'.vtStartUs
  /-- Every record is there, as long as before. -/
  records : (synchronize method vtimeEvents throughputEvents).1.length = vtimeEvents.length ∧
    ∀ p ∈ moved method vtimeEvents throughputEvents,
      p.2 = { p.1 with vtStartUs := p.2.vtStartUs, vtEndUs := p.2.vtEndUs } ∧
        p.2.vtEndUs - p.2.vtStartUs = p.1.vtEndUs - p.1.vtStartUs
  packets : (synchronize method vtimeEvents throughputEvents).2.map
    ThroughputEvent.packetDurationUs = throughputEvents.map ThroughputEvent.packetDurationUs
  /-- Records of one device and GEMM are as far apart as before. -/
  differences : ∀ p ∈ moved method vtimeEvents throughputEvents,
    ∀ q ∈ moved method vtimeEvents throughputEvents, p.1.deviceId = q.1.deviceId →
      p.1.gemmId = q.1.gemmId → q.2.vtStartUs - p.2.vtStartUs = q.1.vtStartUs - p.1.vtStartUs
  /-- The log begins at zero. -/
  normalized : (∀ e ∈ (synchronize method vtimeEvents throughputEvents).1, 0 ≤ e.vtStartUs) ∧
    (vtimeEvents ≠ [] → ∃ e ∈ (synchronize method vtimeEvents throughputEvents).1, e.vtStartUs = 0)

/-- No device has two different times at which it begins to compute a GEMM. -/
def OneStart : Prop :=
  ∀ e ∈ vtimeEvents, ∀ e' ∈ vtimeEvents, isComputeStart e = true → isComputeStart e' = true →
    e.gemmId = e'.gemmId → e.deviceId = e'.deviceId → e.vtStartUs = e'.vtStartUs

/-- The last time at which a device begins to compute a GEMM. -/
def lastStart (gemmId deviceId : Int) : Option Int :=
  (vtimeEvents.filter fun e => isComputeStart e ∧ e.gemmId = gemmId ∧
    e.deviceId = deviceId).getLast?.map VTEvent.vtStartUs

/-- How far the records of a device in a GEMM are moved: from its last start to the first, or to the
last, of those of all devices. -/
def offset (gemmId deviceId : Int) : Int :=
  let starts := vtimeEvents.filterMap fun e => lastStart vtimeEvents gemmId e.deviceId
  ((lastStart vtimeEvents gemmId deviceId).bind fun start =>
    (baseline method starts).map (· - start)).getD 0

/-- After the offsets, the first record is what the normalization takes: all records begin after zero
and no valid throughput record before them, or all begin at zero and there is no valid one. -/
def FirstFound : Prop :=
  let starts := vtimeEvents.map fun e => e.vtStartUs + offset method vtimeEvents e.gemmId e.deviceId
  let epochs := ((throughputEvents.filter (0 < ·.epochStartUs)).map fun e =>
    e.epochStartUs + offset method vtimeEvents e.gemmId e.deviceId).filter (0 < ·)
  vtimeEvents = [] ∨ ((∀ s ∈ starts, 0 < s) ∧ ∀ t ∈ epochs, ∃ s ∈ starts, s ≤ t) ∨
    (∀ s ∈ starts, s = 0) ∧ epochs = []

/-! ## Offsets -/

theorem exists_baseline {times : List Int} (h : times ≠ []) :
    ∃ b, baseline method times = some b := by
  cases method with
  | earliest => exact Option.isSome_iff_exists.mp (isSome_min?_of_ne_nil h)
  | latest => exact Option.isSome_iff_exists.mp (isSome_max?_of_ne_nil h)

theorem baseline_congr {times times' : List Int} (h : ∀ t, t ∈ times ↔ t ∈ times') :
    baseline method times = baseline method times' := by
  cases method with
  | earliest => exact Option.ext fun t => by simp only [baseline, min?_eq_some_iff, h]
  | latest => exact Option.ext fun t => by simp only [baseline, max?_eq_some_iff, h]

variable {vtimeEvents} in
theorem lastStart_eq_some {gemmId deviceId start : Int}
    (h : lastStart vtimeEvents gemmId deviceId = some start) :
    ∃ e ∈ vtimeEvents, isComputeStart e = true ∧ e.gemmId = gemmId ∧ e.deviceId = deviceId ∧
      e.vtStartUs = start := by
  obtain ⟨e, hlast, rfl⟩ := Option.map_eq_some_iff.mp h
  obtain ⟨he, hstart⟩ := mem_filter.mp (mem_of_getLast? hlast)
  obtain ⟨hstart, hgemm, hdevice⟩ := of_decide_eq_true hstart
  exact ⟨e, he, hstart, hgemm, hdevice, rfl⟩

/-- The time that is kept for a device is that of its last start. -/
theorem lookup_findComputeStartTimes (gemmId deviceId : Int) :
    (((findComputeStartTimes vtimeEvents).lookup gemmId).getD []).lookup deviceId =
      lastStart vtimeEvents gemmId deviceId := by
  rw [findComputeStartTimes, Dict.getD_lookup_group₂, Dict.lookup_group, Dict.foldl_set, filter_filter,
    filter_filter, lastStart]
  simp only [lookup_nil, Option.getD_none, Option.or_none]
  congr 2
  refine filter_congr fun e _ => ?_
  rw [Bool.eq_iff_iff]
  simp only [Bool.and_eq_true, decide_eq_true_eq]
  tauto

/-- The times that are kept for a GEMM. -/
theorem mem_times_iff (gemmId start : Int) :
    start ∈ (((findComputeStartTimes vtimeEvents).lookup gemmId).getD []).map Prod.snd ↔
      start ∈ vtimeEvents.filterMap fun e => lastStart vtimeEvents gemmId e.deviceId := by
  have hnodup : (Dict.keys (((findComputeStartTimes vtimeEvents).lookup gemmId).getD [])).Nodup := by
    rw [findComputeStartTimes, Dict.getD_lookup_group₂]
    exact Dict.nodup_keys_group (m := []) _ _ nodup_nil _
  simp only [mem_map, Prod.exists, exists_eq_right, Dict.mem_iff_lookup hnodup,
    lookup_findComputeStartTimes, mem_filterMap]
  constructor
  · rintro ⟨deviceId, hstart⟩
    obtain ⟨e, he, -, -, rfl, -⟩ := lastStart_eq_some hstart
    exact ⟨e, he, hstart⟩
  · rintro ⟨e, -, hstart⟩
    exact ⟨e.deviceId, hstart⟩

/-- The script computes the offset. -/
theorem offsetOf_eq (gemmId deviceId : Int) :
    offsetOf (calculateOffsets (findComputeStartTimes vtimeEvents) method) gemmId deviceId =
      offset method vtimeEvents gemmId deviceId := by
  have hnodup : (Dict.keys (findComputeStartTimes vtimeEvents)).Nodup :=
    Dict.nodup_keys_group (m := []) _ _ nodup_nil _
  have hlookup := lookup_findComputeStartTimes vtimeEvents gemmId deviceId
  have hbaseline := baseline_congr method (mem_times_iff vtimeEvents gemmId)
  rw [offsetOf, calculateOffsets, Dict.lookup_filterMap (deviceOffsets method) hnodup, offset]
  cases htimes : (findComputeStartTimes vtimeEvents).lookup gemmId with
  | none =>
    rw [htimes, Option.getD_none, lookup_nil] at hlookup
    rw [← hlookup]
    rfl
  | some times =>
    rw [htimes, Option.getD_some] at hlookup hbaseline
    rw [Option.bind_some, deviceOffsets, hbaseline, ← hlookup]
    cases baseline method _ with
    | none => cases times.lookup deviceId <;> rfl
    | some b =>
      rw [Option.map_some, Option.getD_some, Dict.lookup_map (b - ·)]
      cases times.lookup deviceId <;> rfl

/-- The offset of a device in a GEMM moves one of its `COMPUTE START` times to the baseline. -/
theorem offset_computeStart (gemmId : Int) :
    ∃ b, ∀ e ∈ vtimeEvents, isComputeStart e = true → e.gemmId = gemmId →
      ∃ e' ∈ vtimeEvents, isComputeStart e' = true ∧ e'.gemmId = e.gemmId ∧
        e'.deviceId = e.deviceId ∧
        offset method vtimeEvents e.gemmId e.deviceId = b - e'.vtStartUs := by
  refine ⟨(baseline method (vtimeEvents.filterMap fun e =>
    lastStart vtimeEvents gemmId e.deviceId)).getD 0, ?_⟩
  rintro e he hstart rfl
  obtain ⟨start, hlast⟩ : ∃ start, lastStart vtimeEvents e.gemmId e.deviceId = some start := by
    rw [lastStart, getLast?_eq_some_getLast
      (ne_nil_of_mem (mem_filter.mpr ⟨he, decide_eq_true ⟨hstart, rfl, rfl⟩⟩))]
    exact ⟨_, rfl⟩
  obtain ⟨e', he', hstart', hgemm, hdevice, rfl⟩ := lastStart_eq_some hlast
  have hmem : e'.vtStartUs ∈ vtimeEvents.filterMap fun k =>
      lastStart vtimeEvents e.gemmId k.deviceId := mem_filterMap.mpr ⟨e, he, hlast⟩
  obtain ⟨b, hb⟩ := exists_baseline method (ne_nil_of_mem hmem)
  refine ⟨e', he', hstart', hgemm, hdevice, ?_⟩
  rw [offset, hlast, hb]
  rfl

/-! ## The four laws -/

/-- The least positive time is below all positive ones, and one of them. -/
theorem minVt_cases :
    let starts := vtimeEvents.map VTEvent.vtStartUs
    let epochs := (throughputEvents.map ThroughputEvent.epochStartUs).filter (0 < ·)
    ((∀ s ∈ starts, s ≤ 0) ∧ epochs = [] ∧ minVt vtimeEvents throughputEvents = 0) ∨
      0 < minVt vtimeEvents throughputEvents ∧
        (minVt vtimeEvents throughputEvents ∈ starts ∨
          minVt vtimeEvents throughputEvents ∈ epochs) ∧
        (∀ s ∈ starts, 0 < s → minVt vtimeEvents throughputEvents ≤ s) ∧
        ∀ t ∈ epochs, minVt vtimeEvents throughputEvents ≤ t := by
  intro starts epochs
  have hsplit : (starts ++ throughputEvents.map ThroughputEvent.epochStartUs).filter (0 < ·) =
      starts.filter (0 < ·) ++ epochs := filter_append ..
  have hmin : minVt vtimeEvents throughputEvents =
      ((starts.filter (0 < ·) ++ epochs).min?).getD 0 := by rw [minVt, hsplit]
  cases h : (starts.filter (0 < ·) ++ epochs).min? with
  | none =>
    obtain ⟨hstarts, hepochs⟩ := append_eq_nil_iff.mp (min?_eq_none_iff.mp h)
    refine .inl ⟨fun s hs => ?_, hepochs, by rw [hmin, h]; rfl⟩
    have := filter_eq_nil_iff.mp hstarts s hs
    simpa using this
  | some m =>
    rw [hmin, h, Option.getD_some]
    obtain ⟨hm, hle⟩ := min?_eq_some_iff.mp h
    have hpos : ∀ x ∈ starts.filter (0 < ·) ++ epochs, 0 < x := by
      intro x hx
      rcases mem_append.mp hx with hx | hx <;>
        exact of_decide_eq_true (mem_filter.mp hx).2
    refine .inr ⟨hpos m hm, ?_, fun s hs hspos => ?_, fun t ht => ?_⟩
    · exact (mem_append.mp hm).imp_left mem_of_mem_filter
    · exact hle s (mem_append_left _ (mem_filter.mpr ⟨hs, decide_eq_true hspos⟩))
    · exact hle t (mem_append_right _ ht)

/-- The valid throughput records after the first pass. -/
theorem filter_adjustThroughput :
    (throughputEvents.map fun e => (adjustThroughput
        (calculateOffsets (findComputeStartTimes vtimeEvents) method) e).epochStartUs).filter (0 < ·) =
      ((throughputEvents.filter (0 < ·.epochStartUs)).map fun e =>
        e.epochStartUs + offset method vtimeEvents e.gemmId e.deviceId).filter (0 < ·) := by
  induction throughputEvents with
  | nil => rfl
  | cons e throughputEvents ih =>
    rw [map_cons, filter_cons, ih, adjustThroughput, offsetOf_eq]
    by_cases hpos : 0 < e.epochStartUs
    · rw [filter_cons_of_pos (by simpa using hpos), map_cons, filter_cons]
      simp [hpos]
    · rw [filter_cons_of_neg (by simpa using hpos)]
      simp [hpos]

/-- Where a record comes to. -/
def shifted (e : VTEvent) : VTEvent :=
  let offsets := calculateOffsets (findComputeStartTimes vtimeEvents) method
  let shift := offset method vtimeEvents e.gemmId e.deviceId -
    minVt (vtimeEvents.map (adjustVtime offsets)) (throughputEvents.map (adjustThroughput offsets))
  { e with vtStartUs := e.vtStartUs + shift, vtEndUs := e.vtEndUs + shift }

end Laws

variable {method : Method} {vtimeEvents : List VTEvent} {throughputEvents : List ThroughputEvent}

/-- Every record is moved as a whole. -/
theorem synchronize_fst : (synchronize method vtimeEvents throughputEvents).1 =
    vtimeEvents.map (shifted method vtimeEvents throughputEvents) := by
  rw [synchronize, applyOffsets, map_map]
  refine map_congr_left fun e _ => ?_
  simp only [Function.comp_apply, adjustVtime, shifted, offsetOf_eq, Int.add_sub_assoc]

theorem mem_moved {p : VTEvent × VTEvent} :
    p ∈ moved method vtimeEvents throughputEvents ↔
      ∃ e ∈ vtimeEvents, (e, shifted method vtimeEvents throughputEvents e) = p := by
  have hzip : (vtimeEvents.map id).zip
      (vtimeEvents.map (shifted method vtimeEvents throughputEvents)) = _ := zip_map'
  rw [map_id] at hzip
  rw [moved, synchronize_fst, hzip, mem_map]
  rfl

theorem aligned_iff (method : Method) (throughputEvents : List ThroughputEvent) :
    (∀ e ∈ (synchronize method vtimeEvents throughputEvents).1,
      ∀ e' ∈ (synchronize method vtimeEvents throughputEvents).1, isComputeStart e = true →
        isComputeStart e' = true → e.gemmId = e'.gemmId → e.vtStartUs = e'.vtStartUs) ↔
      OneStart vtimeEvents := by
  simp only [synchronize_fst, forall_mem_map]
  constructor
  · intro h e he e' he' hstart hstart' hgemm hdevice
    have hshift := h e he e' he' hstart hstart' hgemm
    -- both are moved by the same offset
    simp only [shifted, hgemm, hdevice] at hshift
    omega
  · intro h e he e' he' hstart hstart' hgemm
    obtain ⟨b, hb⟩ := offset_computeStart method vtimeEvents e.gemmId
    obtain ⟨k, hk, hkstart, hkgemm, hkdevice, hoff⟩ := hb e he hstart rfl
    obtain ⟨k', hk', hkstart', hkgemm', hkdevice', hoff'⟩ := hb e' he' hstart' hgemm.symm
    have hone := h k hk e he hkstart hstart hkgemm hkdevice
    have hone' := h k' hk' e' he' hkstart' hstart' hkgemm' hkdevice'
    simp only [shifted, hoff, hoff']
    omega

/-- When the time that the normalization takes is that of the first record. -/
theorem minVt_first_iff (hne : vtimeEvents ≠ []) (throughputEvents : List ThroughputEvent) :
    let starts := vtimeEvents.map VTEvent.vtStartUs
    let epochs := (throughputEvents.map ThroughputEvent.epochStartUs).filter (0 < ·)
    (∀ s ∈ starts, minVt vtimeEvents throughputEvents ≤ s) ∧
        minVt vtimeEvents throughputEvents ∈ starts ↔
      ((∀ s ∈ starts, 0 < s) ∧ ∀ t ∈ epochs, ∃ s ∈ starts, s ≤ t) ∨
        (∀ s ∈ starts, s = 0) ∧ epochs = [] := by
  intro starts epochs
  have hcases := minVt_cases vtimeEvents throughputEvents
  obtain ⟨s₀, hs₀⟩ := exists_mem_of_ne_nil starts (by simpa [starts] using hne)
  constructor
  · rintro ⟨hle, hmem⟩
    rcases hcases with ⟨hneg, hnone, hzero⟩ | ⟨hpos, -, -, hepochs⟩
    · rw [hzero] at hle
      exact .inr ⟨fun s hs => Int.le_antisymm (hneg s hs) (hle s hs), hnone⟩
    · exact .inl ⟨fun s hs => Int.lt_of_lt_of_le hpos (hle s hs), fun t ht => ⟨_, hmem, hepochs t ht⟩⟩
  · rintro (⟨hpos, hafter⟩ | ⟨hzero, hnone⟩)
    · rcases hcases with ⟨hneg, -⟩ | ⟨-, hmem, hstarts, -⟩
      · have := hneg s₀ hs₀
        have := hpos s₀ hs₀
        omega
      · have hle : ∀ s ∈ starts, minVt vtimeEvents throughputEvents ≤ s := fun s hs =>
          hstarts s hs (hpos s hs)
        refine ⟨hle, hmem.elim id fun hepoch => ?_⟩
        obtain ⟨s, hs, hsm⟩ := hafter _ hepoch
        exact Int.le_antisymm hsm (hle s hs) ▸ hs
    · rcases hcases with ⟨-, -, hm⟩ | ⟨hpos, hmem, -⟩
      · rw [hm]
        exact ⟨fun s hs => Int.le_of_eq (hzero s hs).symm, hzero s₀ hs₀ ▸ hs₀⟩
      · rcases hmem with hmem | hmem
        · have := hzero _ hmem
          omega
        · rw [show (throughputEvents.map ThroughputEvent.epochStartUs).filter (0 < ·) = [] from
            hnone] at hmem
          exact absurd hmem not_mem_nil

theorem normalized_iff :
    ((∀ e ∈ (synchronize method vtimeEvents throughputEvents).1, 0 ≤ e.vtStartUs) ∧
      (vtimeEvents ≠ [] →
        ∃ e ∈ (synchronize method vtimeEvents throughputEvents).1, e.vtStartUs = 0)) ↔
      FirstFound method vtimeEvents throughputEvents := by
  by_cases hnil : vtimeEvents = []
  · subst hnil
    simp [synchronize_fst, FirstFound]
  · have hne : vtimeEvents.map (adjustVtime
        (calculateOffsets (findComputeStartTimes vtimeEvents) method)) ≠ [] := by simpa using hnil
    have hfirst := minVt_first_iff hne (throughputEvents.map (adjustThroughput
      (calculateOffsets (findComputeStartTimes vtimeEvents) method)))
    simp only [map_map, Function.comp_def, filter_adjustThroughput] at hfirst
    simp only [adjustVtime, offsetOf_eq] at hfirst
    rw [FirstFound, or_iff_right hnil]
    refine Iff.trans ?_ hfirst
    rw [synchronize, applyOffsets]
    generalize minVt _ _ = m
    refine and_congr ?_ ?_
    · simp only [map_map, forall_mem_map, Function.comp_apply, adjustVtime, offsetOf_eq,
        Int.sub_nonneg]
    · simp only [hnil, ne_eq, not_false_eq_true, forall_const, mem_map, map_map,
        Function.comp_apply, adjustVtime, offsetOf_eq]
      constructor
      · rintro ⟨_, ⟨e, he, rfl⟩, hzero⟩
        exact ⟨e, he, Int.sub_eq_zero.mp hzero⟩
      · rintro ⟨e, he, hm⟩
        exact ⟨_, ⟨e, he, rfl⟩, Int.sub_eq_zero.mpr hm⟩

/-- The log is synchronized exactly if no device begins to compute a GEMM at two times, and the
normalization finds the first record. -/
theorem synchronized_iff (method : Method) (vtimeEvents : List VTEvent)
    (throughputEvents : List ThroughputEvent) :
    Synchronized method vtimeEvents throughputEvents ↔
      OneStart vtimeEvents ∧ FirstFound method vtimeEvents throughputEvents := by
  rw [← aligned_iff method throughputEvents, ← normalized_iff]
  constructor
  · exact fun h => ⟨h.aligned, h.normalized⟩
  rintro ⟨haligned, hnormalized⟩
  refine ⟨haligned, ⟨?_, ?_⟩, ?_, ?_, hnormalized⟩
  · rw [synchronize_fst, length_map]
  · intro p hp
    obtain ⟨e, -, rfl⟩ := mem_moved.mp hp
    refine ⟨rfl, ?_⟩
    simp only [shifted]
    omega
  · rw [synchronize, applyOffsets]
    simp only [map_map]
    rfl
  · intro p hp q hq hdevice hgemm
    obtain ⟨e, -, rfl⟩ := mem_moved.mp hp
    obtain ⟨e', -, rfl⟩ := mem_moved.mp hq
    simp only [shifted] at hdevice hgemm ⊢
    rw [hdevice, hgemm]
    omega

/-- A device that computes two partitions of a GEMM, the first one at time zero. -/
def twoPartitions : List VTEvent :=
  [⟨1, 0, 0, "COMPUTE", "START", 0, 0, 0⟩, ⟨2, 0, 0, "COMPUTE", "START", 5, 5, 0⟩]

/-- The two starts stay apart, and the first one is moved before zero. -/
theorem twoPartitions_not_synchronized :
    ((synchronize .earliest twoPartitions []).1.map VTEvent.vtStartUs = [-5, 0] ∧
      ¬ Synchronized .earliest twoPartitions []) ∧
    (synchronize .latest twoPartitions []).1.map VTEvent.vtStartUs = [-5, 0] ∧
      ¬ Synchronized .latest twoPartitions [] := by
  suffices hnot : ∀ method, (synchronize method twoPartitions []).1.map VTEvent.vtStartUs = [-5, 0] ∧
      ¬ Synchronized method twoPartitions [] from ⟨hnot .earliest, hnot .latest⟩
  intro method
  have hout : (synchronize method twoPartitions []).1.map VTEvent.vtStartUs = [-5, 0] := by
    cases method <;> decide
  refine ⟨hout, fun h => ?_⟩
  obtain ⟨e, he, hstart⟩ := mem_map.mp (hout ▸ mem_cons_self :
    (-5 : Int) ∈ (synchronize method twoPartitions []).1.map VTEvent.vtStartUs)
  have := h.normalized.1 e he
  omega

end Morphling.SyncVirtualTime
