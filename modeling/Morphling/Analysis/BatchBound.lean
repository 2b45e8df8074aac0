import Morphling.Analysis.BatchRuntime
import Mathlib.Algebra.Order.BigOperators.Group.List
import Mathlib.Data.List.Dedup

/-!
# The bound on the time of a batch

Every device finishes within the batch. The time of the batch is made of the slowest device of each
level, or of the slowest stage, and the time of a device is its sum over levels, and over stages.

* `time`: the time of a device at a place (a level, or a stage), as a sum of shares;
  `mem_runtimes_iff`: the tables hold these times.
* `Nonneg`: no share is negative (`nonneg_keyShares`, `nonneg_collectives`).
* `sum_time`: the times of a device at all places are its time.
* `total_le`: the bound, for the three ways in which the total is made.
-/

namespace Morphling.BatchRuntime

open Failing List Share

/-! ## The tables -/

section Tables

/-- The time of a device at a place. -/
def time (place : Share → Int) (shares : List Share) (k d : Int) : ℚ :=
  (((shares.filter (place · = k)).filter (·.deviceId = d)).map totalMs).sum

variable {place : Share → Int} {shares : List Share} {k d : Int} {x : Int × ℚ} {lv : LevelTime}
  {l : List (Int × ℚ)}

theorem mem_keys_runtimes : k ∈ Dict.keys (runtimes place shares) ↔ ∃ s ∈ shares, place s = k := by
  rw [runtimes, Dict.group₂, Dict.mem_keys_group]
  exact or_iff_right not_mem_nil

theorem nodup_keys_runtimes : (Dict.keys (runtimes place shares)).Nodup :=
  Dict.nodup_keys_group _ _ (m := []) nodup_nil _

/-- The times of the devices at a place. -/
theorem getD_lookup_runtimes :
    ((runtimes place shares).lookup k).getD [] =
      Dict.tally deviceId totalMs [] (shares.filter (place · = k)) :=
  Dict.getD_lookup_group₂ _ _ _ _ _ _

theorem mem_runtimes_iff {v : ℚ} :
    (d, v) ∈ ((runtimes place shares).lookup k).getD [] ↔
      (∃ s ∈ shares, place s = k ∧ s.deviceId = d) ∧ v = time place shares k d := by
  rw [getD_lookup_runtimes, Dict.mem_tally_iff, time]
  simp only [mem_filter, decide_eq_true_iff, and_assoc]

/-- The largest item is an item, and no other is larger. -/
theorem maxItem_spec (h : maxItem l = some x) : x ∈ l ∧ ∀ y ∈ l, y.2 ≤ x.2 := by
  cases l with
  | nil => cases h
  | cons x₀ l =>
    obtain rfl := Option.some.inj h
    induction l generalizing x₀ with
    | nil => simp
    | cons y l ih =>
      rw [foldl_cons]
      obtain ⟨hmem, hle⟩ := ih (if x₀.2 < y.2 then y else x₀) rfl
      generalize (l.foldl (fun best y => if best.2 < y.2 then y else best)
        (if x₀.2 < y.2 then y else x₀)) = x at hmem hle ⊢
      have hbest := hle _ mem_cons_self
      refine ⟨?_, fun z hz => ?_⟩
      · rcases mem_cons.mp hmem with rfl | hl
        · split <;> simp
        · exact mem_cons_of_mem _ (mem_cons_of_mem _ hl)
      · rcases mem_cons.mp hz with rfl | hz
        · split at hbest
          · exact le_trans (le_of_lt ‹_›) hbest
          · exact hbest
        · rcases mem_cons.mp hz with rfl | hz
          · split at hbest
            · exact hbest
            · exact le_trans (not_lt.mp ‹_›) hbest
          · exact hle z (mem_cons_of_mem _ hz)

theorem maxItem_isSome (h : l ≠ []) : (maxItem l).isSome := by
  cases l with
  | nil => exact absurd rfl h
  | cons x l => rfl

/-- Every place has a slowest device. -/
theorem exists_maxItem (h : k ∈ Dict.keys (runtimes place shares)) :
    ∃ x, maxItem (((runtimes place shares).lookup k).getD []) = some x := by
  obtain ⟨s, hs, hplace⟩ := mem_keys_runtimes.mp h
  have hmem := mem_runtimes_iff.mpr
    (⟨⟨s, hs, hplace, rfl⟩, rfl⟩ : _ ∧ time place shares k s.deviceId = _)
  exact Option.isSome_iff_exists.mp (maxItem_isSome (ne_nil_of_mem hmem))

theorem exists_max? {l : List ℚ} {a : ℚ} (h : a ∈ l) : ∃ m, l.max? = some m ∧ a ≤ m := by
  obtain ⟨m, hm⟩ := Option.isSome_iff_exists.mp (isSome_max?_of_mem h)
  exact ⟨m, hm, (max?_eq_some_iff.mp hm).2 a h⟩

/-- No device of a stage is slower than the slowest stage. -/
theorem le_bottleneckStageTimeMs {stages : List (Int × List (Int × ℚ))} {e : Int × List (Int × ℚ)}
    (he : e ∈ stages) (hx : x ∈ e.2) : x.2 ≤ bottleneckStageTimeMs stages := by
  obtain ⟨m, hm, hxm⟩ := exists_max? (mem_map_of_mem (f := Prod.snd) hx)
  have hmem : m ∈ stages.filterMap fun e => (e.2.map Prod.snd).max? :=
    mem_filterMap.mpr ⟨e, he, hm⟩
  obtain ⟨b, hb, hmb⟩ := exists_max? hmem
  rw [bottleneckStageTimeMs, hb]
  exact hxm.trans hmb

/-- A level of the result, with its slowest device. -/
theorem mem_perLevelBreakdown (h : lv ∈ perLevelBreakdown (runtimes place shares)) :
    maxItem (((runtimes place shares).lookup lv.level).getD []) =
      some (lv.bottleneckDevice, lv.runtimeMs) := by
  obtain ⟨level, -, hlv⟩ := mem_filterMap.mp h
  obtain ⟨⟨device, runtime⟩, hmax, rfl⟩ := Option.map_eq_some_iff.mp hlv
  exact hmax

theorem runtimeMs_eq (h : lv ∈ perLevelBreakdown (runtimes place shares)) :
    lv.runtimeMs = time place shares lv.level lv.bottleneckDevice :=
  (mem_runtimes_iff.mp (maxItem_spec (mem_perLevelBreakdown h)).1).2

/-- All levels are in the result, in their order. -/
theorem map_level_perLevelBreakdown :
    (perLevelBreakdown (runtimes place shares)).map LevelTime.level =
      (Dict.keys (runtimes place shares)).insertionSort (· ≤ ·) := by
  rw [perLevelBreakdown, map_filterMap]
  refine (filterMap_congr fun level hlevel => ?_).trans filterMap_some
  have hkey := (perm_insertionSort _ _).mem_iff.mp hlevel
  obtain ⟨x, hx⟩ := exists_maxItem hkey
  rw [hx]
  rfl

end Tables

/-! ## Shares that are not negative -/

section Nonneg

variable {place : Share → Int} {shares : List Share} (hshares : ∀ s ∈ shares, 0 ≤ s.totalMs)

include hshares

theorem time_nonneg (k d : Int) : 0 ≤ time place shares k d := by
  refine sum_nonneg fun x hx => ?_
  obtain ⟨s, hs, rfl⟩ := mem_map.mp hx
  exact hshares s (mem_of_mem_filter (mem_of_mem_filter hs))

/-- A device that is slower than the slowest one has no share there. -/
theorem time_le_of_maxItem {k d : Int} {x : Int × ℚ}
    (hx : maxItem (((runtimes place shares).lookup k).getD []) = some x) :
    time place shares k d ≤ x.2 := by
  obtain ⟨hmem, hmax⟩ := maxItem_spec hx
  by_cases hd : ∃ s ∈ shares, place s = k ∧ s.deviceId = d
  · exact hmax _ (mem_runtimes_iff.mpr ⟨hd, rfl⟩)
  · have hnone : (shares.filter (place · = k)).filter (·.deviceId = d) = [] := by
      rw [filter_eq_nil_iff]
      intro s hs hsd
      obtain ⟨hs, hplace⟩ := mem_filter.mp hs
      exact hd ⟨s, hs, of_decide_eq_true hplace, of_decide_eq_true hsd⟩
    rw [(mem_runtimes_iff.mp (show (x.1, x.2) ∈ _ from hmem)).2, time, hnone]
    exact time_nonneg hshares k x.1

end Nonneg

/-- The time of a device. -/
def deviceTime (shares : List Share) (d : Int) : ℚ :=
  ((shares.filter (·.deviceId = d)).map totalMs).sum

variable {shares : List Share}

/-- The times of a device at all places are its time. -/
theorem sum_time (place : Share → Int) {ks : List Int} (hks : ks.Nodup)
    (hall : ∀ s ∈ shares, place s ∈ ks) (d : Int) :
    (ks.map fun k => time place shares k d).sum = deviceTime shares d := by
  have hplace : ∀ s ∈ shares.filter (·.deviceId = d), place s ∈ ks := fun s hs =>
    hall s (mem_of_mem_filter hs)
  rw [deviceTime, ← Dict.sum_map_sum_filter place totalMs hks hplace]
  simp only [time, filter_comm]

section Bounds

variable {shares : List Share} (hshares : ∀ s ∈ shares, 0 ≤ s.totalMs)

include hshares

/-- The sum of the slowest devices of the levels. -/
theorem deviceTime_le_levels (d : Int) :
    deviceTime shares d ≤
      ((perLevelBreakdown (runtimes level shares)).map LevelTime.runtimeMs).sum := by
  have hsorted := perm_insertionSort (· ≤ ·) (Dict.keys (runtimes level shares))
  have hsum := sum_time level (hsorted.nodup_iff.mpr nodup_keys_runtimes)
    (fun s hs => hsorted.mem_iff.mpr (mem_keys_runtimes.mpr ⟨s, hs, rfl⟩)) d
  rw [← map_level_perLevelBreakdown, map_map] at hsum
  rw [← hsum]
  exact sum_le_sum fun lv hlv => time_le_of_maxItem hshares (mem_perLevelBreakdown hlv)

theorem deviceTime_nonneg (d : Int) : 0 ≤ deviceTime shares d := by
  refine sum_nonneg fun x hx => ?_
  obtain ⟨s, hs, rfl⟩ := mem_map.mp hx
  exact hshares s (mem_of_mem_filter hs)

/-- The time of a level is a part of the time of its slowest device. -/
theorem runtimeMs_le_device {lv : LevelTime}
    (h : lv ∈ perLevelBreakdown (runtimes level shares)) :
    lv.runtimeMs ≤ deviceTime shares lv.bottleneckDevice := by
  rw [runtimeMs_eq h]
  refine List.Sublist.sum_le_sum ?_ fun x hx => ?_
  · rw [filter_comm]
    exact (filter_sublist).map _
  · obtain ⟨s, hs, rfl⟩ := mem_map.mp hx
    exact hshares s (mem_of_mem_filter hs)

theorem time_le_bottleneck {k : Int} (hk : k ∈ Dict.keys (runtimes stageId shares)) (d : Int) :
    time stageId shares k d ≤ bottleneckStageTimeMs (runtimes stageId shares) := by
  obtain ⟨x, hx⟩ := exists_maxItem hk
  obtain ⟨inner, hinner⟩ := Option.isSome_iff_exists.mp (Dict.lookup_isSome_iff.mpr hk)
  have hmem := (maxItem_spec hx).1
  rw [hinner] at hmem
  exact (time_le_of_maxItem hshares hx).trans (le_bottleneckStageTimeMs
    ((Dict.mem_iff_lookup nodup_keys_runtimes).mpr hinner) hmem)

theorem bottleneck_nonneg : 0 ≤ bottleneckStageTimeMs (runtimes stageId shares) := by
  cases hkeys : Dict.keys (runtimes stageId shares) with
  | nil =>
    rw [map_eq_nil_iff.mp hkeys]
    rfl
  | cons k ks =>
    have hk : k ∈ Dict.keys (runtimes stageId shares) := by simp [hkeys]
    exact (time_nonneg hshares k 0).trans (time_le_bottleneck hshares hk 0)

/-- The slowest stage, once for each stage. -/
theorem deviceTime_le_stages (d : Int) :
    deviceTime shares d ≤ (Dict.keys (runtimes stageId shares)).length *
      bottleneckStageTimeMs (runtimes stageId shares) := by
  rw [← sum_time stageId nodup_keys_runtimes
    (fun s hs => mem_keys_runtimes.mpr ⟨s, hs, rfl⟩) d]
  refine (sum_le_card_nsmul _ _ fun x hx => ?_).trans_eq (by
    rw [length_map, nsmul_eq_mul])
  obtain ⟨k, hk, rfl⟩ := mem_map.mp hx
  exact time_le_bottleneck hshares hk d

end Bounds

/-! ## What the shares are made of -/

section Sources

variable {py : Python} {opts : Options} {trace : Option Trace} {events : List VTimeEvent}
  {entries : List Entry} {numLevels : Int} {mult : Multipliers} {entry : Entry} {baseline : String}
  {key : Key} {s : Share} {scaled : List (Key × Phase × ℚ)} {keyed : List (GroupKey × Entry)}

theorem multiplierAt_pos {b : Int} {arr : List ℚ} {v : ℚ} (h : multiplierAt b arr = .ok v) :
    0 < v := by
  rw [multiplierAt] at h
  split at h
  · obtain rfl := Except.ok.inj h
    exact one_pos
  · obtain ⟨w, -, rfl⟩ := map_eq_ok.mp h
    split
    · linarith
    · norm_num

theorem withinBatchMultiplier_pos {deviceId level : Int}
    (h : withinBatchMultiplier trace deviceId level numLevels = .ok mult) :
    0 < mult.fm ∧ 0 < mult.um ∧ 0 < mult.dm := by
  rw [withinBatchMultiplier] at h
  split at h
  · obtain rfl := Except.ok.inj h
    exact ⟨one_pos, one_pos, one_pos⟩
  · obtain ⟨fm, hf, h⟩ := bind_eq_ok.mp h
    obtain ⟨um, hu, h⟩ := bind_eq_ok.mp h
    obtain ⟨dm, hd, h⟩ := bind_eq_ok.mp h
    obtain rfl := Except.ok.inj h
    exact ⟨multiplierAt_pos hf, multiplierAt_pos hu, multiplierAt_pos hd⟩

theorem scalePhase_nonneg {phase : Phase} {durUs : ℚ} (hdur : 0 ≤ durUs)
    (hmult : 0 < mult.fm ∧ 0 < mult.um ∧ 0 < mult.dm) : 0 ≤ scalePhase phase durUs mult := by
  obtain ⟨hf, hu, hd⟩ := hmult
  cases phase <;> simp only [scalePhase] <;> positivity

/-- The durations of a GEMM. -/
theorem getD_lookup_vtimePhases (gemmId : Int) :
    ((vtimePhases events).lookup gemmId).getD [] =
      Dict.tally VTimeEvent.phase (fun ev => max ev.vtDurationUs 0) []
        (events.filter (·.gemmId = gemmId)) :=
  Dict.getD_lookup_group₂ _ _ _ _ _ _

theorem vtimePhases_nonneg {gemmId : Int} {e : Phase × Int}
    (he : e ∈ ((vtimePhases events).lookup gemmId).getD []) : 0 ≤ e.2 := by
  rw [getD_lookup_vtimePhases] at he
  rw [(Dict.mem_tally_iff _ _ |>.mp (show (e.1, e.2) ∈ _ from he)).2]
  refine sum_nonneg fun x hx => ?_
  obtain ⟨ev, -, rfl⟩ := mem_map.mp hx
  exact le_max_right _ _

theorem entryPhases_nonneg {e : Phase × ℚ} (he : e ∈ entryPhases opts events entry) : 0 ≤ e.2 := by
  rw [entryPhases] at he
  split at he
  · obtain ⟨phase, -, rfl⟩ := mem_map.mp he
    exact le_max_right _ _
  · obtain ⟨e', he', rfl⟩ := mem_map.mp he
    exact Int.cast_nonneg (vtimePhases_nonneg he')

theorem mem_scaledPhases {l : List (Key × Phase × ℚ)}
    (h : scaledPhases opts trace numLevels events entry = .ok l) {c : Key × Phase × ℚ} (hc : c ∈ l) :
    c.1 = entry.key ∧ 0 ≤ c.2.2 := by
  rw [scaledPhases] at h
  split at h
  · obtain rfl := Except.ok.inj h
    cases hc
  · obtain ⟨mult, hmult, rfl⟩ := map_eq_ok.mp h
    obtain ⟨e, he, rfl⟩ := mem_map.mp hc
    exact ⟨rfl, scalePhase_nonneg (entryPhases_nonneg he) (withinBatchMultiplier_pos hmult)⟩

theorem keyShare_spec {phaseUs : Phase → ℚ} (hphase : ∀ phase, 0 ≤ phaseUs phase)
    (hs : keyShare baseline key phaseUs = some s) : 0 ≤ s.totalMs ∧ s.stageId = key.stageId := by
  have hsend := hphase .send
  have hdl := hphase .download
  have hcomp := hphase .compute
  have hul := hphase .upload
  have hrecv := hphase .receive
  unfold keyShare at hs
  split at hs
  · split at hs
    · cases hs
    · obtain rfl := Option.some.inj hs
      exact ⟨by positivity, rfl⟩
  · obtain rfl := Option.some.inj hs
    refine ⟨?_, rfl⟩
    dsimp only
    split
    · positivity
    · split
      · positivity
      · simp

/-- The duration of a phase of a key. -/
def phaseUs (scaled : List (Key × Phase × ℚ)) (key : Key) (phase : Phase) : ℚ :=
  (((scaled.filter (·.1 = key)).filter (·.2.1 = phase)).map fun c => c.2.2).sum

theorem mem_keys_phaseUsByKey :
    key ∈ Dict.keys (phaseUsByKey scaled) ↔ ∃ c ∈ scaled, c.1 = key := by
  rw [phaseUsByKey, Dict.group₂, Dict.mem_keys_group]
  exact or_iff_right not_mem_nil

/-- There is a share for each key, made of the durations of its phases. -/
theorem keyShares_eq (baseline : String) (scaled : List (Key × Phase × ℚ)) :
    keyShares baseline (phaseUsByKey scaled) =
      (Dict.keys (phaseUsByKey scaled)).filterMap fun key =>
        keyShare baseline key (phaseUs scaled key) := by
  have hnodup : (Dict.keys (phaseUsByKey scaled)).Nodup :=
    Dict.nodup_keys_group _ _ (m := []) nodup_nil _
  rw [keyShares, Dict.filterMap_eq_filterMap_keys (fun key (inner : List (Phase × ℚ)) =>
    keyShare baseline key fun phase => (inner.lookup phase).getD 0) hnodup]
  refine filterMap_congr fun key hkey => ?_
  obtain ⟨inner, hinner⟩ := Option.isSome_iff_exists.mp (Dict.lookup_isSome_iff.mpr hkey)
  have htally : inner = Dict.tally (fun c => c.2.1) (fun c => c.2.2) []
      (scaled.filter (·.1 = key)) := by
    have h := Dict.getD_lookup_group₂ Prod.fst (fun c : Key × Phase × ℚ => c.2.1)
      (fun c o => o.getD 0 + c.2.2) key [] scaled
    rw [← phaseUsByKey, hinner] at h
    exact h
  rw [hinner, Option.bind_some]
  congr 1
  funext phase
  rw [htally, Dict.getD_lookup_tally, lookup_nil, Option.getD_none, zero_add, phaseUs]

theorem mem_keyShares (hscaled : ∀ c ∈ scaled, 0 ≤ c.2.2)
    (hs : s ∈ keyShares baseline (phaseUsByKey scaled)) :
    0 ≤ s.totalMs ∧ ∃ c ∈ scaled, s.stageId = c.1.stageId := by
  rw [keyShares_eq] at hs
  obtain ⟨key, hkey, hs⟩ := mem_filterMap.mp hs
  have hphase : ∀ phase, 0 ≤ phaseUs scaled key phase := fun phase => by
    refine sum_nonneg fun x hx => ?_
    obtain ⟨c, hc, rfl⟩ := mem_map.mp hx
    exact hscaled c (mem_of_mem_filter (mem_of_mem_filter hc))
  obtain ⟨htotal, hstage⟩ := keyShare_spec hphase hs
  obtain ⟨c, hc, rfl⟩ := mem_keys_phaseUsByKey.mp hkey
  exact ⟨htotal, c, hc, hstage⟩

/-- A collective takes the time that is estimated for its entry. -/
theorem mem_collectives {c : GroupKey × Share} (hc : c ∈ collectives py opts keyed) :
    ∃ e ∈ keyed, e.1 = c.1 ∧ c.2.stageId = e.2.stageId ∧ 0 < c.2.totalMs ∧ c.2.totalMs =
      estimateAllreduceMs py opts e.2 (((buildCollectiveGroups keyed).lookup e.1).getD []) := by
  obtain ⟨e, he, hc⟩ := mem_filterMap.mp hc
  obtain ⟨s, hs, rfl⟩ := Option.map_eq_some_iff.mp hc
  unfold collectiveShare at hs
  dsimp only at hs
  split at hs
  · cases hs
  · obtain rfl := Option.some.inj hs
    exact ⟨e, he, rfl, rfl, not_le.mp ‹_›, rfl⟩

theorem mem_collectiveEntries (h : collectiveEntries entries = .ok keyed) {e : GroupKey × Entry}
    (he : e ∈ keyed) :
    e.2 ∈ entries ∧ IsAllreduce e.2.parallelismType ∧ collectiveGroupKey e.2 = .ok e.1 := by
  obtain ⟨entry, hentry, hok⟩ := mem_of_mapM h he
  obtain ⟨key, hkey, rfl⟩ := map_eq_ok.mp hok
  obtain ⟨hentry, htype⟩ := mem_filter.mp hentry
  exact ⟨hentry, of_decide_eq_true htype, hkey⟩

/-- The shares are not negative, and are in stages of the entries. -/
theorem mem_sharesOf {shares : List Share × List (GroupKey × Share)}
    (h : sharesOf py opts trace events entries = .ok shares) :
    ∀ s ∈ shares.1 ++ shares.2.map Prod.snd,
      0 ≤ s.totalMs ∧ s.stageId ∈ entries.map Entry.stageId := by
  obtain ⟨keyed, hkeyed, h⟩ := bind_eq_ok.mp h
  obtain ⟨scaled, hscaled, h⟩ := bind_eq_ok.mp h
  obtain rfl := Except.ok.inj h
  intro s hs
  have hsource : ∀ c ∈ scaled.flatten, 0 ≤ c.2.2 ∧
      c.1.stageId ∈ entries.map Entry.stageId := fun c hc => by
    obtain ⟨l, hl, hc⟩ := mem_flatten.mp hc
    obtain ⟨entry, hentry, hok⟩ := mem_of_mapM hscaled hl
    obtain ⟨hkey, hnonneg⟩ := mem_scaledPhases hok hc
    exact ⟨hnonneg, mem_map.mpr ⟨entry, hentry, by rw [hkey]; rfl⟩⟩
  rcases mem_append.mp hs with hs | hs
  · obtain ⟨htotal, c, hc, hstage⟩ := mem_keyShares (fun c hc => (hsource c hc).1) hs
    exact ⟨htotal, hstage ▸ (hsource c hc).2⟩
  · obtain ⟨c, hc, rfl⟩ := mem_map.mp hs
    obtain ⟨e, he, -, hstage, htotal, -⟩ := mem_collectives hc
    exact ⟨htotal.le, hstage ▸ mem_map_of_mem (mem_collectiveEntries hkeyed he).1⟩

end Sources

/-! ## The bounds -/

/-- The times of all devices together. -/
def busyMs (r : BatchRuntimeResult) : ℚ := (r.perDeviceBreakdown.map fun e => e.2.totalMs).sum

/-- The times of the devices and of the levels are within the time of the batch, so that the idle
fraction needs no clamp. -/
structure Bounded (r : BatchRuntimeResult) : Prop where
  device : ∀ e ∈ r.perDeviceBreakdown, e.2.totalMs ≤ r.totalRuntimeMs
  level : ∀ lv ∈ r.perLevelBreakdown, lv.runtimeMs ≤ r.totalRuntimeMs
  idle : ∀ numDevices : Nat, r.perDeviceBreakdown.length ≤ numDevices →
    0 ≤ idleFraction r numDevices ∧ idleFraction r numDevices ≤ 1 ∧
      (0 < numDevices * r.totalRuntimeMs →
        idleFraction r numDevices = 1 - busyMs r / (numDevices * r.totalRuntimeMs))

/-- The totals of a device in the result. -/
theorem totalMs_eq {e : Int × DeviceTimes} (he : e ∈ perDeviceBreakdown (perDevice shares)) :
    e.2.totalMs = deviceTime shares e.1 := by
  have hnodup : (Dict.keys (perDevice shares)).Nodup :=
    Dict.nodup_keys_group _ _ (m := []) nodup_nil _
  have hsum : ∀ l : List Share,
      (l.map fun s => (s.computeMs, s.networkMs, s.totalMs)).sum.2.2 = (l.map totalMs).sum := by
    intro l
    induction l with
    | nil => rfl
    | cons s l ih => rw [map_cons, sum_cons, map_cons, sum_cons, ← ih]; rfl
  obtain ⟨d, -, hd⟩ := mem_filterMap.mp he
  obtain ⟨v, hv, rfl⟩ := Option.map_eq_some_iff.mp hd
  have hmem : (d, v) ∈ perDevice shares := (Dict.mem_iff_lookup hnodup).mpr hv
  rw [deviceTime, ← hsum, ← ((Dict.mem_tally_iff _ _).mp hmem).2]

theorem idle_of_device {r : BatchRuntimeResult}
    (hnonneg : ∀ e ∈ r.perDeviceBreakdown, 0 ≤ e.2.totalMs)
    (hdevice : ∀ e ∈ r.perDeviceBreakdown, e.2.totalMs ≤ r.totalRuntimeMs) {numDevices : Nat}
    (hnum : r.perDeviceBreakdown.length ≤ numDevices) :
    0 ≤ idleFraction r numDevices ∧ idleFraction r numDevices ≤ 1 ∧
      (0 < numDevices * r.totalRuntimeMs →
        idleFraction r numDevices = 1 - busyMs r / (numDevices * r.totalRuntimeMs)) := by
  rcases le_or_gt (numDevices * r.totalRuntimeMs) 0 with hzero | hpos
  · have hidle : idleFraction r numDevices = 0 := if_pos hzero
    rw [hidle]
    exact ⟨le_rfl, zero_le_one, fun hpos => absurd hpos (not_lt.mpr hzero)⟩
  have hbusy : 0 ≤ busyMs r := sum_nonneg fun x hx => by
    obtain ⟨e, he, rfl⟩ := mem_map.mp hx
    exact hnonneg e he
  have htotal : 0 < r.totalRuntimeMs := pos_of_mul_pos_right hpos (Nat.cast_nonneg _)
  have hle : busyMs r ≤ numDevices * r.totalRuntimeMs := by
    calc busyMs r ≤ (r.perDeviceBreakdown.map fun e => e.2.totalMs).length • r.totalRuntimeMs :=
          sum_le_card_nsmul _ _ fun x hx => by
            obtain ⟨e, he, rfl⟩ := mem_map.mp hx
            exact hdevice e he
      _ = r.perDeviceBreakdown.length * r.totalRuntimeMs := by rw [length_map, nsmul_eq_mul]
      _ ≤ numDevices * r.totalRuntimeMs :=
          mul_le_mul_of_nonneg_right (Nat.cast_le.mpr hnum) htotal.le
  have hquot : busyMs r / (numDevices * r.totalRuntimeMs) ≤ 1 := (div_le_one hpos).mpr hle
  have hidle : idleFraction r numDevices = 1 - busyMs r / (numDevices * r.totalRuntimeMs) :=
    (if_neg (not_le.mpr hpos)).trans (max_eq_right (sub_nonneg.mpr hquot))
  rw [hidle]
  exact ⟨sub_nonneg.mpr hquot, sub_le_self _ (div_nonneg hbusy hpos.le), fun _ => rfl⟩

theorem one_le_numMicrobatches (py : Python) (opts : Options) (manifest : Json)
    (entries : List Entry) : 1 ≤ (inferPipelineParams py opts manifest entries).2 := by
  simp only [inferPipelineParams]
  split <;> omega

/-- With as many microbatches and stages as there are, the slowest stage bounds every device. -/
theorem deviceTime_le_overlay {stages : List Int} {ppSize numMicrobatches : Int}
    (hshares : ∀ s ∈ shares, 0 ≤ s.totalMs ∧ s.stageId ∈ stages)
    (hpp : stages.dedup.length ≤ ppSize) (hmicro : 1 ≤ numMicrobatches) (d : Int) :
    deviceTime shares d ≤
      numMicrobatches * bottleneckStageTimeMs (runtimes stageId shares) +
        (max (ppSize - 1) 0 : Int) * bottleneckStageTimeMs (runtimes stageId shares) := by
  have hnonneg : ∀ s ∈ shares, 0 ≤ s.totalMs := fun s hs => (hshares s hs).1
  have hsub : Dict.keys (runtimes stageId shares) ⊆ stages.dedup := fun k hk => by
    obtain ⟨s, hs, rfl⟩ := mem_keys_runtimes.mp hk
    exact mem_dedup.mpr (hshares s hs).2
  have hlen := (subperm_of_subset nodup_keys_runtimes hsub).length_le
  have hcount : ((Dict.keys (runtimes stageId shares)).length : ℚ) ≤
      ((numMicrobatches + max (ppSize - 1) 0 : Int) : ℚ) := by
    rw [← Int.cast_natCast, Int.cast_le]
    omega
  calc deviceTime shares d ≤ _ := deviceTime_le_stages hnonneg d
    _ ≤ _ := mul_le_mul_of_nonneg_right hcount (bottleneck_nonneg hnonneg)
    _ = _ := by rw [Int.cast_add, add_mul]

/-- The total, in each of the three ways, is at least the time of a device. -/
theorem deviceTime_le_total {py : Python} {opts : Options} {manifest : Json} {entries : List Entry}
    {keyShares : List Share} {collectives : List (GroupKey × Share)}
    (hshares : ∀ s ∈ keyShares ++ collectives.map Prod.snd,
      0 ≤ s.totalMs ∧ s.stageId ∈ entries.map Entry.stageId)
    (htail : 0 ≤ optimizerTailValMs py opts manifest)
    (hpp : (entries.map Entry.stageId).dedup.length ≤ (inferPipelineParams py opts manifest entries).1)
    (d : Int) :
    deviceTime (keyShares ++ collectives.map Prod.snd) d ≤
      (assemble py opts manifest entries keyShares collectives).totalRuntimeMs := by
  have hnonneg : ∀ s ∈ keyShares ++ collectives.map Prod.snd, 0 ≤ s.totalMs := fun s hs =>
    (hshares s hs).1
  have hlevels := deviceTime_le_levels hnonneg d
  simp only [assemble]
  split
  · linarith
  · split
    · exact deviceTime_le_overlay hshares hpp (one_le_numMicrobatches py opts manifest entries) d
    · exact hlevels

/-- No device and no level takes longer than the batch. -/
theorem bounded_of_computeBatchRuntime (py : Python) (opts : Options) (trace : Option Trace)
    (events : List VTimeEvent) (manifest : Json) (r : BatchRuntimeResult)
    (h : computeBatchRuntime py opts trace events manifest = .ok r)
    (htail : 0 ≤ optimizerTailValMs py opts manifest)
    (hpp : ((entriesOf py manifest).map Entry.stageId).dedup.length ≤
      (inferPipelineParams py opts manifest (entriesOf py manifest)).1) :
    Bounded r := by
  obtain ⟨⟨keyShares, collectives⟩, hok, rfl⟩ := map_eq_ok.mp (computeBatchRuntime_eq_ok.mp h).2
  have hshares := mem_sharesOf hok
  have hnonneg : ∀ s ∈ keyShares ++ collectives.map Prod.snd, 0 ≤ s.totalMs := fun s hs =>
    (hshares s hs).1
  have hdevice := deviceTime_le_total hshares htail hpp
  have hbreak : ∀ e ∈ (assemble py opts manifest (entriesOf py manifest) keyShares
      collectives).perDeviceBreakdown,
      e.2.totalMs = deviceTime (keyShares ++ collectives.map Prod.snd) e.1 := fun e he =>
    totalMs_eq he
  refine ⟨fun e he => (hbreak e he).trans_le (hdevice e.1), fun lv hlv => ?_, fun n hn =>
    idle_of_device (fun e he => ?_) (fun e he => (hbreak e he).trans_le (hdevice e.1)) hn⟩
  · exact (runtimeMs_le_device hnonneg hlv).trans (hdevice lv.bottleneckDevice)
  · rw [hbreak e he]
    exact deviceTime_nonneg hnonneg e.1

section Example

/-- Texts that are numbers do not occur, and names are in lower case. -/
def plain : Python where
  intOfStr _ := none
  floatOfStr _ := none
  str v := match v with
    | .str s => s
    | _ => ""
  lower s := s
  strip s := s

/-- Two stages on two devices. -/
def twoStages : Json := .list
  [.dict [("gemm_id", .int 1), ("level", .int 0), ("device_id", .int 0), ("stage_id", .int 0),
      ("parallelism_type", .str "pp_local")],
    .dict [("gemm_id", .int 2), ("level", .int 1), ("device_id", .int 1), ("stage_id", .int 1),
      ("parallelism_type", .str "pp_local")]]

def twoStagesEvents : List VTimeEvent := [⟨1, .compute, 2000⟩, ⟨2, .compute, 1000⟩, ⟨2, .send, 500⟩]

def twoStagesResult : BatchRuntimeResult where
  baselineName := "dtfm"
  totalRuntimeMs := 4
  computeTimeMs := 3
  networkTimeMs := 1 / 2
  pipelineBubbleMs := 2
  allreduceTimeMs := 0
  optimizerTailMs := 0
  perDeviceBreakdown := [(0, ⟨2, 0, 2⟩), (1, ⟨1, 1 / 2, 3 / 2⟩)]
  perLevelBreakdown := [⟨0, 2, 0⟩, ⟨1, 3 / 2, 1⟩]

theorem twoStages_bounded :
    computeBatchRuntime plain { baselineType := "dtfm" } none twoStagesEvents twoStages =
        .ok twoStagesResult ∧ Bounded twoStagesResult := by
  have h : computeBatchRuntime plain { baselineType := "dtfm" } none twoStagesEvents twoStages =
      .ok twoStagesResult := by decide +kernel
  exact ⟨h, bounded_of_computeBatchRuntime plain _ none twoStagesEvents twoStages twoStagesResult h
    (by decide +kernel) (by decide +kernel)⟩

end Example

end Morphling.BatchRuntime
