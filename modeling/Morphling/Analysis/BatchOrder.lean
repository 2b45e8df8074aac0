import Morphling.Analysis.BatchBound

/-!
# The order of a manifest and of a log

The script fills its tables in the order of the manifest and of the log. What it reads from them are
sums and maxima, so that the result does not depend on the order, with two exceptions. Of several
devices that are equally slow the first one is named. A group of a collective counts with the first
time that is seen, so that its entries have to agree.

* `insertionSort_perm`, `max?_perm`, `min?_perm`: what is read from a table in any order.
* `sharesOf_perm`: the shares are the same, in another order.
* `allreduceTimeMs_perm`: the times of the groups, where their entries agree.
* `order_independent`: the result.
-/

namespace Morphling.BatchRuntime

open Failing List

/-! ## What is read in any order -/

theorem insertionSort_perm {l l' : List Int} (h : l.Perm l') :
    l.insertionSort (· ≤ ·) = l'.insertionSort (· ≤ ·) :=
  List.Perm.eq_of_pairwise (fun _ _ _ _ => le_antisymm) (pairwise_insertionSort _ _)
    (pairwise_insertionSort _ _)
    ((perm_insertionSort _ _).trans (h.trans (perm_insertionSort _ _).symm))

theorem max?_perm {α : Type} [LinearOrder α] {l l' : List α} (h : l.Perm l') : l.max? = l'.max? := by
  refine Option.ext fun a => ?_
  rw [max?_eq_some_iff, max?_eq_some_iff]
  simp only [h.mem_iff]

theorem min?_perm {α : Type} [LinearOrder α] {l l' : List α} (h : l.Perm l') : l.min? = l'.min? := by
  refine Option.ext fun a => ?_
  rw [min?_eq_some_iff, min?_eq_some_iff]
  simp only [h.mem_iff]

theorem map_snd_maxItem (l : List (Int × ℚ)) : (maxItem l).map Prod.snd = (l.map Prod.snd).max? := by
  cases hl : maxItem l with
  | none =>
    cases l with
    | nil => rfl
    | cons x l => cases hl
  | some x =>
    obtain ⟨hmem, hmax⟩ := maxItem_spec hl
    refine (max?_eq_some_iff.mpr ⟨mem_map_of_mem hmem, fun v hv => ?_⟩).symm
    obtain ⟨y, hy, rfl⟩ := mem_map.mp hv
    exact hmax y hy

/-- The time of the slowest device does not depend on the order, though its name does. -/
theorem maxItem_perm {l l' : List (Int × ℚ)} (h : l.Perm l') :
    (maxItem l).map Prod.snd = (maxItem l').map Prod.snd := by
  rw [map_snd_maxItem, map_snd_maxItem, max?_perm (h.map Prod.snd)]

section Shares

variable (place : Share → Int) {shares shares' : List Share} (h : shares.Perm shares')

include h

theorem time_perm (k d : Int) : time place shares k d = time place shares' k d :=
  (((h.filter _).filter _).map _).sum_eq

theorem keys_runtimes_perm :
    (Dict.keys (runtimes place shares)).Perm (Dict.keys (runtimes place shares')) :=
  Dict.keys_group_perm _ _ h (m := []) nodup_nil

theorem runtimes_perm (k : Int) :
    (((runtimes place shares).lookup k).getD []).Perm
      (((runtimes place shares').lookup k).getD []) := by
  rw [getD_lookup_runtimes, getD_lookup_runtimes]
  exact Dict.tally_perm _ _ (h.filter _)

/-- The levels and their times. -/
theorem perLevelBreakdown_perm :
    (perLevelBreakdown (runtimes place shares)).map (fun lv => (lv.level, lv.runtimeMs)) =
      (perLevelBreakdown (runtimes place shares')).map fun lv => (lv.level, lv.runtimeMs) := by
  rw [perLevelBreakdown, perLevelBreakdown, insertionSort_perm (keys_runtimes_perm place h),
    map_filterMap, map_filterMap]
  refine filterMap_congr fun level _ => ?_
  have hmax := congrArg (Option.map (level, ·)) (maxItem_perm (runtimes_perm place h level))
  rw [Option.map_map, Option.map_map] at hmax ⊢
  exact hmax

theorem bottleneckStageTimeMs_perm :
    bottleneckStageTimeMs (runtimes place shares) =
      bottleneckStageTimeMs (runtimes place shares') := by
  have hkeys : ∀ l : List Share, (runtimes place l).filterMap (fun e => (e.2.map Prod.snd).max?) =
      (Dict.keys (runtimes place l)).filterMap fun k =>
        ((((runtimes place l).lookup k).getD []).map Prod.snd).max? := fun l => by
    rw [Dict.filterMap_eq_filterMap_keys (fun _ (inner : List (Int × ℚ)) =>
      (inner.map Prod.snd).max?) nodup_keys_runtimes]
    refine filterMap_congr fun k _ => ?_
    cases (runtimes place l).lookup k <;> rfl
  have hmax : ∀ k, ((((runtimes place shares).lookup k).getD []).map Prod.snd).max? =
      ((((runtimes place shares').lookup k).getD []).map Prod.snd).max? := fun k =>
    max?_perm ((runtimes_perm place h k).map _)
  rw [bottleneckStageTimeMs, bottleneckStageTimeMs, hkeys, hkeys]
  simp only [hmax]
  rw [max?_perm ((keys_runtimes_perm place h).filterMap _)]

theorem perDeviceBreakdown_perm :
    perDeviceBreakdown (perDevice shares) = perDeviceBreakdown (perDevice shares') := by
  have hkeys : (Dict.keys (perDevice shares)).Perm (Dict.keys (perDevice shares')) :=
    Dict.keys_group_perm _ _ h (m := []) nodup_nil
  rw [perDeviceBreakdown, perDeviceBreakdown, insertionSort_perm hkeys]
  refine filterMap_congr fun d _ => ?_
  rw [perDevice, perDevice, Dict.lookup_tally_perm _ _ h]

end Shares

/-! ## Durations -/

section Durations

variable {opts : Options} {events events' : List VTimeEvent} (hevents : events.Perm events')

include hevents

theorem entryPhases_perm (entry : Entry) :
    (entryPhases opts events entry).Perm (entryPhases opts events' entry) := by
  have hempty : events.isEmpty = events'.isEmpty := by
    rw [Bool.eq_iff_iff, isEmpty_iff_length_eq_zero, isEmpty_iff_length_eq_zero,
      hevents.length_eq]
  rw [entryPhases, entryPhases, hempty, getD_lookup_vtimePhases, getD_lookup_vtimePhases]
  split
  · exact .refl _
  · exact (Dict.tally_perm _ _ (hevents.filter _)).map _

theorem scaledPhases_perm {trace : Option Trace} {numLevels : Int} {entry : Entry}
    {l : List (Key × Phase × ℚ)} (h : scaledPhases opts trace numLevels events entry = .ok l) :
    ∃ l', scaledPhases opts trace numLevels events' entry = .ok l' ∧ l.Perm l' := by
  have hperm : (entryPhases opts events entry).Perm (entryPhases opts events' entry) :=
    entryPhases_perm hevents entry
  rw [scaledPhases] at h ⊢
  split at h
  · rename_i hnil
    rw [hnil] at hperm
    rw [← hperm.nil_eq]
    exact ⟨l, h, .refl _⟩
  · rename_i hne
    split
    · rename_i hnil
      rw [hnil] at hperm
      exact absurd hperm.eq_nil hne
    · obtain ⟨mult, hmult, rfl⟩ := map_eq_ok.mp h
      exact ⟨_, map_eq_ok.mpr ⟨mult, hmult, rfl⟩, hperm.map _⟩

end Durations

variable {scaled scaled' : List (Key × Phase × ℚ)}

theorem phaseUs_perm (h : scaled.Perm scaled') (key : Key) :
    phaseUs scaled key = phaseUs scaled' key := by
  funext phase
  exact (((h.filter _).filter _).map _).sum_eq

theorem keyShares_perm (h : scaled.Perm scaled')
    (baseline : String) :
    (keyShares baseline (phaseUsByKey scaled)).Perm (keyShares baseline (phaseUsByKey scaled')) := by
  have hkeys : (Dict.keys (phaseUsByKey scaled)).Perm (Dict.keys (phaseUsByKey scaled')) :=
    Dict.keys_group_perm _ _ h (m := []) nodup_nil
  rw [keyShares_eq, keyShares_eq]
  simp only [phaseUs_perm h]
  exact hkeys.filterMap _

/-! ## Collectives -/

section Collectives

variable {py : Python} {opts : Options} {keyed keyed' : List (GroupKey × Entry)}
  {cs : List (GroupKey × Share)}

/-- The devices of a group, each once. -/
theorem groupDevices_spec (keyed : List (GroupKey × Entry)) (key : GroupKey) :
    (((buildCollectiveGroups keyed).lookup key).getD []).Nodup ∧
      ∀ d, d ∈ ((buildCollectiveGroups keyed).lookup key).getD [] ↔
        ∃ e ∈ keyed, e.1 = key ∧ e.2.deviceId = d := by
  have hfold : ∀ (l : List (GroupKey × Entry)) (o : Option (List Int)), (o.getD []).Nodup →
      ((l.foldl (fun o e => some ((o.getD []).insert e.2.deviceId)) o).getD []).Nodup ∧
        ∀ d, d ∈ (l.foldl (fun o e => some ((o.getD []).insert e.2.deviceId)) o).getD [] ↔
          d ∈ o.getD [] ∨ ∃ e ∈ l, e.2.deviceId = d := by
    intro l
    induction l with
    | nil => exact fun o ho => ⟨ho, by simp⟩
    | cons e l ih =>
      intro o ho
      obtain ⟨hnodup, hmem⟩ := ih (some ((o.getD []).insert e.2.deviceId)) (ho.insert)
      refine ⟨hnodup, fun d => (hmem d).trans ?_⟩
      simp only [Option.getD_some, mem_insert_iff, exists_mem_cons_iff,
        eq_comm (a := d)]
      tauto
  have hlookup := Dict.lookup_group Prod.fst
    (fun (e : GroupKey × Entry) (o : Option (List Int)) => (o.getD []).insert e.2.deviceId) key [] keyed
  obtain ⟨hnodup, hmem⟩ := hfold (keyed.filter (·.1 = key)) none nodup_nil
  rw [buildCollectiveGroups, hlookup]
  refine ⟨hnodup, fun d => (hmem d).trans ?_⟩
  simp [and_assoc]

theorem groupDevices_perm (h : keyed.Perm keyed') (key : GroupKey) :
    (((buildCollectiveGroups keyed).lookup key).getD []).Perm
      (((buildCollectiveGroups keyed').lookup key).getD []) := by
  obtain ⟨hnodup, hmem⟩ := groupDevices_spec keyed key
  obtain ⟨hnodup', hmem'⟩ := groupDevices_spec keyed' key
  refine (perm_ext_iff_of_nodup hnodup hnodup').mpr fun d => ?_
  simp only [hmem, hmem', h.mem_iff]

theorem estimateAllreduceMs_perm {group group' : List Int} (h : group.Perm group') (entry : Entry) :
    estimateAllreduceMs py opts entry group = estimateAllreduceMs py opts entry group' := by
  have hbw : groupBw py opts entry group = groupBw py opts entry group' := by
    simp only [groupBw]
    rw [min?_perm (h.filterMap _)]
  simp only [estimateAllreduceMs, hbw, h.length_eq]

theorem collectives_perm (h : keyed.Perm keyed') :
    (collectives py opts keyed).Perm (collectives py opts keyed') := by
  have hshare : ∀ e : GroupKey × Entry,
      collectiveShare py opts (((buildCollectiveGroups keyed).lookup e.1).getD []) e.2 =
        collectiveShare py opts (((buildCollectiveGroups keyed').lookup e.1).getD []) e.2 := fun e => by
    rw [collectiveShare, collectiveShare, estimateAllreduceMs_perm (groupDevices_perm h e.1)]
  simp only [collectives, hshare]
  exact h.filterMap _

/-- Each group counts once, where the times of a group agree. -/
theorem allreduceTimeMs_eq {v : GroupKey → ℚ} (hv : ∀ c ∈ cs, c.2.totalMs = v c.1) :
    ∃ ks : List GroupKey, ks.Nodup ∧ (∀ k, k ∈ ks ↔ ∃ c ∈ cs, c.1 = k) ∧
      allreduceTimeMs cs = (ks.map v).sum := by
  have hfold : ∀ (l : List (GroupKey × Share)) (seen : List GroupKey) (total : ℚ),
      (∀ c ∈ l, c.2.totalMs = v c.1) → seen.Nodup → total = (seen.map v).sum →
      ∃ ks : List GroupKey, ks.Nodup ∧ (∀ k, k ∈ ks ↔ k ∈ seen ∨ ∃ c ∈ l, c.1 = k) ∧
        (l.foldl (fun (acc : List GroupKey × ℚ) c =>
          if c.1 ∈ acc.1 then acc else (c.1 :: acc.1, acc.2 + c.2.totalMs))
          (seen, total)).2 = (ks.map v).sum := by
    intro l
    induction l with
    | nil => exact fun seen total _ hseen htotal => ⟨seen, hseen, by simp, htotal⟩
    | cons c l ih =>
      intro seen total hl hseen htotal
      have hrest : ∀ c ∈ l, c.2.totalMs = v c.1 := fun c hc => hl c (mem_cons_of_mem _ hc)
      simp only [foldl_cons, exists_mem_cons_iff]
      by_cases hc : c.1 ∈ seen
      · obtain ⟨ks, hks, hmem, hsum⟩ := ih seen total hrest hseen htotal
        rw [if_pos hc]
        refine ⟨ks, hks, fun k => (hmem k).trans ⟨Or.imp_right Or.inr, ?_⟩, hsum⟩
        rintro (hk | rfl | hk)
        · exact .inl hk
        · exact .inl hc
        · exact .inr hk
      · have htotal' : total + c.2.totalMs = ((c.1 :: seen).map v).sum := by
          rw [map_cons, sum_cons, htotal, hl c mem_cons_self, add_comm]
        obtain ⟨ks, hks, hmem, hsum⟩ :=
          ih (c.1 :: seen) _ hrest (nodup_cons.mpr ⟨hc, hseen⟩) htotal'
        rw [if_neg hc]
        refine ⟨ks, hks, fun k => (hmem k).trans ?_, hsum⟩
        rw [mem_cons, eq_comm]
        tauto
  obtain ⟨ks, hks, hmem, hsum⟩ := hfold cs [] 0 hv nodup_nil rfl
  exact ⟨ks, hks, by simpa using hmem, hsum⟩

theorem allreduceTimeMs_perm {cs' : List (GroupKey × Share)} (h : cs.Perm cs')
    (hagree : ∀ c ∈ cs, ∀ c' ∈ cs, c.1 = c'.1 → c.2.totalMs = c'.2.totalMs) :
    allreduceTimeMs cs = allreduceTimeMs cs' := by
  let v : GroupKey → ℚ := fun k => ((cs.find? (·.1 = k)).map (·.2.totalMs)).getD 0
  have hv : ∀ c ∈ cs, c.2.totalMs = v c.1 := fun c hc => by
    have hsome : (cs.find? (·.1 = c.1)).isSome :=
      find?_isSome.mpr ⟨c, hc, decide_eq_true rfl⟩
    obtain ⟨c', hc'⟩ := Option.isSome_iff_exists.mp hsome
    have hkey : c'.1 = c.1 := by simpa using find?_some hc'
    simp only [v, hc', Option.map_some, Option.getD_some]
    exact hagree c hc c' (mem_of_find?_eq_some hc') hkey.symm
  obtain ⟨ks, hks, hmem, hsum⟩ := allreduceTimeMs_eq hv
  obtain ⟨ks', hks', hmem', hsum'⟩ := allreduceTimeMs_eq fun c hc => hv c (h.mem_iff.mpr hc)
  have hperm : ks.Perm ks' := (perm_ext_iff_of_nodup hks hks').mpr fun k => by
    simp only [hmem, hmem', h.mem_iff]
  rw [hsum, hsum', (hperm.map v).sum_eq]

end Collectives

/-! ## The result -/

section Result

variable {py : Python} {opts : Options} {trace : Option Trace} {events events' : List VTimeEvent}
  {entries entries' : List Entry} {shares : List Share × List (GroupKey × Share)}
  {manifest manifest' : Json}

theorem flatten_perm_of_forall₂ {α : Type} {ls ls' : List (List α)}
    (h : List.Forall₂ List.Perm ls ls') :
    ls.flatten.Perm ls'.flatten := by
  induction h with
  | nil => exact .refl _
  | cons hl _ ih => exact hl.append ih

/-- The shares are the same, in another order. -/
theorem sharesOf_perm (hentries : entries.Perm entries') (hevents : events.Perm events')
    (h : sharesOf py opts trace events entries = .ok shares) :
    ∃ shares', sharesOf py opts trace events' entries' = .ok shares' ∧
      shares.1.Perm shares'.1 ∧ shares.2.Perm shares'.2 := by
  have hlevels : (entries.map Entry.level).max? = (entries'.map Entry.level).max? :=
    max?_perm (hentries.map _)
  obtain ⟨keyed, hkeyed, h⟩ := bind_eq_ok.mp h
  obtain ⟨scaled, hscaled, h⟩ := bind_eq_ok.mp h
  obtain rfl := Except.ok.inj h
  obtain ⟨keyed', hkeyed', hkeyedPerm⟩ := mapM_perm (hentries.filter _) hkeyed
  obtain ⟨scaled₁, hscaled₁, hperm₁⟩ := mapM_perm hentries hscaled
  obtain ⟨scaled₂, hscaled₂, hperm₂⟩ :=
    mapM_rel (fun _ _ _ hok => scaledPhases_perm hevents hok) hscaled₁
  rw [hlevels] at hscaled₂
  have hflatten : scaled.flatten.Perm scaled₂.flatten :=
    hperm₁.flatten.trans (flatten_perm_of_forall₂ hperm₂)
  refine ⟨_, bind_eq_ok.mpr ⟨keyed', hkeyed', bind_eq_ok.mpr ⟨scaled₂, hscaled₂, rfl⟩⟩, ?_, ?_⟩
  · exact keyShares_perm hflatten _
  · exact collectives_perm hkeyedPerm

/-- The fields that give the time of a collective are the same. -/
structure Agree (py : Python) (opts : Options) (e e' : Entry) : Prop where
  dataBytes : entryDataBytes py opts.bytesPerElement e = entryDataBytes py opts.bytesPerElement e'
  groupSize : toInt py (explicitK e) 0 = toInt py (explicitK e') 0
  bandwidth : toFloat py (explicitBw e) 0 = toFloat py (explicitBw e') 0

/-- The entries of each group agree. -/
def GroupsAgree (py : Python) (opts : Options) (entries : List Entry) : Prop :=
  ∀ e ∈ entries, ∀ e' ∈ entries, IsAllreduce e.parallelismType → IsAllreduce e'.parallelismType →
    collectiveGroupKey e = collectiveGroupKey e' → Agree py opts e e'

theorem Agree.estimate {e e' : Entry} (h : Agree py opts e e') (group : List Int) :
    estimateAllreduceMs py opts e group = estimateAllreduceMs py opts e' group := by
  have hbw : groupBw py opts e group = groupBw py opts e' group := by
    simp only [groupBw, h.bandwidth]
  simp only [estimateAllreduceMs, h.groupSize, h.dataBytes, hbw]

/-- The times of a group are equal. -/
theorem sharesOf_agree (hgroups : GroupsAgree py opts entries)
    (h : sharesOf py opts trace events entries = .ok shares) :
    ∀ c ∈ shares.2, ∀ c' ∈ shares.2, c.1 = c'.1 → c.2.totalMs = c'.2.totalMs := by
  obtain ⟨keyed, hkeyed, h⟩ := bind_eq_ok.mp h
  obtain ⟨scaled, -, h⟩ := bind_eq_ok.mp h
  obtain rfl := Except.ok.inj h
  intro c hc c' hc' hkey
  obtain ⟨e, he, hek, -, -, htotal⟩ := mem_collectives hc
  obtain ⟨e', he', hek', -, -, htotal'⟩ := mem_collectives hc'
  obtain ⟨hmem, htype, hok⟩ := mem_collectiveEntries hkeyed he
  obtain ⟨hmem', htype', hok'⟩ := mem_collectiveEntries hkeyed he'
  have heq : e.1 = e'.1 := hek.trans (hkey.trans hek'.symm)
  have hagree := hgroups _ hmem _ hmem' htype htype' (by rw [hok, hok', heq])
  rw [htotal, htotal', hagree.estimate, heq]

/-- A result without the names of the slowest devices. -/
def unnamed (r : BatchRuntimeResult) : BatchRuntimeResult :=
  { r with
    perLevelBreakdown := r.perLevelBreakdown.map fun lv => { lv with bottleneckDevice := 0 } }

/-- The time of a device on a level. -/
def levelRuntimeMs (py : Python) (opts : Options) (trace : Option Trace) (events : List VTimeEvent)
    (manifest : Json) (level device : Int) : ℚ :=
  match sharesOf py opts trace events (entriesOf py manifest) with
  | .ok shares => time Share.level (shares.1 ++ shares.2.map Prod.snd) level device
  | .error _ => 0

theorem inferPipelineParams_perm (hentries : entries.Perm entries')
    (hmanifest : ∀ k ∈ ["pp_size", "num_microbatches", "optimizer_tail_ms"],
      manifestGet manifest k = manifestGet manifest' k) :
    inferPipelineParams py opts manifest entries = inferPipelineParams py opts manifest' entries' := by
  have hstages := (hentries.map Entry.stageId).dedup
  have hempty : (entries.map Entry.stageId).dedup.isEmpty =
      (entries'.map Entry.stageId).dedup.isEmpty := by
    rw [Bool.eq_iff_iff, isEmpty_iff_length_eq_zero, isEmpty_iff_length_eq_zero,
      hstages.length_eq]
  simp only [inferPipelineParams, hmanifest "pp_size" (by simp),
    hmanifest "num_microbatches" (by simp), hempty, hstages.length_eq]

theorem assemble_perm (hentries : entries.Perm entries')
    (hmanifest : ∀ k ∈ ["pp_size", "num_microbatches", "optimizer_tail_ms"],
      manifestGet manifest k = manifestGet manifest' k) {ks ks' : List Share} (hks : ks.Perm ks')
    {cs cs' : List (GroupKey × Share)} (hcs : cs.Perm cs')
    (hagree : ∀ c ∈ cs, ∀ c' ∈ cs, c.1 = c'.1 → c.2.totalMs = c'.2.totalMs) :
    unnamed (assemble py opts manifest entries ks cs) =
      unnamed (assemble py opts manifest' entries' ks' cs') := by
  have hshares : (ks ++ cs.map Prod.snd).Perm (ks' ++ cs'.map Prod.snd) :=
    hks.append (hcs.map _)
  have hpairs := perLevelBreakdown_perm Share.level hshares
  have htimes := congrArg (List.map Prod.snd) hpairs
  have hunnamed := congrArg (List.map fun p : Int × ℚ => (⟨p.1, p.2, 0⟩ : LevelTime)) hpairs
  simp only [map_map, Function.comp_def] at htimes hunnamed
  have htail : optimizerTailValMs py opts manifest = optimizerTailValMs py opts manifest' := by
    simp only [optimizerTailValMs, hmanifest "optimizer_tail_ms" (by simp)]
  simp only [unnamed, assemble, inferPipelineParams_perm hentries hmanifest, htail, htimes, hunnamed,
    bottleneckStageTimeMs_perm _ hshares, perDeviceBreakdown_perm hshares,
    allreduceTimeMs_perm hcs hagree, (hks.map Share.computeMs).sum_eq,
    (hks.map Share.networkMs).sum_eq]

end Result

/-- The order of the entries of a manifest and of the events of a log changes nothing in the result
but which of several devices that are equally slow is named. -/
theorem order_independent (py : Python) (opts : Options) (trace : Option Trace)
    (events events' : List VTimeEvent) (hevents : events.Perm events') (manifest manifest' : Json)
    (hentries : (entriesOf py manifest).Perm (entriesOf py manifest'))
    (hmanifest : ∀ k ∈ ["pp_size", "num_microbatches", "optimizer_tail_ms"],
      manifestGet manifest k = manifestGet manifest' k)
    (hgroups : GroupsAgree py opts (entriesOf py manifest)) (r : BatchRuntimeResult)
    (h : computeBatchRuntime py opts trace events manifest = .ok r) :
    ∃ r', computeBatchRuntime py opts trace events' manifest' = .ok r' ∧ unnamed r = unnamed r' ∧
      ∀ lv ∈ r.perLevelBreakdown, ∀ lv' ∈ r'.perLevelBreakdown, lv.level = lv'.level →
        levelRuntimeMs py opts trace events manifest lv.level lv.bottleneckDevice = lv.runtimeMs ∧
          levelRuntimeMs py opts trace events manifest lv.level lv'.bottleneckDevice =
            lv.runtimeMs := by
  obtain ⟨hne, hrun⟩ := computeBatchRuntime_eq_ok.mp h
  obtain ⟨shares, hok, rfl⟩ := map_eq_ok.mp hrun
  obtain ⟨shares', hok', hks, hcs⟩ := sharesOf_perm hentries hevents hok
  have hshares : (shares.1 ++ shares.2.map Prod.snd).Perm (shares'.1 ++ shares'.2.map Prod.snd) :=
    hks.append (hcs.map _)
  have hne' : entriesOf py manifest' ≠ [] := fun hnil => hne (hentries.trans (.of_eq hnil)).eq_nil
  refine ⟨_, computeBatchRuntime_eq_ok.mpr ⟨hne', map_eq_ok.mpr ⟨shares', hok', rfl⟩⟩,
    assemble_perm hentries hmanifest hks hcs (sharesOf_agree hgroups hok), ?_⟩
  intro lv hlv lv' hlv' hlevel
  have hmax := maxItem_perm (runtimes_perm Share.level hshares lv.level)
  rw [mem_perLevelBreakdown hlv, hlevel, mem_perLevelBreakdown hlv'] at hmax
  have hruntime : lv.runtimeMs = lv'.runtimeMs := Option.some.inj hmax
  simp only [levelRuntimeMs, hok]
  refine ⟨(runtimeMs_eq hlv).symm, ?_⟩
  rw [time_perm _ hshares, hruntime, hlevel]
  exact (runtimeMs_eq hlv').symm

section Example

/-- A device's part of one all-reduce between two devices. -/
def part (gemmId deviceId : Int) : Json :=
  .dict [("gemm_id", .int gemmId), ("level", .int 0), ("device_id", .int deviceId),
    ("parallelism_type", .str "dp_allreduce"), ("group_id", .int 7), ("data_bytes", .int 4000),
    ("bandwidth_bps", .int 1000000)]

/-- A product on one device. -/
def product (gemmId deviceId : Int) : Json :=
  .dict [("gemm_id", .int gemmId), ("level", .int 0), ("device_id", .int deviceId),
    ("parallelism_type", .str "cleave_tp")]

def oneGroup : Json := .list [part 1 0, part 2 1, product 3 0, product 4 1]

def oneGroupEvents : List VTimeEvent := [⟨3, .compute, 2000⟩, ⟨4, .compute, 2000⟩]

/-- The two devices are equally slow, and the first one is named. -/
def oneGroupResult : BatchRuntimeResult where
  baselineName := "cleave"
  totalRuntimeMs := 6
  computeTimeMs := 4
  networkTimeMs := 0
  pipelineBubbleMs := 0
  allreduceTimeMs := 4
  optimizerTailMs := 0
  perDeviceBreakdown := [(0, ⟨2, 4, 6⟩), (1, ⟨2, 4, 6⟩)]
  perLevelBreakdown := [⟨0, 6, 0⟩]

theorem oneGroup_agree : GroupsAgree plain { baselineType := "cleave" } (entriesOf plain oneGroup) := by
  have hfields : ∀ e ∈ entriesOf plain oneGroup, IsAllreduce e.parallelismType →
      entryDataBytes plain 2 e = 4000 ∧ toInt plain (explicitK e) 0 = 0 ∧
        toFloat plain (explicitBw e) 0 = 1000000 := by
    decide +kernel
  intro e he e' he' htype htype' _
  obtain ⟨hdata, hk, hbw⟩ := hfields e he htype
  obtain ⟨hdata', hk', hbw'⟩ := hfields e' he' htype'
  exact ⟨hdata.trans hdata'.symm, hk.trans hk'.symm, hbw.trans hbw'.symm⟩

theorem oneGroup_swapped :
    ∃ r', computeBatchRuntime plain { baselineType := "cleave" } none
        [⟨4, .compute, 2000⟩, ⟨3, .compute, 2000⟩]
        (.list [part 2 1, part 1 0, product 3 0, product 4 1]) = .ok r' ∧
      unnamed oneGroupResult = unnamed r' := by
  have h : computeBatchRuntime plain { baselineType := "cleave" } none oneGroupEvents oneGroup =
      .ok oneGroupResult := by decide +kernel
  obtain ⟨r', hr', hsame, -⟩ := order_independent plain _ none oneGroupEvents _ (.swap _ _ _)
    oneGroup (.list [part 2 1, part 1 0, product 3 0, product 4 1]) (.swap _ _ _)
    (fun _ _ => rfl) oneGroup_agree _ h
  exact ⟨r', hr', hsame⟩

end Example

end Morphling.BatchRuntime
