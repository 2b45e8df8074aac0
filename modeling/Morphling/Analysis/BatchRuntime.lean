import Morphling.Lib.Dict
import Morphling.Lib.Failing
import Mathlib.Algebra.Group.Prod
import Mathlib.Data.List.Sort
import Mathlib.Data.Rat.Floor

/-!
# The runtime of a batch (`compute_batch_runtime.py`)

A manifest lists the dispatches of a batch: which device computes which part of which GEMM, on which
level and in which stage. The script takes the durations of the phases from the VTIME log, or from the
device profiles where there is no log, adds them up per device, level and stage, adds the collectives,
and makes the time of the batch out of the slowest devices.

* `extractManifestEntries`, `normalizeEntry`: the manifest, with the conversions of the script. What
  Python does with texts is a parameter (`Python`).
* `phaseUsByKey`: the durations; `shares`: what each of them, and each collective, adds to the tables.
* `computeBatchRuntime`: the result; `idleFraction` is computed from it in
  `run_within_batch_experiment.py`.

Numbers are rational. The two lookup tables that the script builds and does not use are left out, and
so are the tables `stage_compute_ms` and `stage_network_ms`, which nothing reads.
-/

namespace Morphling.BatchRuntime

/-! ## The manifest -/

inductive Json where
  | null
  | bool (b : Bool)
  | int (n : Int)
  | float (q : ℚ)
  | str (s : String)
  | list (l : List Json)
  | dict (d : List (String × Json))

/-- What Python does with texts. `none` is a `ValueError`. -/
structure Python where
  intOfStr : String → Option Int
  floatOfStr : String → Option ℚ
  str : Json → String
  lower : String → String
  strip : String → String

/-- How a call can fail. -/
inductive Error where
  /-- "Manifest must be a dict or list" -/
  | notDictOrList
  /-- "Could not locate dispatch entries in manifest JSON" -/
  | notLocated
  /-- "Manifest has no dispatch entries" -/
  | noEntries
  /-- `TypeError`: a group id that is a list or a dictionary -/
  | unhashable
  /-- `IndexError`: a bin that a trace does not have -/
  | noBin
  deriving DecidableEq

/-- `d.get(k, default)` -/
def getD (d : List (String × Json)) (k : String) (default : Json) : Json := (d.lookup k).getD default

/-- `d.get(k)` -/
def get (d : List (String × Json)) (k : String) : Json := getD d k .null

/-- `int(q)` -/
def trunc (q : ℚ) : Int := q.num.tdiv q.den

variable (py : Python)

/-- `_to_int` -/
def toInt (value : Json) (default : Int) : Int :=
  match value with
  | .null => default
  | .int n => n
  | .bool b => if b then 1 else 0
  | .float q => trunc q
  | .str s => (py.intOfStr s).getD (((py.floatOfStr s).map trunc).getD default)
  | .list _ | .dict _ => default

/-- `_to_float` -/
def toFloat (value : Json) (default : ℚ) : ℚ :=
  match value with
  | .null => default
  | .int n => n
  | .bool b => if b then 1 else 0
  | .float q => q
  | .str s => (py.floatOfStr s).getD default
  | .list _ | .dict _ => default

/-- `_to_bool` -/
def toBool (value : Json) (default : Bool) : Bool :=
  match value with
  | .bool b => b
  | .null => default
  | .str s =>
    let lowered := py.lower (py.strip s)
    if lowered ∈ ["1", "true", "yes", "y"] then true
    else if lowered ∈ ["0", "false", "no", "n"] then false
    else s ≠ ""
  | .int n => n ≠ 0
  | .float q => q ≠ 0
  | .list l => !l.isEmpty
  | .dict d => !d.isEmpty

/-- `[x for x in l if isinstance(x, dict)]` -/
def dicts (l : List Json) : List (List (String × Json)) :=
  l.filterMap fun
    | .dict d => some d
    | _ => none

/-- The entries of the levels of a manifest, each with the level it stands in. -/
def levelEntries (levels : List Json) : List (List (String × Json)) :=
  (dicts levels).flatMap fun levelItem =>
    let level := get levelItem "level"
    match getD levelItem "entries" (.list []) with
    | .list entries => (dicts entries).map fun raw =>
        -- `setdefault`
        if (raw.lookup "level").isSome then raw else raw ++ [("level", level)]
    | _ => []

/-- `_extract_manifest_entries` -/
def extractManifestEntries (manifest : Json) : Except Error (List (List (String × Json))) :=
  match manifest with
  | .list l => .ok (dicts l)
  | .dict d =>
    let listKeys := ["entries", "dispatch_entries", "dispatches", "sequence", "items"]
    let listed := listKeys.findSome? fun key =>
      match get d key with
      | .list l => some (dicts l)
      | _ => none
    let ofLevels := match get d "levels" with
      | .list levels => levelEntries levels
      | _ => []
    let valueDicts := dicts (d.map Prod.snd)
    match listed with
    | some entries => .ok entries
    | none =>
      if !ofLevels.isEmpty then .ok ofLevels
      else if !valueDicts.isEmpty && valueDicts.all fun v => (v.lookup "gemm_id").isSome then
        .ok valueDicts
      else .error .notLocated
  | _ => .error .notDictOrList

structure Entry where
  gemmId : Int
  level : Int
  deviceId : Int
  alpha : ℚ
  beta : ℚ
  n : ℚ
  mTotal : ℚ
  qTotal : ℚ
  isLocal : Bool
  stageId : Int
  parallelismType : String
  raw : List (String × Json)

/-- `_normalize_entry` -/
def normalizeEntry (raw : List (String × Json)) : Entry where
  gemmId := toInt py (get raw "gemm_id") (-1)
  level := toInt py (get raw "level") 0
  deviceId := toInt py (get raw "device_id") (-1)
  alpha := toFloat py (get raw "alpha") 0
  beta := toFloat py (get raw "beta") 0
  n := toFloat py (get raw "n") 0
  mTotal := toFloat py (get raw "m_total") 0
  qTotal := toFloat py (get raw "q_total") 0
  isLocal := toBool py (get raw "is_local") false
  stageId := toInt py (get raw "stage_id") 0
  parallelismType := py.lower (py.str (getD raw "parallelism_type" (getD raw "type" (.str ""))))
  raw

/-! ## Collectives -/

/-- The fields of a device profile; those that are missing are zero. -/
structure Profile where
  flops : ℚ := 0
  ulBw : ℚ := 0
  dlBw : ℚ := 0
  ulLat : ℚ := 0
  dlLat : ℚ := 0

def IsAllreduce (ptype : String) : Prop := ptype = "dp_allreduce" ∨ ptype = "tp_allreduce"

instance (ptype : String) : Decidable (IsAllreduce ptype) := inferInstanceAs (Decidable (_ ∨ _))

/-- `_entry_data_bytes` -/
def entryDataBytes (bytesPerElement : ℚ) (entry : Entry) : ℚ :=
  let explicit := ["data_bytes", "gradient_bytes", "bytes"].findSome? fun k =>
    let candidate := toFloat py (get entry.raw k) 0
    if candidate > 0 then some candidate else none
  let alpha := max entry.alpha 0
  let beta := max entry.beta 0
  let mTotal := max entry.mTotal 0
  let qTotal := max entry.qTotal 0
  match explicit with
  | some candidate => candidate
  | none =>
    if alpha > 0 ∧ beta > 0 then alpha * beta * bytesPerElement
    else if mTotal > 0 ∧ qTotal > 0 then mTotal * qTotal * bytesPerElement
    else 0

/-- A group id as a key of a dictionary, where `1`, `1.0` and `True` are the same. -/
inductive GroupId where
  | none
  | num (q : ℚ)
  | str (s : String)
  deriving DecidableEq

structure GroupKey where
  ptype : String
  level : Int
  stageId : Int
  groupId : GroupId
  deriving DecidableEq

def groupId : Json → Except Error GroupId
  | .null => .ok .none
  | .bool b => .ok (.num (if b then 1 else 0))
  | .int n => .ok (.num n)
  | .float q => .ok (.num q)
  | .str s => .ok (.str s)
  | .list _ | .dict _ => .error .unhashable

/-- `v if v is not None else w` -/
def orElse (v w : Json) : Json :=
  match v with
  | .null => w
  | v => v

/-- `_collective_group_key`, with its hash. -/
def collectiveGroupKey (entry : Entry) : Except Error GroupKey :=
  (groupId (orElse (get entry.raw "group_id")
    (orElse (get entry.raw "dp_group_id") (get entry.raw "tp_group_id")))).map fun id =>
      ⟨entry.parallelismType, entry.level, entry.stageId, id⟩

/-- The entries of collectives, with the keys of their groups. -/
def collectiveEntries (entries : List Entry) : Except Error (List (GroupKey × Entry)) :=
  (entries.filter fun e => IsAllreduce e.parallelismType).mapM fun e =>
    (collectiveGroupKey e).map fun key => (key, e)

/-- `_build_collective_groups` -/
def buildCollectiveGroups (keyed : List (GroupKey × Entry)) : List (GroupKey × List Int) :=
  Dict.group Prod.fst (fun e o => (o.getD []).insert e.2.deviceId) [] keyed

/-- The size of a group that an entry gives. -/
def explicitK (entry : Entry) : Json :=
  let k := get entry.raw "group_size"
  let k := if entry.parallelismType = "dp_allreduce" then orElse k (get entry.raw "dp_size") else k
  if entry.parallelismType = "tp_allreduce" then orElse k (get entry.raw "tp_size") else k

/-- The bandwidth that an entry gives. -/
def explicitBw (entry : Entry) : Json :=
  getD entry.raw "min_bandwidth_bps" (get entry.raw "bandwidth_bps")

/-- The options of `compute_batch_runtime`. -/
structure Options where
  baselineType : String
  ppSize : Option Int := none
  numMicrobatches : Option Int := none
  optimizerTailMs : Option ℚ := none
  deviceProfiles : Int → Option Profile := fun _ => none
  bytesPerElement : ℚ := 2
  allreduceBandwidthBps : Option ℚ := none

variable (opts : Options)

/-- The bandwidth of a group: the one that is given, or the smallest one of its devices. -/
def groupBw (entry : Entry) (entriesInGroup : List Int) : Option ℚ :=
  let explicit := toFloat py (explicitBw entry) 0
  let profileBws := entriesInGroup.filterMap fun d =>
    (opts.deviceProfiles d).bind fun profile =>
      if profile.ulBw > 0 ∧ profile.dlBw > 0 then some (min profile.ulBw profile.dlBw) else none
  if explicit > 0 then some explicit
  else match opts.allreduceBandwidthBps.filter (· > 0) with
    | some bw => some bw
    | none => profileBws.min?

/-- `_estimate_allreduce_ms` -/
def estimateAllreduceMs (entry : Entry) (entriesInGroup : List Int) : ℚ :=
  let explicit := toInt py (explicitK entry) 0
  let k : Int := if explicit ≤ 0 then entriesInGroup.length else explicit
  let dataBytes := entryDataBytes py opts.bytesPerElement entry
  if k ≤ 1 then 0
  else if dataBytes ≤ 0 then 0
  else match groupBw py opts entry entriesInGroup with
    | none => 0
    | some bw =>
      if bw ≤ 0 then 0
      else
        let sec := 2 * (k - 1) / k * dataBytes / bw
        sec * 1000

/-! ## Durations -/

inductive Phase where
  | send
  | download
  | compute
  | upload
  | receive
  deriving DecidableEq

/-- `PHASES` -/
def phases : List Phase := [.send, .download, .compute, .upload, .receive]

/-- `_compute_analytical_phase_us` -/
def computeAnalyticalPhaseUs (entry : Entry) : Phase → ℚ :=
  let profile := (opts.deviceProfiles entry.deviceId).getD {}
  let alpha := max entry.alpha 0
  let beta := max entry.beta 0
  let n := max entry.n 0
  let computeS :=
    if profile.flops > 0 ∧ alpha > 0 ∧ beta > 0 ∧ n > 0 then 2 * alpha * beta * n / profile.flops
    else 0
  let downloadS :=
    if profile.dlBw > 0 ∧ alpha > 0 ∧ beta > 0 ∧ n > 0 then
      (alpha * n * opts.bytesPerElement + n * beta * opts.bytesPerElement) / profile.dlBw
        + profile.dlLat
    else 0
  let uploadS :=
    if profile.ulBw > 0 ∧ alpha > 0 ∧ beta > 0 then
      alpha * beta * opts.bytesPerElement / profile.ulBw + profile.ulLat
    else 0
  fun
  | .send => 0
  | .download => downloadS * 1000000
  | .compute => computeS * 1000000
  | .upload => uploadS * 1000000
  | .receive => 0

/-- What a within-batch trace has about a device, per bin. -/
structure DeviceTrace where
  flopsMult : List ℚ := []
  ulBwMult : List ℚ := []
  dlBwMult : List ℚ := []

structure Trace where
  devices : List (Int × DeviceTrace) := []
  numBins : Int := 1

/-- `arr[b]`, where a negative index counts from the end. -/
def index (arr : List ℚ) (b : Int) : Except Error ℚ :=
  let i := if b < 0 then b + arr.length else b
  if i < 0 then .error .noBin
  else match arr[i.toNat]? with
    | some v => .ok v
    | none => .error .noBin

/-- `_at` -/
def multiplierAt (b : Int) (arr : List ℚ) : Except Error ℚ :=
  match arr.getLast? with
  | none => .ok 1
  | some last =>
    (if b < arr.length then index arr b else .ok last).map fun v =>
      if v > 1 / 1000000 then v else 1 / 1000000

/-- `flops_mult`, `ul_bw_mult`, `dl_bw_mult` -/
structure Multipliers where
  fm : ℚ
  um : ℚ
  dm : ℚ

/-- `_within_batch_multiplier` -/
def withinBatchMultiplier (trace : Option Trace) (deviceId level numLevels : Int) :
    Except Error Multipliers :=
  match trace.bind fun t => (t.devices.lookup deviceId).map fun dev => (t, dev) with
  | none => .ok ⟨1, 1, 1⟩
  | some (t, dev) => do
    let numBins := if t.numBins = 0 then 1 else t.numBins
    let frac : ℚ :=
      if numLevels ≤ 1 then 0 else min (999999 / 1000000) (max 0 (level / numLevels))
    let b := min (numBins - 1) (trunc (frac * numBins))
    let fm ← multiplierAt b dev.flopsMult
    let um ← multiplierAt b dev.ulBwMult
    let dm ← multiplierAt b dev.dlBwMult
    pure ⟨fm, um, dm⟩

/-- `_scale_phase` -/
def scalePhase (phase : Phase) (durUs : ℚ) (mult : Multipliers) : ℚ :=
  match phase with
  | .compute => durUs / mult.fm
  | .download => durUs / mult.dm
  | .upload => durUs / mult.um
  | .send | .receive => durUs

/-- A record of the VTIME log that marks the end of a phase. -/
structure VTimeEvent where
  gemmId : Int
  phase : Phase
  vtDurationUs : Int
  deriving DecidableEq

/-- `vtime_phases` -/
def vtimePhases (events : List VTimeEvent) : List (Int × List (Phase × Int)) :=
  Dict.group₂ VTimeEvent.gemmId VTimeEvent.phase
    (fun ev o => o.getD 0 + max ev.vtDurationUs 0) [] events

structure Key where
  level : Int
  deviceId : Int
  gemmId : Int
  ptype : String
  stageId : Int
  isLocal : Bool
  deriving DecidableEq

def Entry.key (entry : Entry) : Key :=
  ⟨entry.level, entry.deviceId, entry.gemmId, entry.parallelismType, entry.stageId, entry.isLocal⟩

/-- The phases of an entry: those that the log has for its GEMM, or all five of the profile. -/
def entryPhases (events : List VTimeEvent) (entry : Entry) : List (Phase × ℚ) :=
  if events.isEmpty then
    phases.map fun phase => (phase, max (computeAnalyticalPhaseUs opts entry phase) 0)
  else
    (((vtimePhases events).lookup entry.gemmId).getD []).map fun e => (e.1, (e.2 : ℚ))

/-- What an entry adds to `phase_us_by_key`. -/
def scaledPhases (trace : Option Trace) (numLevels : Int) (events : List VTimeEvent)
    (entry : Entry) : Except Error (List (Key × Phase × ℚ)) :=
  match entryPhases opts events entry with
  | [] => .ok []
  | phases =>
    (withinBatchMultiplier trace entry.deviceId entry.level numLevels).map fun mult =>
      phases.map fun e => (entry.key, e.1, scalePhase e.1 e.2 mult)

/-- `phase_us_by_key` -/
def phaseUsByKey (scaled : List (Key × Phase × ℚ)) : List (Key × List (Phase × ℚ)) :=
  Dict.group₂ Prod.fst (fun c => c.2.1) (fun c o => o.getD 0 + c.2.2) [] scaled

/-! ## The tables -/

/-- What is added for a device, on a level and in a stage. -/
structure Share where
  level : Int
  deviceId : Int
  stageId : Int
  computeMs : ℚ
  networkMs : ℚ
  totalMs : ℚ

/-- The body of the loop over `phase_us_by_key`. -/
def keyShare (baseline : String) (key : Key) (phaseUs : Phase → ℚ) : Option Share :=
  let sendMs := phaseUs .send / 1000
  let dlMs := phaseUs .download / 1000
  let compMs := phaseUs .compute / 1000
  let ulMs := phaseUs .upload / 1000
  let recvMs := phaseUs .receive / 1000
  let xferMs := sendMs + dlMs + ulMs + recvMs
  if baseline = "cleave" then
    if key.ptype ≠ "cleave_tp" then none
    else
      let effectiveMs := max (max dlMs compMs) ulMs + sendMs + recvMs
      some ⟨key.level, key.deviceId, key.stageId, compMs, xferMs, effectiveMs⟩
  else
    let included : ℚ × ℚ :=
      if key.ptype = "pp_local" then (compMs, xferMs)
      else if key.ptype = "pp_boundary" then (0, compMs + xferMs)
      else (0, 0)
    some ⟨key.level, key.deviceId, key.stageId, included.1, included.2, included.1 + included.2⟩

def keyShares (baseline : String) (phaseUs : List (Key × List (Phase × ℚ))) : List Share :=
  phaseUs.filterMap fun e => keyShare baseline e.1 fun phase => (e.2.lookup phase).getD 0

/-- The body of the loop over the collectives. -/
def collectiveShare (groupDevices : List Int) (entry : Entry) : Option Share :=
  let arMs := estimateAllreduceMs py opts entry groupDevices
  if arMs ≤ 0 then none
  else some ⟨entry.level, entry.deviceId, entry.stageId, 0, arMs, arMs⟩

/-- The collectives that take time, with the keys of their groups. -/
def collectives (keyed : List (GroupKey × Entry)) : List (GroupKey × Share) :=
  let groups := buildCollectiveGroups keyed
  keyed.filterMap fun e =>
    (collectiveShare py opts ((groups.lookup e.1).getD []) e.2).map fun s => (e.1, s)

/-- `allreduce_time_ms`: each group counts once, with the first time that is seen. -/
def allreduceTimeMs (collectives : List (GroupKey × Share)) : ℚ :=
  (collectives.foldl (fun (seen, total) c =>
    if c.1 ∈ seen then (seen, total) else (c.1 :: seen, total + c.2.totalMs)) ([], 0)).2

structure DeviceTimes where
  computeMs : ℚ
  networkMs : ℚ
  totalMs : ℚ
  deriving DecidableEq

/-- `per_device_breakdown` -/
def perDevice (shares : List Share) : List (Int × ℚ × ℚ × ℚ) :=
  Dict.tally Share.deviceId (fun s => (s.computeMs, s.networkMs, s.totalMs)) [] shares

/-- `level_device_runtime_ms` and `stage_device_runtime_ms` -/
def runtimes (place : Share → Int) (shares : List Share) : List (Int × List (Int × ℚ)) :=
  Dict.group₂ place Share.deviceId (fun s o => o.getD 0 + s.totalMs) [] shares

/-- `max(items, key=lambda kv: kv[1])`: the first of the largest ones. -/
def maxItem : List (Int × ℚ) → Option (Int × ℚ)
  | [] => none
  | x :: xs => some (xs.foldl (fun best y => if best.2 < y.2 then y else best) x)

structure LevelTime where
  level : Int
  runtimeMs : ℚ
  bottleneckDevice : Int
  deriving DecidableEq

/-- `per_level_breakdown` -/
def perLevelBreakdown (levels : List (Int × List (Int × ℚ))) : List LevelTime :=
  ((Dict.keys levels).insertionSort (· ≤ ·)).filterMap fun level =>
    (maxItem ((levels.lookup level).getD [])).map fun (device, runtime) => ⟨level, runtime, device⟩

/-- The time of the slowest device of the slowest stage. -/
def bottleneckStageTimeMs (stages : List (Int × List (Int × ℚ))) : ℚ :=
  ((stages.filterMap fun e => (e.2.map Prod.snd).max?).max?).getD 0

def perDeviceBreakdown (devices : List (Int × ℚ × ℚ × ℚ)) : List (Int × DeviceTimes) :=
  ((Dict.keys devices).insertionSort (· ≤ ·)).filterMap fun d =>
    (devices.lookup d).map fun v => (d, ⟨v.1, v.2.1, v.2.2⟩)

/-! ## The result -/

/-- What `compute_batch_runtime` reads of the manifest besides its entries. -/
def manifestGet (manifest : Json) (k : String) : Json :=
  match manifest with
  | .dict d => get d k
  | _ => .null

/-- `_infer_pipeline_params` -/
def inferPipelineParams (manifest : Json) (entries : List Entry) : Int × Int :=
  let ppSize := opts.ppSize.getD (toInt py (manifestGet manifest "pp_size") 0)
  let numMicrobatches :=
    opts.numMicrobatches.getD (toInt py (manifestGet manifest "num_microbatches") 0)
  let stages := (entries.map Entry.stageId).dedup
  (if ppSize ≤ 0 then (if stages.isEmpty then 1 else stages.length) else ppSize,
    if numMicrobatches ≤ 0 then 1 else numMicrobatches)

/-- `_baseline_uses_pipeline_overlay` -/
def baselineUsesPipelineOverlay (baseline : String) (ppSize : Int) : Prop :=
  let b := py.lower baseline
  b ≠ "cleave" ∧
    ("pp".toList <:+: b.toList ∨ b ∈ ["dtfm", "asteroid", "confident", "alpa"] ∨ ppSize > 1)

instance (baseline : String) (ppSize : Int) :
    Decidable (baselineUsesPipelineOverlay py baseline ppSize) :=
  inferInstanceAs (Decidable (_ ∧ _))

/-- The optimizer tail that is used. -/
def optimizerTailValMs (manifest : Json) : ℚ :=
  match opts.optimizerTailMs with
  | none => toFloat py (manifestGet manifest "optimizer_tail_ms") 0
  | some tail => max tail 0

structure BatchRuntimeResult where
  baselineName : String
  totalRuntimeMs : ℚ
  computeTimeMs : ℚ
  networkTimeMs : ℚ
  pipelineBubbleMs : ℚ
  allreduceTimeMs : ℚ
  optimizerTailMs : ℚ
  perDeviceBreakdown : List (Int × DeviceTimes)
  perLevelBreakdown : List LevelTime
  deriving DecidableEq

/-- The result, from the shares of the keys and of the collectives. -/
def assemble (manifest : Json) (entries : List Entry) (keyShares : List Share)
    (collectives : List (GroupKey × Share)) : BatchRuntimeResult :=
  let baseline := py.lower opts.baselineType
  let shares := keyShares ++ collectives.map Prod.snd
  let levels := perLevelBreakdown (runtimes Share.level shares)
  let levelSum := (levels.map LevelTime.runtimeMs).sum
  let tail := optimizerTailValMs py opts manifest
  let (ppSize, numMicrobatches) := inferPipelineParams py opts manifest entries
  let bottleneck := bottleneckStageTimeMs (runtimes Share.stageId shares)
  let overlay := baseline ≠ "cleave" ∧ baselineUsesPipelineOverlay py baseline ppSize
  let bubble : ℚ := if overlay then (max (ppSize - 1) 0 : Int) * bottleneck else 0
  { baselineName := baseline
    totalRuntimeMs :=
      if baseline = "cleave" then levelSum + tail
      else if overlay then numMicrobatches * bottleneck + bubble
      else levelSum
    computeTimeMs := (keyShares.map Share.computeMs).sum
    networkTimeMs := (keyShares.map Share.networkMs).sum
    pipelineBubbleMs := bubble
    allreduceTimeMs := allreduceTimeMs collectives
    optimizerTailMs := if baseline = "cleave" then tail else 0
    perDeviceBreakdown := perDeviceBreakdown (perDevice shares)
    perLevelBreakdown := levels }

/-- The shares of the keys and of the collectives. -/
def sharesOf (trace : Option Trace) (events : List VTimeEvent) (entries : List Entry) :
    Except Error (List Share × List (GroupKey × Share)) := do
  let numLevels := ((entries.map Entry.level).max?).getD 0 + 1
  let keyed ← collectiveEntries entries
  let scaled ← entries.mapM (scaledPhases opts trace numLevels events)
  pure (keyShares (py.lower opts.baselineType) (phaseUsByKey scaled.flatten),
    collectives py opts keyed)

/-- The result for the entries of a manifest. -/
def runtimeOf (trace : Option Trace) (events : List VTimeEvent) (manifest : Json)
    (entries : List Entry) : Except Error BatchRuntimeResult :=
  (sharesOf py opts trace events entries).map fun s => assemble py opts manifest entries s.1 s.2

/-- `compute_batch_runtime` -/
def computeBatchRuntime (trace : Option Trace) (events : List VTimeEvent) (manifest : Json) :
    Except Error BatchRuntimeResult := do
  let rawEntries ← extractManifestEntries manifest
  let entries := rawEntries.map (normalizeEntry py)
  if entries.isEmpty then .error .noEntries
  else runtimeOf py opts trace events manifest entries

/-- The entries of a manifest, none where there is no result. -/
def entriesOf (manifest : Json) : List Entry :=
  match extractManifestEntries manifest with
  | .ok rawEntries => rawEntries.map (normalizeEntry py)
  | .error _ => []

/-- `_idle_fraction` -/
def idleFraction (result : BatchRuntimeResult) (numDevices : Nat) : ℚ :=
  let provisioned := numDevices * result.totalRuntimeMs
  let busy := (result.perDeviceBreakdown.map fun e => e.2.totalMs).sum
  if provisioned ≤ 0 then 0 else max 0 (1 - busy / provisioned)

variable {py opts}

theorem computeBatchRuntime_eq_ok {trace : Option Trace} {events : List VTimeEvent}
    {manifest : Json} {r : BatchRuntimeResult} :
    computeBatchRuntime py opts trace events manifest = .ok r ↔
      entriesOf py manifest ≠ [] ∧
        runtimeOf py opts trace events manifest (entriesOf py manifest) = .ok r := by
  rw [computeBatchRuntime, entriesOf]
  cases extractManifestEntries manifest with
  | error e => simp [bind, Except.bind]
  | ok rawEntries =>
    simp only [bind, Except.bind]
    split
    · rename_i hempty
      simp [List.isEmpty_iff.mp hempty]
    · rename_i hempty
      simp only [ne_eq, List.isEmpty_iff.not.mp hempty, not_false_eq_true, true_and]

end Morphling.BatchRuntime
