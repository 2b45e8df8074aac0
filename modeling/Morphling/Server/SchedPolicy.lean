import Mathlib.Data.Int.CardIntervalMod
import Morphling.Lib.Balance
import Morphling.Lib.Run
import Morphling.Session.Session
import Morphling.Tracker.Partition

/-!
# Scheduling policies (`sched_policy.cpp`)

A policy gives each partition to a connected device: at dispatch among the devices that are not
excluded, at redistribution among all.

* `LoadBalanced.redistributePartitions`: each partition to the device with the least load.
  `redistribution_optimal`: no assignment has a lower maximum load.
* `assignPartitionsToDevices`: of the three policies. An access beyond the eligible devices or the
  blocks of a partition, and a division by zero, have no result.
* `assign_iff`: over any sequence of calls on one object, the assignments name eligible devices as
  long as the cursor of the round robin is within the eligible devices of the call, and the greedy
  policy gets no partition with `h_dim = 0`.

`float` is any type with the operations of `Double`. The tracker does not change during a call.
-/

namespace Morphling.SchedPolicy

open Balance List Function Double

/-! ## Redistribution by load -/

namespace LoadBalanced

variable {K : Type*} [DecidableEq K]

/-- The variables of the loop, and the partitions it has written their owner to. -/
structure Redistribution (K : Type*) where
  redistribution : K → Option Int := fun _ => none
  currentLoads : Int → Nat
  partitions : List (PartitionInfo K) := []

/-- One partition; `first :: rest` are the connected devices. -/
def redistributeOne (first : Int) (rest : List Int) (r : Redistribution K) (part : PartitionInfo K) :
    Redistribution K :=
  let bestDevice := leastLoaded r.currentLoads first rest
  { redistribution := update r.redistribution part.key (some bestDevice)
    currentLoads := update r.currentLoads bestDevice (r.currentLoads bestDevice + 1)
    partitions := r.partitions ++ [{ part with ownerDeviceId := bestDevice }] }

/-- `RedistributePartitions`; `count` is `GetDevicePartitionCount`. -/
def redistributePartitions (connectedDevices : List Int) (count : Int → Nat)
    (partitions : List (PartitionInfo K)) : Redistribution K :=
  match connectedDevices with
  | [] => { currentLoads := count, partitions }
  | first :: rest => partitions.foldl (redistributeOne first rest) { currentLoads := count }

/-- The partitions that an assignment gives to `device`. -/
def received (assignment : K → Option Int) (partitions : List (PartitionInfo K)) (device : Int) :
    Nat :=
  partitions.countP (assignment ·.key = some device)

/-- The load of a device: what it had and what it gets. -/
def load (count : Int → Nat) (assignment : K → Option Int) (partitions : List (PartitionInfo K))
    (device : Int) : Nat :=
  count device + received assignment partitions device

section Loop

variable {first : Int} {rest : List Int} {r : Redistribution K} {partitions : List (PartitionInfo K)}

/-- What the loop did to a list of partitions. -/
structure Loop (devices : List Int) (r : Redistribution K) (partitions : List (PartitionInfo K))
    (r' : Redistribution K) : Prop where
  other : ∀ k, k ∉ partitions.map (·.key) → r'.redistribution k = r.redistribution k
  mem : ∀ part ∈ partitions, ∃ d ∈ devices, r'.redistribution part.key = some d
  owner : r'.partitions = r.partitions ++ partitions.map fun part =>
    { part with ownerDeviceId := (r'.redistribution part.key).getD part.ownerDeviceId }
  loads : ∀ d, r'.currentLoads d = r.currentLoads d + received r'.redistribution partitions d
  balanced : ∀ init, Balanced devices init r.currentLoads → Balanced devices init r'.currentLoads

theorem loop_redistribute (hkeys : (partitions.map (·.key)).Nodup) :
    Loop (first :: rest) r partitions (partitions.foldl (redistributeOne first rest) r) := by
  induction partitions generalizing r with
  | nil => exact ⟨fun _ _ => rfl, by simp, by simp, fun _ => rfl, fun _ => id⟩
  | cons part partitions ih =>
    rw [map_cons, nodup_cons] at hkeys
    obtain ⟨hkey, hkeys⟩ := hkeys
    rw [foldl_cons]
    have hloop := ih (r := redistributeOne first rest r part) hkeys
    generalize partitions.foldl (redistributeOne first rest) (redistributeOne first rest r part) =
      r' at hloop
    -- the key does not come again, so its entry stays
    have hsome : r'.redistribution part.key = some (leastLoaded r.currentLoads first rest) := by
      rw [hloop.other _ hkey]
      exact update_self ..
    refine ⟨fun k hk => ?_, ?_, ?_, fun d => ?_, fun init hinit => ?_⟩
    · rw [map_cons, mem_cons, not_or] at hk
      rw [hloop.other k hk.2]
      exact update_of_ne hk.1 ..
    · exact forall_mem_cons.mpr ⟨⟨_, leastLoaded_mem, hsome⟩, hloop.mem⟩
    · rw [hloop.owner, map_cons, hsome]
      simp [redistributeOne]
    · rw [hloop.loads, received, received, countP_cons, hsome]
      simp only [redistributeOne, update_apply, Option.some.injEq, decide_eq_true_eq]
      by_cases hd : d = leastLoaded r.currentLoads first rest
      · subst hd
        simp only [if_true]
        omega
      · rw [if_neg hd, if_neg (Ne.symm hd)]
        omega
    · exact hloop.balanced init (hinit.add leastLoaded_le)

end Loop

omit [DecidableEq K] in
/-- All partitions are in the loads. -/
theorem sum_load {devices : List Int} (hids : devices.Nodup) (count : Int → Nat)
    {assignment : K → Option Int} {partitions : List (PartitionInfo K)}
    (h : ∀ part ∈ partitions, ∃ d ∈ devices, assignment part.key = some d) :
    (devices.map (load count assignment partitions)).sum =
      (devices.map count).sum + partitions.length := by
  have hreceived : ∀ d, received assignment partitions d =
      partitions.countP fun part => (assignment part.key).getD 0 = d := fun d => by
    refine countP_congr fun part hpart => ?_
    obtain ⟨d', -, hd'⟩ := h part hpart
    simp [hd']
  have hmem : ∀ part ∈ partitions, (assignment part.key).getD 0 ∈ devices := fun part hpart => by
    obtain ⟨d, hd, hsome⟩ := h part hpart
    rwa [hsome]
  rw [← sum_countP hids hmem, ← sum_map_add]
  exact congrArg List.sum (map_congr_left fun d _ => by rw [load, hreceived])

/-- **Redistribution by load is optimal**: every key goes to a connected device, no assignment has a
lower maximum load, and a device that got a partition has at most one more than any other. -/
theorem redistribution_optimal {connectedDevices : List Int} (hne : connectedDevices ≠ [])
    (hids : connectedDevices.Nodup) (count : Int → Nat) {partitions : List (PartitionInfo K)}
    (hkeys : (partitions.map (·.key)).Nodup) :
    let r := redistributePartitions connectedDevices count partitions
    (∀ part ∈ partitions, ∃ d ∈ connectedDevices, r.redistribution part.key = some d) ∧
    (∀ k, k ∉ partitions.map (·.key) → r.redistribution k = none) ∧
    (∀ other : K → Int, (∀ part ∈ partitions, other part.key ∈ connectedDevices) →
      maxLoad connectedDevices (load count r.redistribution partitions) ≤
        maxLoad connectedDevices (load count (fun k => some (other k)) partitions)) ∧
    ∀ d ∈ connectedDevices, 0 < received r.redistribution partitions d → ∀ e ∈ connectedDevices,
      load count r.redistribution partitions d ≤ load count r.redistribution partitions e + 1 := by
  intro r
  obtain ⟨first, rest, rfl⟩ := exists_cons_of_ne_nil hne
  have hloop : Loop (first :: rest) { currentLoads := count } partitions r := loop_redistribute hkeys
  have hloads : r.currentLoads = load count r.redistribution partitions := funext hloop.loads
  have hbalanced := hloop.balanced count .refl
  rw [hloads] at hbalanced
  refine ⟨hloop.mem, hloop.other, fun other hother => ?_, fun d hd hgot e he => ?_⟩
  · refine hbalanced.maxLoad_le (fun d _ => Nat.le_add_right _ _) ?_
    rw [sum_load hids count hloop.mem, sum_load hids count fun part hpart =>
      ⟨other part.key, hother part hpart, rfl⟩]
  · refine hbalanced.near d hd ?_ e he
    rw [load]
    omega

/-- Three partitions. -/
def samplePartitions : List (PartitionInfo Nat) := [1, 2, 3].map fun k =>
  { key := k, oid := 0, ownerDeviceId := 0
    partition := { version := 0, row := 0, col := k, pivot := 0, hDim := 1, mat := [] } }

/-- Two devices that have two partitions and none get three more. -/
theorem samplePartitions_optimal :
    maxLoad [7, 4] (load (fun d => if d = 7 then 2 else 0)
      (redistributePartitions [7, 4] (fun d => if d = 7 then 2 else 0)
        samplePartitions).redistribution samplePartitions) ≤ 3 :=
  ((redistribution_optimal (by decide) (by decide) _ (by decide)).2.2.1
    (fun k => if k = 1 then 7 else 4) (by decide)).trans (by decide)

end LoadBalanced

/-! ## Assignment -/

/-- What a call of `AssignPartitionsToDevices` gets, and what the trackers say at that time. -/
structure Call where
  partitions : List (MatrixPartition DataPtr)
  excludedDevices : List Int := []
  connectedDevices : List Int
  /-- `GetDevicePartitionCount`. -/
  count : Int → Nat := fun _ => 0
  /-- The ids are the keys of `devices_map_`. -/
  nodup : connectedDevices.Nodup

/-- `eligible_devices`. -/
def Call.eligibleDevices (call : Call) : List Int :=
  call.connectedDevices.filter (· ∉ call.excludedDevices)

/-- `TensorKey`: version, pivot, row or column, and which of the two. -/
abbrev TensorKey := Nat × Nat × Nat × Bool

section Keys
variable (partition : MatrixPartition DataPtr)

def rowKey : TensorKey := (partition.version, partition.pivot, partition.row, true)

def colKey : TensorKey := (partition.version, partition.pivot, partition.col, false)

end Keys

/-- The loop of the round robin: the assignments, and the cursor after them. -/
def roundRobin (eligibleDevices : List Int) :
    Nat → List (MatrixPartition DataPtr) → Option (List Int × Nat)
  | nextDeviceIdx, [] => some ([], nextDeviceIdx)
  | nextDeviceIdx, _ :: partitions =>
    match eligibleDevices[nextDeviceIdx]? with
    | none => none
    | some deviceId =>
      (roundRobin eligibleDevices ((nextDeviceIdx + 1) % eligibleDevices.length) partitions).map
        fun r => (deviceId :: r.1, r.2)

section Greedy

variable {F : Type*} [Double F] (fltMax : F)

/-- The time of a partition on a device, without what the device has to do before. -/
def partitionTime (rSize cSize hDim : Nat) (rCached cCached : Bool) : F :=
  let cachedRSize := if rCached then 0 else rSize
  let cachedCSize := if cCached then 0 else cSize
  let numRows := rSize / hDim / 4
  let numCols := cSize / hDim / 4
  let mb : F := ofNat 1048576
  let tb : F := ofNat 1099511627776
  let ulTime := ofNat (numRows * numCols) * ofNat 4 / mb
  let dlTime := ofNat (cachedRSize + cachedCSize) / mb
  let flops :=
    ofNat 2 * ofNat numRows * ofNat numCols * ofNat hDim / tb
  max (max ulTime dlTime) flops

/-- `device_time` and the tensors of the devices. -/
structure GreedyState (F : Type*) where
  deviceTime : List F
  deviceTensors : Int → List TensorKey := fun _ => []

/-- The first device with the least time below `fltMax`, else the first device. -/
def minDevice (times : List F) : F × Nat :=
  times.zipIdx.foldl (fun best t => if t.1 < best.1 then t else best) (fltMax, 0)

/-- One partition of the greedy policy. -/
def greedyOne (eligibleDevices : List Int) (st : GreedyState F)
    (partition : MatrixPartition DataPtr) : Option (Int × GreedyState F) :=
  match partition.mat with
  | (_, rSize) :: (_, cSize) :: _ =>
    if partition.hDim = 0 then none
    else
      let times := List.zipWith (fun deviceId time =>
        partitionTime rSize cSize partition.hDim (rowKey partition ∈ st.deviceTensors deviceId)
          (colKey partition ∈ st.deviceTensors deviceId) + time) eligibleDevices st.deviceTime
      let best := minDevice fltMax times
      eligibleDevices[best.2]?.map fun deviceId =>
        (deviceId,
          { deviceTime := st.deviceTime.set best.2 best.1
            deviceTensors := update st.deviceTensors deviceId
              (rowKey partition :: colKey partition :: st.deviceTensors deviceId) })
  | _ => none

/-- The loop of the greedy policy. -/
def greedy (eligibleDevices : List Int) :
    GreedyState F → List (MatrixPartition DataPtr) → Option (List Int)
  | _, [] => some []
  | st, partition :: partitions =>
    match greedyOne fltMax eligibleDevices st partition with
    | none => none
    | some (deviceId, st) => (greedy eligibleDevices st partitions).map (deviceId :: ·)

/-- The three policies, with what their objects keep. -/
inductive Policy where
  | roundRobin (nextDeviceIdx : Nat)
  | greedy
  | loadBalanced
  deriving DecidableEq

/-- `AssignPartitionsToDevices`: the assignments, and the policy after the call. -/
def assignPartitionsToDevices (policy : Policy) (call : Call) : Option (List Int × Policy) :=
  match call.eligibleDevices with
  | [] => some ([], policy)
  | first :: rest =>
    match policy with
    | .roundRobin nextDeviceIdx =>
      (roundRobin (first :: rest) nextDeviceIdx call.partitions).map fun r =>
        (r.1, .roundRobin r.2)
    | .greedy =>
      let zero : F := ofNat 0
      (SchedPolicy.greedy fltMax (first :: rest)
        { deviceTime := List.replicate (rest.length + 1) zero } call.partitions).map (·, .greedy)
    | .loadBalanced =>
      some (call.partitions.map fun _ => leastLoaded call.count first rest, .loadBalanced)

end Greedy

/-! ### One call -/

section Calls

variable {eligibleDevices : List Int} {nextDeviceIdx : Nat}
  {partitions : List (MatrixPartition DataPtr)}

/-- Where the cursor is after a call. -/
theorem roundRobin_eq (hnext : partitions = [] ∨ nextDeviceIdx < eligibleDevices.length) :
    ∃ assignments, roundRobin eligibleDevices nextDeviceIdx partitions =
        some (assignments, if partitions = [] then nextDeviceIdx
          else (nextDeviceIdx + partitions.length) % eligibleDevices.length) ∧
      assignments.length = partitions.length ∧ (∀ d ∈ assignments, d ∈ eligibleDevices) ∧
      ∀ i d, eligibleDevices.Nodup → eligibleDevices[i]? = some d →
        assignments.count d =
          Nat.count (fun j => (nextDeviceIdx + j) % eligibleDevices.length = i)
            partitions.length := by
  induction partitions generalizing nextDeviceIdx with
  | nil => exact ⟨[], rfl, rfl, by simp, by simp⟩
  | cons partition partitions ih =>
    have hlt : nextDeviceIdx < eligibleDevices.length := hnext.resolve_left (cons_ne_nil _ _)
    have hpos : 0 < eligibleDevices.length := by omega
    obtain ⟨assignments, heq, hlen, hmem, hcount⟩ :=
      @ih ((nextDeviceIdx + 1) % eligibleDevices.length) (.inr (Nat.mod_lt _ hpos))
    have hget : eligibleDevices[nextDeviceIdx]? = some (eligibleDevices.get ⟨nextDeviceIdx, hlt⟩) := by
      simp
    generalize eligibleDevices.get ⟨nextDeviceIdx, hlt⟩ = deviceId at hget
    have hmod : ∀ j, ((nextDeviceIdx + 1) % eligibleDevices.length + j) % eligibleDevices.length =
        (nextDeviceIdx + (j + 1)) % eligibleDevices.length := fun j => by
      rw [Nat.mod_add_mod, Nat.add_right_comm, Nat.add_assoc]
    refine ⟨deviceId :: assignments, ?_, by simp [hlen], ?_, fun i d hnodup hi => ?_⟩
    · simp only [roundRobin, hget, heq, Option.map_some, if_neg (cons_ne_nil _ _),
        length_cons]
      split
      · rename_i hnil
        simp [hnil]
      · rw [hmod]
    · exact forall_mem_cons.mpr ⟨mem_of_getElem? hget, hmem⟩
    · rw [count_cons, hcount i d hnodup hi, length_cons, Nat.count_succ']
      have hfirst : (deviceId == d) = true ↔ (nextDeviceIdx + 0) % eligibleDevices.length = i := by
        rw [beq_iff_eq, Nat.add_zero, Nat.mod_eq_of_lt hlt]
        constructor
        · rintro rfl
          exact (getElem?_inj hlt hnodup).mp (hget.trans hi.symm)
        · rintro rfl
          exact Option.some.inj (hget.symm.trans hi)
      simp only [hmod, hfirst]

/-- How often the cursor is at `i`. -/
theorem count_cursor {n len i : Nat} (hnext : nextDeviceIdx < len) (hi : i < len) :
    n / len ≤ Nat.count (fun j => (nextDeviceIdx + j) % len = i) n ∧
      Nat.count (fun j => (nextDeviceIdx + j) % len = i) n ≤ n / len + 1 := by
  have hiff : ∀ j, (nextDeviceIdx + j) % len = i ↔ j ≡ i + len - nextDeviceIdx [MOD len] := fun j => by
    have hshift : (nextDeviceIdx + (i + len - nextDeviceIdx)) % len = i := by
      rw [show nextDeviceIdx + (i + len - nextDeviceIdx) = i + len by omega, Nat.add_mod_right,
        Nat.mod_eq_of_lt hi]
    constructor
    · intro h
      exact Nat.ModEq.add_left_cancel' nextDeviceIdx (h.trans hshift.symm)
    · intro h
      exact Eq.trans (h.add_left nextDeviceIdx) hshift
  simp only [hiff]
  rw [Nat.count_modEq_card _ (by omega)]
  split <;> omega

variable {F : Type*} [Double F] {fltMax : F} {st : GreedyState F}
  {partition : MatrixPartition DataPtr}

theorem minDevice_lt {times : List F} (h : 0 < times.length) :
    (minDevice fltMax times).2 < times.length := by
  have hfold : ∀ (l : List (F × Nat)) (best : F × Nat), best.2 < times.length →
      (∀ t ∈ l, t.2 < times.length) →
      (l.foldl (fun best t => if t.1 < best.1 then t else best) best).2 < times.length := fun l => by
    induction l with
    | nil => exact fun _ hbest _ => hbest
    | cons t l ih =>
      intro best hbest hl
      obtain ⟨ht, hl⟩ := forall_mem_cons.mp hl
      refine ih _ ?_ hl
      dsimp only
      split
      · exact ht
      · exact hbest
  refine hfold _ _ h fun t ht => ?_
  simpa using (mem_zipIdx ht).2.1

/-- A partition that the greedy policy can compute with. -/
def Computable (partition : MatrixPartition DataPtr) : Prop :=
  partition.hDim ≠ 0 ∧ 2 ≤ partition.mat.length

theorem greedyOne_eq_some (fltMax : F) (hne : eligibleDevices ≠ [])
    (hlen : st.deviceTime.length = eligibleDevices.length) (h : Computable partition) :
    ∃ deviceId ∈ eligibleDevices, ∃ st', greedyOne fltMax eligibleDevices st partition =
      some (deviceId, st') ∧ st'.deviceTime.length = eligibleDevices.length := by
  obtain ⟨hdim, hmat⟩ := h
  match hblocks : partition.mat, hmat with
  | (_, rSize) :: (_, cSize) :: _, _ =>
    simp only [greedyOne, hblocks, if_neg hdim]
    generalize htimes : List.zipWith _ eligibleDevices st.deviceTime = times
    have hlt : (minDevice fltMax times).2 < eligibleDevices.length := by
      have hzip : times.length = eligibleDevices.length := by
        rw [← htimes, length_zipWith, hlen, Nat.min_self]
      rw [← hzip]
      exact minDevice_lt (hzip ▸ length_pos_iff.mpr hne)
    generalize minDevice fltMax times = best at hlt ⊢
    obtain ⟨deviceId, hget⟩ : ∃ deviceId, eligibleDevices[best.2]? = some deviceId :=
      ⟨_, getElem?_eq_getElem hlt⟩
    exact ⟨deviceId, mem_of_getElem? hget, _, by rw [hget]; rfl, by simpa using hlen⟩

theorem computable_of_greedyOne {r : Int × GreedyState F}
    (h : greedyOne fltMax eligibleDevices st partition = some r) : Computable partition := by
  unfold greedyOne at h
  split at h
  · rename_i hblocks
    split at h
    · cases h
    · rename_i hdim
      exact ⟨hdim, by simp [hblocks]⟩
  · cases h

theorem greedy_eq_some (fltMax : F) (hne : eligibleDevices ≠ [])
    (hlen : st.deviceTime.length = eligibleDevices.length)
    (h : ∀ partition ∈ partitions, Computable partition) :
    ∃ assignments, greedy fltMax eligibleDevices st partitions = some assignments ∧
      assignments.length = partitions.length ∧ ∀ d ∈ assignments, d ∈ eligibleDevices := by
  induction partitions generalizing st with
  | nil => exact ⟨[], rfl, rfl, by simp⟩
  | cons partition partitions ih =>
    obtain ⟨hone, hrest⟩ := forall_mem_cons.mp h
    obtain ⟨deviceId, hmem, st', heq, hlen'⟩ := greedyOne_eq_some fltMax hne hlen hone
    obtain ⟨assignments, heq', hlength, hmem'⟩ := ih hlen' hrest
    refine ⟨deviceId :: assignments, by simp [greedy, heq, heq'], by simp [hlength], ?_⟩
    exact forall_mem_cons.mpr ⟨hmem, hmem'⟩

theorem computable_of_greedy {assignments : List Int}
    (h : greedy fltMax eligibleDevices st partitions = some assignments) :
    ∀ partition ∈ partitions, Computable partition := by
  induction partitions generalizing st assignments with
  | nil => simp
  | cons partition partitions ih =>
    rw [greedy] at h
    split at h
    · cases h
    · rename_i hone
      obtain ⟨rest, hrest, -⟩ := Option.map_eq_some_iff.mp h
      exact forall_mem_cons.mpr ⟨computable_of_greedyOne hone, ih hrest⟩

end Calls

/-! ### Sequences of calls -/

variable {F : Type*} [Double F] (fltMax : F)

/-- The call returns one eligible device for each partition, if there is one; a round robin gives
two of them the same number of partitions, or one more to one of them. -/
def NamesEligible (policy : Policy) (call : Call) : Prop :=
  ∃ assignments policy', assignPartitionsToDevices fltMax policy call = some (assignments, policy') ∧
    (call.eligibleDevices ≠ [] →
      assignments.length = call.partitions.length ∧
      (∀ d ∈ assignments, d ∈ call.connectedDevices ∧ d ∉ call.excludedDevices) ∧
      ((∃ nextDeviceIdx, policy = .roundRobin nextDeviceIdx) →
        ∀ d ∈ call.eligibleDevices, ∀ e ∈ call.eligibleDevices,
          assignments.count d ≤ assignments.count e + 1))

/-- The call stays within the eligible devices, and within what can be computed. -/
def Within : Policy → Call → Prop
  | .roundRobin nextDeviceIdx, call => call.eligibleDevices = [] ∨ call.partitions = [] ∨
      nextDeviceIdx < call.eligibleDevices.length
  | .greedy, call => call.eligibleDevices = [] ∨ ∀ partition ∈ call.partitions, Computable partition
  | .loadBalanced, _ => True

theorem mem_eligibleDevices {call : Call} {d : Int} :
    d ∈ call.eligibleDevices ↔ d ∈ call.connectedDevices ∧ d ∉ call.excludedDevices := by
  simp [Call.eligibleDevices]

theorem nodup_eligibleDevices (call : Call) : call.eligibleDevices.Nodup := call.nodup.filter _

theorem namesEligible_of_eq_nil {policy : Policy} {call : Call} (h : call.eligibleDevices = []) :
    NamesEligible fltMax policy call :=
  ⟨[], policy, by rw [assignPartitionsToDevices, h], fun hne => absurd h hne⟩

variable {fltMax} {policy : Policy} {call : Call} {assignments : List Int}

section
variable (hne : call.eligibleDevices ≠ [])
include hne

theorem assign_roundRobin (nextDeviceIdx : Nat) :
    assignPartitionsToDevices fltMax (.roundRobin nextDeviceIdx) call =
      (roundRobin call.eligibleDevices nextDeviceIdx call.partitions).map fun r =>
        (r.1, .roundRobin r.2) := by
  obtain ⟨first, rest, heq⟩ := exists_cons_of_ne_nil hne
  simp only [assignPartitionsToDevices, heq]

theorem assign_greedy :
    assignPartitionsToDevices fltMax .greedy call =
      (greedy fltMax call.eligibleDevices
        { deviceTime := List.replicate call.eligibleDevices.length (ofNat 0) }
        call.partitions).map (·, .greedy) := by
  obtain ⟨first, rest, heq⟩ := exists_cons_of_ne_nil hne
  simp only [assignPartitionsToDevices, heq, length_cons]

theorem namesEligible_roundRobin_iff {nextDeviceIdx : Nat} :
    NamesEligible fltMax (.roundRobin nextDeviceIdx) call ↔
      call.partitions = [] ∨ nextDeviceIdx < call.eligibleDevices.length := by
  constructor
  · rintro ⟨assignments, policy', heq, -⟩
    rw [assign_roundRobin hne] at heq
    by_contra hnot
    rw [not_or, Nat.not_lt] at hnot
    obtain ⟨partition, partitions, hcons⟩ := exists_cons_of_ne_nil hnot.1
    rw [hcons, roundRobin, getElem?_eq_none hnot.2] at heq
    cases heq
  · intro hnext
    obtain ⟨assignments, heq, hlen, hmem, hcount⟩ := roundRobin_eq hnext
    refine ⟨assignments, _, by rw [assign_roundRobin hne, heq]; rfl, fun _ =>
      ⟨hlen, fun d hd => mem_eligibleDevices.mp (hmem d hd), fun _ d hd e he => ?_⟩⟩
    rcases hnext with hnil | hnext
    · rw [hnil, length_nil, length_eq_zero_iff] at hlen
      simp [hlen]
    · obtain ⟨i, hi⟩ := getElem?_of_mem hd
      obtain ⟨i', hi'⟩ := getElem?_of_mem he
      rw [hcount i d (nodup_eligibleDevices call) hi, hcount i' e (nodup_eligibleDevices call) hi']
      have hle := (count_cursor (n := call.partitions.length) hnext
        (List.getElem?_eq_some_iff.mp hi).1).2
      have hge := (count_cursor (n := call.partitions.length) hnext
        (List.getElem?_eq_some_iff.mp hi').1).1
      omega

theorem namesEligible_greedy_iff :
    NamesEligible fltMax .greedy call ↔ ∀ partition ∈ call.partitions, Computable partition := by
  constructor
  · rintro ⟨assignments, policy', heq, -⟩
    rw [assign_greedy hne] at heq
    obtain ⟨assignments', heq', -⟩ := Option.map_eq_some_iff.mp heq
    exact computable_of_greedy heq'
  · intro h
    have hstart : (GreedyState.mk (List.replicate call.eligibleDevices.length (ofNat 0 : F))
        fun _ => []).deviceTime.length = call.eligibleDevices.length := length_replicate
    obtain ⟨assignments, heq, hlen, hmem⟩ := greedy_eq_some fltMax hne hstart h
    refine ⟨assignments, _, by rw [assign_greedy hne, heq]; rfl, fun _ =>
      ⟨hlen, fun d hd => mem_eligibleDevices.mp (hmem d hd), ?_⟩⟩
    rintro ⟨nextDeviceIdx, h⟩
    cases h

end

theorem namesEligible_loadBalanced : NamesEligible fltMax .loadBalanced call := by
  by_cases hne : call.eligibleDevices = []
  · exact namesEligible_of_eq_nil fltMax hne
  · obtain ⟨first, rest, heq⟩ := exists_cons_of_ne_nil hne
    refine ⟨call.partitions.map fun _ => leastLoaded call.count first rest, .loadBalanced,
      by simp only [assignPartitionsToDevices, heq], fun _ => ⟨by simp, fun d hd => ?_, ?_⟩⟩
    · obtain ⟨partition, -, rfl⟩ := mem_map.mp hd
      rw [← mem_eligibleDevices, heq]
      exact leastLoaded_mem
    · rintro ⟨nextDeviceIdx, h⟩
      cases h

/-- One call is as it should be exactly where it stays within the eligible devices. -/
theorem namesEligible_iff : NamesEligible fltMax policy call ↔ Within policy call := by
  by_cases hne : call.eligibleDevices = []
  · refine iff_of_true (namesEligible_of_eq_nil fltMax hne) ?_
    cases policy <;> simp [Within, hne]
  · cases policy with
    | roundRobin nextDeviceIdx => simp [namesEligible_roundRobin_iff hne, Within, hne]
    | greedy => simp [namesEligible_greedy_iff hne, Within, hne]
    | loadBalanced => exact iff_of_true namesEligible_loadBalanced trivial

variable (fltMax)

/-- A call on an object; `none` after an access out of bounds or a division by zero. -/
def next (policy : Option Policy) (call : Call) : Option Policy :=
  policy.bind fun policy => (assignPartitionsToDevices fltMax policy call).map (·.2)

/-- `P` of the object that a call is made on. -/
def Of (P : Policy → Call → Prop) (policy : Option Policy) (call : Call) : Prop :=
  ∃ p, policy = some p ∧ P p call

/-- **Over any sequence of calls the assignments name eligible devices exactly as long as the calls
stay within them.** -/
theorem assign_iff (policy : Policy) (calls : List Call) :
    Run.Along (next fltMax) (Of (NamesEligible fltMax)) (some policy) calls ↔
      Run.Along (next fltMax) (Of Within) (some policy) calls := by
  have hiff : ∀ policy call, Of (NamesEligible fltMax) policy call ↔ Of Within policy call :=
    fun policy call => by simp only [Of, namesEligible_iff]
  exact ⟨.mono fun _ _ => (hiff _ _).mp, .mono fun _ _ => (hiff _ _).mpr⟩

/-- A partition with a hidden dimension of `hDim`. -/
def onePartition (hDim : Nat) : MatrixPartition DataPtr :=
  { version := 0, row := 0, col := 0, pivot := 0, hDim, mat := [(⟨.a, 0⟩, 4), (⟨.b, 0⟩, 4)] }

/-- Two devices, and one of them left. -/
def shrinkingCalls : List Call :=
  [{ partitions := [onePartition 1], connectedDevices := [1, 2], nodup := by decide },
   { partitions := [onePartition 1], connectedDevices := [1], nodup := by decide }]

/-- The cursor is beyond the devices of the second call; a hidden dimension of 0 is divided by. -/
theorem shrinkingCalls_not_eligible :
    ¬ Run.Along (next (0 : Float)) (Of (NamesEligible (0 : Float))) (some (.roundRobin 0))
        shrinkingCalls ∧
      ¬ Run.Along (next (0 : Float)) (Of (NamesEligible (0 : Float))) (some .greedy)
        [{ partitions := [onePartition 0], connectedDevices := [1], nodup := by decide }] := by
  constructor
  · rintro ⟨-, ⟨policy, hpolicy, hnames⟩, -⟩
    have hnext : some policy = some (.roundRobin 1) := hpolicy.symm
    cases hnext
    rw [namesEligible_iff] at hnames
    simp [Within, Call.eligibleDevices] at hnames
  · rintro ⟨⟨policy, hpolicy, hnames⟩, -⟩
    cases hpolicy
    rw [namesEligible_iff] at hnames
    simp [Within, Call.eligibleDevices, Computable, onePartition] at hnames

end Morphling.SchedPolicy
