import Morphling.Checkpoint.TensorHandle

/-!
# Saving and loading a checkpoint (`runtime/checkpoint_loader.py`, `checkpoint_handle.cpp`)

`offload_state_dict` gives each name an id and offloads its tensor; the names go to a file of their
own. `ReadCheckpoint` looks up the id of a name, the place of the id, and reads it with one `pread`.

* A tensor is its bytes, a state dict a list of names and tensors, and a checkpoint file that was
  loaded a state dict.
* `ret` is what each `pread` returns: POSIX allows fewer bytes than asked for (`PreadAllowed`). What
  it leaves out of the buffer is not initialised.
* `ReadCheckpoint` takes a tensor of zeros for one that was not read, and ends the process.
* `readCheckpoint_saved`: what was saved comes back, unless there is such a tensor.

The parameter file exists once a tensor was written to it. Allocations succeed and give fresh
memory. Tensors have bytes: the scheduler of the writes takes a block out of every request.
-/

namespace Morphling.Checkpoint

open Bytes List Function

/-! ## Saving -/

/-- `ParamMeta`, an entry of `param_meta_map.json`. -/
structure ParamMeta where
  id : Nat
  size : Nat
  fileOffset : Nat

/-- What `offload_state_dict` works on. -/
structure Saving (N : Type*) where
  handle : ArcherTensorHandle
  dir : Directory
  paramMetaMap : List (N × ParamMeta) := []
  paramId : Nat := 0

namespace Saving

variable {N : Type*} [DecidableEq N]

/-- A fresh handle on a directory without an index. -/
def fresh (archerParam : Nat → Nat → UInt8) : Saving N :=
  { handle := .open { archerParam }, dir := { archerParam } }

/-- The body of the loop over a state dict. The binding refuses an id that is no `uint32_t`. -/
def offloadParam (uninit : Nat → Nat → UInt8) (s : Saving N) (param : N × List UInt8) :
    Option (Saving N) :=
  if param.1 ∈ s.paramMetaMap.map Prod.fst then some s
  else if UInt32.size ≤ s.paramId then none
  else
    let id := UInt32.ofNat s.paramId
    (s.handle.offloadTensor s.dir id param.2 (uninit s.paramId)).map fun (handle, dir) =>
      let fileOffset := ((handle.tensorIndex id).map TensorStorageMeta.offset).getD 0
      { handle, dir
        paramMetaMap := s.paramMetaMap ++ [(param.1, ⟨s.paramId, param.2.length, fileOffset⟩)]
        paramId := s.paramId + 1 }

/-- `offload_state_dict`; `none` where it raises. -/
def offloadStateDict (uninit : Nat → Nat → UInt8) (ckptFiles : List (List (N × List UInt8)))
    (s : Saving N) : Option (Saving N) :=
  ckptFiles.foldlM (fun s stateDict => stateDict.foldlM (offloadParam uninit) s) s

end Saving

/-! ## Loading -/

/-- The most that one `pread` transfers. -/
def kMaxPread : Int := 2147479552

/-- What `pread` may return where there are `alignUp numBytes` bytes to read. -/
def PreadAllowed (numBytes : Nat) (ret : Int) : Prop :=
  0 ≤ ret ∧ ret ≤ alignUp numBytes ∧ ret ≤ kMaxPread

/-- The body of the loop of `ReadCheckpoint`; `none` where it ends the process. -/
def readParam (dir : Directory) (tensorIndex : TensorIndex) (id : UInt32) (ret : Int)
    (uninit : Nat → UInt8) : Option (List UInt8) :=
  match tensorIndex id with
  | none => none
  | some tensorMeta =>
    let file := dir.archerParam tensorMeta.fileId
    let tempBuffer := poke uninit 0 (peek file tensorMeta.offset ret.toNat)
    -- The result is kept in an `int`.
    if ret.bmod (2 ^ 32) = -1 then none
    else if (peek tempBuffer 0 tensorMeta.size).all (· == 0) then none
    else some (peek tempBuffer 0 tensorMeta.size)

section
variable {N : Type*} [DecidableEq N]

/-- `ReadCheckpoint`, which goes through the names in some `order`: `param_shm_map_`, with the bytes
of each buffer. -/
def readCheckpoint (saved : Saving N) (order : List N) (ret : N → Int) (uninit : N → Nat → UInt8) :
    Option (N → Option (List UInt8)) :=
  match saved.dir.archerIndex with
  | none => none
  | some tensorIndex =>
    order.foldlM
      (fun paramShmMap name =>
        ((saved.paramMetaMap.lookup name).bind fun paramMeta =>
          readParam saved.dir tensorIndex (.ofNat paramMeta.id) (ret name) (uninit name)).map
          fun buffer => update paramShmMap name (some buffer))
      fun _ => none

/-- Every tensor has a byte that is not zero. -/
def Loadable (params : List (N × List UInt8)) : Prop :=
  ∀ name bytes, params.lookup name = some bytes → ∃ b ∈ bytes, b ≠ 0

end

/-! ## What a save leaves behind -/

theorem lookup_singleton {N α : Type*} [DecidableEq N] (name : N) (p : N × α) :
    [p].lookup name = if name = p.1 then some p.2 else none := by
  rw [List.lookup_cons, lookup_nil]
  by_cases h : name = p.1
  · simp [h]
  · rw [beq_false_of_ne h, if_neg h]

/-- An id that is not in the index gets the next place. -/
theorem offloadTensor_new {h : ArcherTensorHandle} (dir : Directory) {id : UInt32}
    (hnone : h.tensorIndex id = none) (buffer : List UInt8) (uninit : Nat → UInt8) :
    ∃ dir', h.offloadTensor dir id buffer uninit = some ({ h with
      fileOffset := h.fileOffset + alignUp buffer.length
      tensorIndex := update h.tensorIndex id
        (some ⟨h.fileId, h.fileOffset, buffer.length⟩) }, dir') := by
  simp [ArcherTensorHandle.offloadTensor, ArcherTensorHandle.storeTensor, hnone]

namespace Saving

variable {N : Type*} [DecidableEq N] {uninit : Nat → Nat → UInt8} {s s' : Saving N}
  {params : List (N × List UInt8)} {param : N × List UInt8}
  {offloaded : UInt32 → Option (List UInt8)}

/-- The state after `params` were offloaded. -/
structure Tracks (s : Saving N) (params : List (N × List UInt8))
    (offloaded : UInt32 → Option (List UInt8)) : Prop where
  inv : Save.Inv ⟨s.handle, s.dir, offloaded⟩
  fresh : ∀ id : UInt32, s.paramId ≤ id.toNat → s.handle.tensorIndex id = none
  behind : s.handle.fileOffset ≠ 0 ∨ ∀ id, s.handle.tensorIndex id = none
  ids : ∀ p ∈ s.paramMetaMap, p.2.id < s.paramId ∧ s.paramId ≤ UInt32.size
  /-- The first tensor of a name is the one that was offloaded. -/
  found : ∀ name bytes, params.lookup name = some bytes → ∃ m,
    s.paramMetaMap.lookup name = some m ∧ offloaded (.ofNat m.id) = some bytes
  missing : ∀ name, params.lookup name = none → s.paramMetaMap.lookup name = none

theorem tracks_fresh (archerParam : Nat → Nat → UInt8) :
    (fresh (N := N) archerParam).Tracks [] fun _ => none where
  inv := ⟨rfl, rfl, nofun, fun _ => rfl, nofun, fun _ => nofun, nofun⟩
  fresh _ _ := rfl
  behind := .inr fun _ => rfl
  ids := by simp [Saving.fresh]
  found := by simp
  missing _ _ := rfl

namespace Tracks

theorem mem_iff (h : s.Tracks params offloaded) {name : N} :
    name ∈ s.paramMetaMap.map Prod.fst ↔ ∃ bytes, params.lookup name = some bytes := by
  cases hp : params.lookup name with
  | none =>
    have hnone := lookup_eq_none_iff.mp (h.missing name hp)
    simp only [mem_map, reduceCtorEq, exists_false, iff_false]
    rintro ⟨p, hmem, rfl⟩
    simpa using hnone p hmem
  | some bytes =>
    obtain ⟨m, hm, -⟩ := h.found name bytes hp
    obtain ⟨l₁, l₂, heq, -⟩ := lookup_eq_some_iff.mp hm
    simp [heq]

/-- A name that is there already is skipped. -/
theorem skip (h : s.Tracks params offloaded) (hmem : param.1 ∈ s.paramMetaMap.map Prod.fst) :
    s.Tracks (params ++ [param]) offloaded := by
  obtain ⟨bytes, hbytes⟩ := h.mem_iff.mp hmem
  have hlookup : ∀ name, (params ++ [param]).lookup name = params.lookup name := by
    intro name
    rw [lookup_append]
    by_cases hname : name = param.1
    · rw [hname, hbytes, Option.some_or]
    · rw [List.lookup_cons, beq_false_of_ne hname, lookup_nil, Option.or_none]
  exact { h with
    found := fun name bytes hb => h.found name bytes (hlookup name ▸ hb)
    missing := fun name hb => h.missing name (hlookup name ▸ hb) }

/-- A new name gets the next id, and its tensor the next place. -/
theorem offload (h : s.Tracks params offloaded) (hnew : param.1 ∉ s.paramMetaMap.map Prod.fst)
    (hid : s.paramId < UInt32.size) (hne : param.2 ≠ []) (uninit : Nat → Nat → UInt8) :
    ∃ s', offloadParam uninit s param = some s' ∧ s'.Tracks (params ++ [param])
      (update offloaded (.ofNat s.paramId) (some param.2)) := by
  have htoNat : (UInt32.ofNat s.paramId).toNat = s.paramId := UInt32.toNat_ofNat_of_lt hid
  have hnone := h.fresh (.ofNat s.paramId) (Nat.le_of_eq htoNat.symm)
  obtain ⟨dir', hoff⟩ := offloadTensor_new s.dir hnone param.2 (uninit s.paramId)
  have hinv := h.inv.next (e := .offload (.ofNat s.paramId) param.2 (uninit s.paramId))
    ⟨hne, by simp [hnone]⟩ (.inr h.behind)
  simp only [Save.next, hoff] at hinv
  refine ⟨_, by
      rw [offloadParam, if_neg hnew, if_neg (Nat.not_le_of_lt hid)]
      simp only [hoff]
      rfl, ⟨hinv, ?_, ?_, ?_, ?_, ?_⟩⟩
  · intro id hle
    have hid' : id ≠ .ofNat s.paramId := by
      rintro rfl
      simp only [htoNat] at hle
      omega
    simp only [update_of_ne hid']
    exact h.fresh id (Nat.le_of_succ_le hle)
  · have hpos := length_pos_iff.mpr hne
    have hle := le_alignUp param.2.length
    exact .inl (by simp only; omega)
  · intro p hp
    rcases mem_append.mp hp with hp | hp
    · exact ⟨Nat.lt_succ_of_lt (h.ids p hp).1, hid⟩
    · rw [mem_singleton.mp hp]
      exact ⟨Nat.lt_succ_self _, hid⟩
  · intro name bytes hb
    rw [lookup_append] at hb
    simp only [lookup_append]
    cases hp : params.lookup name with
    | some bytes' =>
      rw [hp, Option.some_or, Option.some.injEq] at hb
      subst hb
      obtain ⟨m, hm, hoffloaded⟩ := h.found name bytes' hp
      refine ⟨m, by rw [hm, Option.some_or], ?_⟩
      obtain ⟨l₁, l₂, heq, -⟩ := lookup_eq_some_iff.mp hm
      have hlt : m.id < s.paramId := (h.ids (name, m) (by simp [heq])).1
      have htoNat' : (UInt32.ofNat m.id).toNat = m.id :=
        UInt32.toNat_ofNat_of_lt (Nat.lt_trans hlt hid)
      rw [update_of_ne, hoffloaded]
      exact fun hid' => absurd (congrArg UInt32.toNat hid') (by omega)
    | none =>
      rw [hp, Option.none_or, lookup_singleton] at hb
      obtain ⟨rfl, hbytes⟩ := Option.ite_none_right_eq_some.mp hb
      refine ⟨_, by rw [h.missing _ hp, Option.none_or, lookup_singleton, if_pos rfl], ?_⟩
      rw [update_self, hbytes]
  · intro name hb
    rw [lookup_append, Option.or_eq_none_iff] at hb
    simp only [lookup_append, Option.or_eq_none_iff]
    rw [lookup_singleton] at hb ⊢
    refine ⟨h.missing name hb.1, if_neg fun hname => ?_⟩
    rw [if_pos hname] at hb
    exact Option.some_ne_none _ hb.2

end Tracks

theorem foldlM_tracks (h : s.Tracks params offloaded) {rest : List (N × List UInt8)}
    (hne : ∀ name bytes, (params ++ rest).lookup name = some bytes → bytes ≠ [])
    (hs : rest.foldlM (offloadParam uninit) s = some s') :
    ∃ offloaded', s'.Tracks (params ++ rest) offloaded' := by
  induction rest generalizing s params offloaded with
  | nil =>
    cases hs
    exact ⟨offloaded, by rwa [append_nil]⟩
  | cons p rest ih =>
    rw [foldlM_cons] at hs
    obtain ⟨s₁, hs₁, hs⟩ := Option.bind_eq_some_iff.mp hs
    rw [append_cons] at hne ⊢
    by_cases hmem : p.1 ∈ s.paramMetaMap.map Prod.fst
    · rw [offloadParam, if_pos hmem] at hs₁
      cases hs₁
      exact ih (h.skip hmem) hne hs
    · have hid : s.paramId < UInt32.size := by
        by_contra hid
        rw [offloadParam, if_neg hmem, if_pos (Nat.le_of_not_lt hid)] at hs₁
        cases hs₁
      have hnone : params.lookup p.1 = none := by
        rw [h.mem_iff] at hmem
        exact Option.eq_none_iff_forall_ne_some.mpr fun bytes hb => hmem ⟨bytes, hb⟩
      have hp : p.2 ≠ [] := hne p.1 p.2 (by
        rw [lookup_append, lookup_append, hnone, Option.none_or, lookup_singleton,
          if_pos rfl, Option.some_or])
      obtain ⟨s₂, hs₂, h₂⟩ := h.offload hmem hid hp uninit
      cases hs₁.symm.trans hs₂
      exact ih h₂ hne hs

/-- The files one after the other are one list of tensors. -/
theorem offloadStateDict_eq (ckptFiles : List (List (N × List UInt8))) (s : Saving N) :
    offloadStateDict uninit ckptFiles s = ckptFiles.flatten.foldlM (offloadParam uninit) s := by
  unfold offloadStateDict
  induction ckptFiles generalizing s with
  | nil => rfl
  | cons stateDict ckptFiles ih =>
    rw [foldlM_cons, flatten_cons, foldlM_append]
    exact congrArg _ (funext ih)

end Saving

/-! ## What a load finds -/

section
variable {N : Type*} [DecidableEq N] {order : List N} {read : N → Option (List UInt8)}

/-- A loop that fills a map, one name after the other. -/
theorem foldlM_update (bytes : N → List UInt8) (h : ∀ name ∈ order, read name = some (bytes name))
    (map : N → Option (List UInt8)) :
    order.foldlM (fun map name => (read name).map fun buffer =>
      update map name (some buffer)) map =
      some fun name => if name ∈ order then some (bytes name) else map name := by
  induction order generalizing map with
  | nil => simp
  | cons name order ih =>
    rw [foldlM_cons, h name mem_cons_self]
    refine (ih (fun n hn => h n (mem_cons_of_mem _ hn)) _).trans (congrArg some ?_)
    funext n
    by_cases hn : n = name
    · subst hn
      simp
    · simp [hn]

theorem foldlM_update_none {name : N} (hmem : name ∈ order) (h : read name = none)
    (map : N → Option (List UInt8)) :
    order.foldlM (fun map name => (read name).map fun buffer =>
      update map name (some buffer)) map = none := by
  induction order generalizing map with
  | nil => cases hmem
  | cons n order ih =>
    rw [foldlM_cons]
    rcases mem_cons.mp hmem with rfl | hmem
    · rw [h]
      rfl
    · cases read n with
      | none => rfl
      | some buffer => exact ih hmem _

end

namespace Saving.Tracks

variable {N : Type*} [DecidableEq N] {s : Saving N} {params : List (N × List UInt8)}
  {offloaded : UInt32 → Option (List UInt8)} {id : UInt32} {bytes : List UInt8} {ret : Int}

/-- A `pread` that returned the whole tensor. -/
theorem readParam_eq (h : s.Tracks params offloaded) (hid : offloaded id = some bytes)
    (hret : PreadAllowed bytes.length ret) (hall : bytes.length ≤ ret) (uninit : Nat → UInt8) :
    readParam s.dir s.handle.tensorIndex id ret uninit =
      if bytes.all (· == 0) then none else some bytes := by
  obtain ⟨m, hm, hsize, hpeek⟩ := h.inv.contents hid
  have hint : ret.bmod (2 ^ 32) = ret := by
    have := hret.2.2
    rw [kMaxPread] at this
    exact Int.bmod_eq_of_le (by omega) (by omega)
  have hbuffer : peek (poke uninit 0 (peek (s.dir.archerParam m.fileId) m.offset ret.toNat)) 0
      m.size = bytes := by
    have hle : m.size ≤ ret.toNat := by omega
    have hself := peek_poke_self uninit 0 (peek (s.dir.archerParam m.fileId) m.offset ret.toNat)
    rw [length_peek] at hself
    rw [← take_peek _ _ hle, hself, take_peek _ _ hle, hsize, hpeek]
  simp only [readParam, show s.handle.tensorIndex id = some m from hm, hbuffer, hint]
  rw [if_neg (by omega)]

theorem archerIndex_eq (h : s.Tracks params offloaded) (hne : params ≠ []) :
    s.dir.archerIndex = some s.handle.tensorIndex := by
  have hsaved := h.inv.saved
  unfold ArcherTensorHandle.open at hsaved
  split at hsaved
  · rename_i index hindex
    rw [hindex, ← hsaved]
  · -- Some tensor is in the index.
    obtain ⟨⟨name, bytes⟩, params, rfl⟩ := exists_cons_of_ne_nil hne
    obtain ⟨m, -, hoff⟩ := h.found name bytes lookup_cons_self
    obtain ⟨tensorMeta, hmeta, -⟩ := h.inv.contents hoff
    rw [← hsaved] at hmeta
    cases hmeta

/-- The whole loop, where every `pread` returned the whole tensor. -/
theorem readCheckpoint_eq (h : s.Tracks params offloaded) (hne : params ≠ []) {order : List N}
    (horder : order.Perm (s.paramMetaMap.map Prod.fst)) {ret : N → Int}
    (hret : ∀ name bytes, params.lookup name = some bytes →
      PreadAllowed bytes.length (ret name) ∧ bytes.length ≤ ret name) (uninit : N → Nat → UInt8) :
    (Loadable params → readCheckpoint s order ret uninit = some fun name => params.lookup name) ∧
      (¬Loadable params → readCheckpoint s order ret uninit = none) := by
  have hread : ∀ name bytes, params.lookup name = some bytes →
      ((s.paramMetaMap.lookup name).bind fun paramMeta => readParam s.dir s.handle.tensorIndex
        (.ofNat paramMeta.id) (ret name) (uninit name)) =
      if bytes.all (· == 0) then none else some bytes := by
    intro name bytes hb
    obtain ⟨m, hm, hoff⟩ := h.found name bytes hb
    rw [hm, Option.bind_some]
    exact h.readParam_eq hoff (hret name bytes hb).1 (hret name bytes hb).2 _
  have hmem : ∀ name, name ∈ order ↔ ∃ bytes, params.lookup name = some bytes :=
    fun name => horder.mem_iff.trans h.mem_iff
  simp only [readCheckpoint, h.archerIndex_eq hne]
  constructor
  · intro hload
    rw [foldlM_update (fun name => (params.lookup name).getD []) fun name hname => ?_]
    · congr 1
      funext name
      cases hb : params.lookup name with
      | none => simp [hmem, hb]
      | some bytes => simp [hmem, hb]
    · obtain ⟨bytes, hb⟩ := (hmem name).mp hname
      obtain ⟨b, hbmem, hzero⟩ := hload name bytes hb
      rw [hread name bytes hb, if_neg, hb, Option.getD_some]
      exact fun hall => hzero (by simpa using all_eq_true.mp hall b hbmem)
  · intro hload
    simp only [Loadable, not_forall, not_exists, not_and, not_not] at hload
    obtain ⟨name, bytes, hb, hzero⟩ := hload
    refine foldlM_update_none ((hmem name).mpr ⟨bytes, hb⟩) ?_ _
    rw [hread name bytes hb, if_pos]
    exact all_eq_true.mpr fun b hbmem => by simpa using hzero b hbmem

end Saving.Tracks

/-- What was saved comes back where each `pread` returns the whole tensor, unless a tensor is all
zeros: then the process ends. -/
theorem readCheckpoint_saved {N : Type*} [DecidableEq N] {uninit archerParam : Nat → Nat → UInt8}
    {ckptFiles : List (List (N × List UInt8))} {saved : Saving N}
    (hsaved : Saving.offloadStateDict uninit ckptFiles (.fresh archerParam) = some saved)
    (hfiles : ckptFiles.flatten ≠ [])
    (hne : ∀ name bytes, ckptFiles.flatten.lookup name = some bytes → bytes ≠ []) {order : List N}
    (horder : order.Perm (saved.paramMetaMap.map Prod.fst)) {ret : N → Int}
    (hret : ∀ name bytes, ckptFiles.flatten.lookup name = some bytes →
      PreadAllowed bytes.length (ret name) ∧ bytes.length ≤ ret name) (temp : N → Nat → UInt8) :
    (Loadable ckptFiles.flatten →
      readCheckpoint saved order ret temp = some fun name => ckptFiles.flatten.lookup name) ∧
    (¬Loadable ckptFiles.flatten → readCheckpoint saved order ret temp = none) := by
  rw [Saving.offloadStateDict_eq] at hsaved
  obtain ⟨offloaded, h⟩ := Saving.foldlM_tracks (Saving.tracks_fresh archerParam) hne hsaved
  exact h.readCheckpoint_eq hfiles horder hret temp

/-- Two files with a tensor each. -/
def twoFiles : List (List (String × List UInt8)) := [[("weight", [1, 2])], [("bias", [0, 0, 3])]]

/-- They are read in the other order than they were saved. -/
theorem twoFiles_loaded : ∃ saved,
    Saving.offloadStateDict (fun _ _ => 0) twoFiles (.fresh fun _ _ => 7) = some saved ∧
    readCheckpoint saved ["bias", "weight"] (fun _ => 4096) (fun _ _ => 0) =
      some fun name => [("weight", [1, 2]), ("bias", [0, 0, 3])].lookup name := by
  have hrun : (Saving.offloadStateDict (fun _ _ => 0) twoFiles (.fresh fun _ _ => 7)).any
      (fun saved => saved.paramMetaMap.map Prod.fst = ["weight", "bias"]) = true := by
    decide +kernel
  obtain ⟨saved, hsaved, hnames⟩ := (Option.any_eq_true ..).mp hrun
  have horder : ["bias", "weight"].Perm (saved.paramMetaMap.map Prod.fst) := by
    rw [of_decide_eq_true hnames]
    exact .swap ..
  have hlookup : ∀ name bytes, twoFiles.flatten.lookup name = some bytes →
      bytes = [1, 2] ∨ bytes = [0, 0, 3] := by
    intro name bytes hb
    obtain ⟨l₁, l₂, heq, -⟩ := lookup_eq_some_iff.mp hb
    have hmem : (name, bytes) ∈ twoFiles.flatten := by simp [heq]
    simp only [twoFiles, flatten_cons, flatten_nil, append_nil, singleton_append, mem_cons,
      Prod.mk.injEq, not_mem_nil, or_false] at hmem
    exact hmem.imp And.right And.right
  refine ⟨saved, hsaved, (readCheckpoint_saved hsaved (by decide) ?_ horder ?_ _).1 ?_⟩
  · intro name bytes hb
    rcases hlookup name bytes hb with rfl | rfl <;> decide
  · intro name bytes hb
    rcases hlookup name bytes hb with rfl | rfl <;>
      exact ⟨⟨by decide, by decide, by decide⟩, by decide⟩
  · intro name bytes hb
    rcases hlookup name bytes hb with rfl | rfl
    · exact ⟨1, by decide, by decide⟩
    · exact ⟨3, by decide, by decide⟩

/-- A tensor of one zero byte is saved, and ends the process that loads it. -/
theorem zero_not_loaded : ¬ ∀ (uninit archerParam : Nat → Nat → UInt8)
    (ckptFiles : List (List (String × List UInt8))) (saved : Saving String),
    Saving.offloadStateDict uninit ckptFiles (.fresh archerParam) = some saved →
    ∀ order : List String, order.Perm (saved.paramMetaMap.map Prod.fst) →
    ∀ ret : String → Int, (∀ name bytes, ckptFiles.flatten.lookup name = some bytes →
      PreadAllowed bytes.length (ret name)) →
    ∀ temp : String → Nat → UInt8,
      readCheckpoint saved order ret temp = some fun name => ckptFiles.flatten.lookup name := by
  intro h
  have hrun : (Saving.offloadStateDict (fun _ _ => 0) [[("bias", [0])]] (.fresh fun _ _ => 0)).any
      (fun saved => saved.paramMetaMap.map Prod.fst = ["bias"] ∧
        (readCheckpoint saved ["bias"] (fun _ => 4096) fun _ _ => 0).isNone) = true := by
    decide +kernel
  obtain ⟨saved, hsaved, hended⟩ := (Option.any_eq_true ..).mp hrun
  obtain ⟨hnames, hended⟩ := of_decide_eq_true hended
  have hret : ∀ name (bytes : List UInt8), [("bias", [0])].lookup name = some bytes →
      PreadAllowed bytes.length 4096 := by
    intro name bytes hb
    rw [lookup_singleton] at hb
    obtain rfl := Option.some.inj (Option.ite_none_right_eq_some.mp hb).2
    exact ⟨by decide, by decide, by decide⟩
  have hloaded := h _ _ _ saved hsaved ["bias"] (hnames ▸ .refl _) (fun _ => 4096) hret fun _ _ => 0
  rw [hloaded] at hended
  cases hended

end Morphling.Checkpoint
