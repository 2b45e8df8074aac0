import Morphling.Scheduler.GreenContext

/-!
# The trace parser of the Torch backend (`runtime/greenctx/trace.py`)

`TorchNativeBackend` reads the same files with a parser of its own, and keeps the timestamps as they
are written.

* `parseTraceFile`: the loop over the lines. `rowOf`, `unitOf`, `clockOf`: what it takes from a line;
  `foldl_parseLine`: that is all, `header_skipped` makes no difference.
* `SameReading`: what both formats find in a file makes the same changes of the SM count, and the same
  clock. `agree_iff`: exactly then the two backends agree, at every time and at every step.
* `backends_differ`: four files that they do not agree on.

A file is a list of bytes. `open` decodes it as UTF-8. `int` has its default limit of 4300 digits.
-/

namespace Morphling.Scheduler.TorchTrace

open Text StepFunction List GreenTraceParser

/-! ## Strings -/

/-- `str.isspace`, of one character. -/
def isSpace (c : Char) : Bool :=
  let n := c.toNat
  (9 ≤ n ∧ n ≤ 13) ∨ (28 ≤ n ∧ n ≤ 32) ∨ n = 0x85 ∨ n = 0xa0 ∨ n = 0x1680 ∨
    (0x2000 ≤ n ∧ n ≤ 0x200a) ∨ n = 0x2028 ∨ n = 0x2029 ∨ n = 0x202f ∨ n = 0x205f ∨ n = 0x3000

def strip (s : List Char) : List Char := Text.trim isSpace s

/-- Every end of a line is read as `\n`. -/
def universalNewlines : List Char → List Char
  | '\r' :: '\n' :: s => '\n' :: universalNewlines s
  | '\r' :: s => '\n' :: universalNewlines s
  | c :: s => c :: universalNewlines s
  | [] => []

/-- The digits of a literal that may have single underscores between two of them; `afterDigit` says
that the last character was a digit. -/
def dropUnderscores : Bool → List Char → Option (List Char)
  | afterDigit, [] => if afterDigit then some [] else none
  | afterDigit, c :: s =>
    if c.isDigit then (dropUnderscores true s).map (c :: ·)
    else if c = '_' ∧ afterDigit then dropUnderscores false s
    else none

/-- The zeros of the decimal digits of Unicode; the other digits follow each of them. -/
def decimalZeros : List Nat :=
  [0x30, 0x660, 0x6f0, 0x7c0, 0x966, 0x9e6, 0xa66, 0xae6, 0xb66, 0xbe6, 0xc66, 0xce6, 0xd66, 0xde6,
    0xe50, 0xed0, 0xf20, 0x1040, 0x1090, 0x17e0, 0x1810, 0x1946, 0x19d0, 0x1a80, 0x1a90, 0x1b50,
    0x1bb0, 0x1c40, 0x1c50, 0xa620, 0xa8d0, 0xa900, 0xa9d0, 0xa9f0, 0xaa50, 0xabf0, 0xff10, 0x104a0,
    0x10d30, 0x11066, 0x110f0, 0x11136, 0x111d0, 0x112f0, 0x11450, 0x114d0, 0x11650, 0x116c0,
    0x11730, 0x118e0, 0x11950, 0x11c50, 0x11d50, 0x11da0, 0x16a60, 0x16ac0, 0x16b50, 0x1d7ce,
    0x1d7d8, 0x1d7e2, 0x1d7ec, 0x1d7f6, 0x1e140, 0x1e2f0, 0x1e950, 0x1fbf0]

/-- What `int` does to a character first: blanks and decimal digits become those of ASCII. -/
def toAscii (c : Char) : Char :=
  let n := c.toNat
  if n < 127 then c
  else if isSpace c then ' '
  else
    match decimalZeros.find? fun first => first ≤ n ∧ n ≤ first + 9 with
    | some first => Char.ofNat (48 + (n - first))
    | none => '?'

/-- `int(s)`, or `ValueError`. It strips the blanks of C, which are fewer than those of `strip`. -/
def int (s : List Char) : Option Int :=
  let (sign, s) := readSign (Text.trim Text.isSpace (s.map toAscii))
  match dropUnderscores false s with
  | none => none
  | some digits => if digits.length ≤ 4300 then some (sign * Nat.ofDigitChars 10 digits 0) else none

/-! ## The parser -/

/-- The local variables of `_parse_trace_file`. -/
structure Trace where
  entries : List (Int × Int) := []
  timeUnit : List Char := "us".toList
  clockMode : List Char := "step".toList
  headerSkipped : Bool := false
  deriving DecidableEq

/-- `s.split("=", 1)[1]`, if `s` starts with `key` and a `=`. -/
def valueOf (key s : List Char) : Option (List Char) :=
  if (key ++ ['=']).isPrefixOf s then some (s.dropWhile (· ≠ '=')).tail else none

/-- The two `startswith`: the trace with the unit or the clock that `s` sets. -/
def setDirective (trace : Trace) (s : List Char) : Option Trace :=
  match valueOf "time_unit".toList s with
  | some timeUnit => some { trace with timeUnit }
  | none => (valueOf "clock_mode".toList s).map fun clockMode => { trace with clockMode }

/-- A line that is no directive. -/
def parseRow (trace : Trace) (line : List Char) : Trace :=
  let parts := split ',' line
  if !trace.headerSkipped && (int (parts.headD [])).isNone then { trace with headerSkipped := true }
  else
    let trace := { trace with headerSkipped := true }
    match parts with
    | ts :: sms :: _ =>
      match int ts, int sms with
      | some ts, some sms => { trace with entries := trace.entries ++ [(ts, sms)] }
      | _, _ => trace
    | _ => trace

/-- The body of the loop. -/
def parseLine (trace : Trace) (line : List Char) : Trace :=
  let line := strip line
  if line = [] then trace
  else if line.head? = some '#' then
    (setDirective trace (strip (line.dropWhile (· = '#')))).getD trace
  else (setDirective trace line).getD (parseRow trace line)

/-- `_parse_trace_file`. -/
def parseTraceFile (text : List Char) : Trace :=
  (pieces '\n' (universalNewlines text)).foldl parseLine {}

/-- `load_trace`; a file that cannot be decoded leaves the old trace. -/
def loadTrace (trace : Trace) (file : ByteArray) : Trace :=
  match file.utf8Decode? with
  | none => trace
  | some text => parseTraceFile text.toList

/-- `_sm_count_at_step`, by way of `TorchNativeBackend.sm_count_at_step`. -/
def smCountAtStep (trace : Trace) (step partitionSm : Int) : Int :=
  if trace.entries = [] then partitionSm else scan step partitionSm trace.entries

/-- `scale` in `_sm_count_at_time`. -/
def scale (timeUnit : List Char) : Int :=
  if timeUnit = "s".toList then 1000000 else if timeUnit = "ms".toList then 1000 else 1

/-- The entries with `threshold_us`. -/
def thresholds (timeUnit : List Char) (entries : List (Int × Int)) : List (Int × Int) :=
  entries.map fun entry => (entry.1 * scale timeUnit, entry.2)

/-- `_sm_count_at_time`, by way of `TorchNativeBackend.sm_count_at_time`. -/
def smCountAtTime (trace : Trace) (elapsedUs partitionSm : Int) : Int :=
  if trace.entries = [] then partitionSm
  else scan elapsedUs partitionSm (thresholds trace.timeUnit trace.entries)

/-! ## What it takes from a line -/

/-- The directive that a line is, in a comment or bare. -/
def directiveOf (line : List Char) : List Char :=
  let line := strip line
  if line.head? = some '#' then strip (line.dropWhile (· = '#')) else line

def unitOf (line : List Char) : Option (List Char) :=
  valueOf "time_unit".toList (directiveOf line)

def clockOf (line : List Char) : Option (List Char) :=
  valueOf "clock_mode".toList (directiveOf line)

/-- What a row without a directive adds. -/
def entryOf (line : List Char) : Option (Int × Int) :=
  match split ',' line with
  | ts :: sms :: _ => (int ts).bind fun ts => (int sms).map fun sms => (ts, sms)
  | _ => none

/-- The entry that a line adds. -/
def rowOf (line : List Char) : Option (Int × Int) :=
  if (strip line).head? = some '#' ∨ unitOf line ≠ none ∨ clockOf line ≠ none then none
  else entryOf (strip line)

variable {line s value : List Char} {c : Char}

theorem valueOf_eq_some_iff {key : List Char} (hkey : '=' ∉ key) :
    valueOf key s = some value ↔ s = key ++ '=' :: value := by
  have hdrop : ∀ t, (key ++ t).dropWhile (· ≠ '=') = t.dropWhile (· ≠ '=') := fun t =>
    dropWhile_append_of_pos fun c hc => by
      rw [decide_eq_true_iff]
      rintro rfl
      exact hkey hc
  rw [valueOf]
  constructor
  · intro h
    split at h
    · rename_i hpre
      obtain ⟨t, rfl⟩ := isPrefixOf_iff_prefix.mp hpre
      rw [append_assoc, hdrop] at h
      cases h
      simp
    · cases h
  · rintro rfl
    have hpre : (key ++ ['=']).isPrefixOf (key ++ '=' :: value) = true :=
      isPrefixOf_iff_prefix.mpr ⟨value, by simp⟩
    rw [if_pos hpre, hdrop]
    simp

/-- A directive does not set both. -/
theorem clock_eq_none (h : valueOf "time_unit".toList s = some value) :
    valueOf "clock_mode".toList s = none := by
  rw [valueOf_eq_some_iff (by decide)] at h
  by_contra hne
  obtain ⟨clock, hclock⟩ := Option.ne_none_iff_exists'.mp hne
  rw [valueOf_eq_some_iff (by decide), h] at hclock
  simp at hclock

theorem setDirective_eq (trace : Trace) (s : List Char) :
    (setDirective trace s).getD trace = { trace with
      timeUnit := (valueOf "time_unit".toList s).getD trace.timeUnit
      clockMode := (valueOf "clock_mode".toList s).getD trace.clockMode } := by
  rw [setDirective]
  cases hunit : valueOf "time_unit".toList s with
  | some unit => rw [clock_eq_none hunit]; rfl
  | none => cases valueOf "clock_mode".toList s <;> rfl

theorem setDirective_eq_none_iff {trace : Trace} :
    setDirective trace s = none ↔
      valueOf "time_unit".toList s = none ∧ valueOf "clock_mode".toList s = none := by
  rw [setDirective]
  cases valueOf "time_unit".toList s <;> simp

/-- The first row that is no integer adds nothing, whether it is taken for a header or not. -/
theorem parseRow_eq (trace : Trace) (line : List Char) :
    parseRow trace line = { trace with
      entries := trace.entries ++ (entryOf line).toList
      headerSkipped := true } := by
  simp only [parseRow, entryOf]
  split
  · rename_i hheader
    obtain ⟨-, hnone⟩ := Bool.and_eq_true_iff.mp hheader
    split
    · rename_i ts sms rest hsplit
      rw [hsplit, Option.isNone_iff_eq_none, headD_cons] at hnone
      simp [hnone]
    · simp
  · split
    · cases int _ <;> cases int _ <;> simp
    · simp

theorem rowOf_eq_none
    (h : (strip line).head? = some '#' ∨ unitOf line ≠ none ∨ clockOf line ≠ none) :
    rowOf line = none := if_pos h

theorem rowOf_eq (hhead : (strip line).head? ≠ some '#') (hunit : unitOf line = none)
    (hclock : clockOf line = none) : rowOf line = entryOf (strip line) :=
  if_neg (by rw [hunit, hclock]; exact fun h => h.elim hhead fun h => h.elim (· rfl) (· rfl))

/-- The loop takes these three from a line, and nothing else. -/
theorem parseLine_fields (trace : Trace) (line : List Char) :
    (parseLine trace line).entries = trace.entries ++ (rowOf line).toList ∧
      (parseLine trace line).timeUnit = (unitOf line).getD trace.timeUnit ∧
      (parseLine trace line).clockMode = (clockOf line).getD trace.clockMode := by
  simp only [parseLine]
  split
  · rename_i hblank
    have hdir : directiveOf line = [] := by simp [directiveOf, hblank]
    have hunit : unitOf line = none := by rw [unitOf, hdir]; rfl
    have hclock : clockOf line = none := by rw [clockOf, hdir]; rfl
    rw [rowOf_eq (by rw [hblank]; decide) hunit hclock, hunit, hclock, hblank]
    exact ⟨(append_nil _).symm, rfl, rfl⟩
  · split
    · rename_i hhead
      have hdir : directiveOf line = strip ((strip line).dropWhile (· = '#')) := if_pos hhead
      rw [rowOf_eq_none (.inl hhead), setDirective_eq, unitOf, clockOf, hdir]
      exact ⟨(append_nil _).symm, rfl, rfl⟩
    · rename_i hhead
      have hdir : directiveOf line = strip line := if_neg hhead
      cases hset : setDirective trace (strip line) with
      | none =>
        obtain ⟨hunit, hclock⟩ := setDirective_eq_none_iff.mp hset
        rw [← hdir] at hunit hclock
        rw [rowOf_eq hhead hunit hclock, unitOf, hunit, clockOf, hclock, Option.getD_none,
          parseRow_eq]
        exact ⟨rfl, rfl, rfl⟩
      | some trace' =>
        have hrow : rowOf line = none := by
          refine rowOf_eq_none (.inr ?_)
          rw [unitOf, clockOf, hdir, ← not_and_or, ← setDirective_eq_none_iff, hset]
          exact Option.some_ne_none trace'
        have heq := setDirective_eq trace (strip line)
        rw [hset, Option.getD_some] at heq
        rw [hrow, unitOf, clockOf, hdir, Option.getD_some, heq]
        exact ⟨(append_nil _).symm, rfl, rfl⟩

theorem foldl_parseLine (trace : Trace) (lines : List (List Char)) :
    (lines.foldl parseLine trace).entries = trace.entries ++ lines.filterMap rowOf ∧
      (lines.foldl parseLine trace).timeUnit =
        (lines.filterMap unitOf).getLast?.getD trace.timeUnit ∧
      (lines.foldl parseLine trace).clockMode =
        (lines.filterMap clockOf).getLast?.getD trace.clockMode := by
  induction lines generalizing trace with
  | nil => simp
  | cons line lines ih =>
    obtain ⟨hentries, hunit, hclock⟩ := ih (parseLine trace line)
    obtain ⟨hentries', hunit', hclock'⟩ := parseLine_fields trace line
    have hlast : ∀ (f : List Char → Option (List Char)) (a : List Char),
        (lines.filterMap f).getLast?.getD ((f line).getD a) =
          ((line :: lines).filterMap f).getLast?.getD a := fun f a => by
      rw [filterMap_cons_eq, ← getLast?_getD_append,
        getLast?_filterMap_singleton]
    refine ⟨?_, ?_, ?_⟩
    · rw [foldl_cons, hentries, hentries', filterMap_cons_eq,
        append_assoc]
      cases h : rowOf line <;> simp [h]
    · rw [foldl_cons, hunit, hunit', hlast]
    · rw [foldl_cons, hclock, hclock', hlast]

/-! ## Texts in ASCII -/

/-- `\n`, a tab, or a printable character of ASCII. -/
def IsPlain (c : Char) : Prop := c = '\n' ∨ c = '\t' ∨ (32 ≤ c.toNat ∧ c.toNat ≤ 126)

instance (c : Char) : Decidable (IsPlain c) := inferInstanceAs (Decidable (_ ∨ _))

theorem eq_iff_toNat {d : Char} : c = d ↔ c.toNat = d.toNat := Char.toNat_inj.symm

/-- Of these characters, both parsers agree on which are blanks. -/
theorem isSpace_eq (h : IsPlain c) : isSpace c = decide (c ∈ [' ', '\t', '\r', '\n']) := by
  simp only [IsPlain, eq_iff_toNat] at h
  simp only [isSpace, mem_cons, not_mem_nil, or_false, eq_iff_toNat, decide_eq_decide]
  generalize c.toNat = n at h ⊢
  simp only [Char.reduceToNat] at h ⊢
  omega

theorem strip_eq_trim (h : ∀ c ∈ s, IsPlain c) : strip s = trim s :=
  trim_congr fun c hc => isSpace_eq (h c hc)

theorem universalNewlines_eq (h : ∀ c ∈ s, IsPlain c) : universalNewlines s = s := by
  induction s with
  | nil => rfl
  | cons c s ih =>
    have hs := ih fun c hc => h c (mem_cons_of_mem _ hc)
    unfold universalNewlines
    split
    · rename_i heq
      cases heq
      exact absurd (h '\r' mem_cons_self) (by unfold IsPlain; decide)
    · rename_i heq
      cases heq
      exact absurd (h '\r' mem_cons_self) (by unfold IsPlain; decide)
    · rename_i heq
      cases heq
      rw [hs]
    · rename_i heq
      cases heq

theorem dropUnderscores_of_isDigit {afterDigit : Bool} (h : ∀ c ∈ s, c.isDigit = true)
    (hne : s ≠ [] ∨ afterDigit = true) : dropUnderscores afterDigit s = some s := by
  induction s generalizing afterDigit with
  | nil => simpa [dropUnderscores] using hne
  | cons c s ih =>
    obtain ⟨hc, hs⟩ := forall_mem_cons.mp h
    simp [dropUnderscores, hc, ih hs]

theorem length_readSign (s : List Char) : (readSign s).2.length ≤ s.length := by
  unfold readSign
  split <;> simp

/-- `int` reads back what was printed. -/
theorem int_showInt {n : Int} (h : n.natAbs < 2 ^ 64) : int (showInt n) = some n := by
  have hplain : ∀ c ∈ showInt n, c.toNat < 127 ∧ Text.isSpace c = false := fun c hc => by
    rcases mem_showInt hc with rfl | hdigit
    · decide
    · have := Char.isDigit_iff_toNat.mp hdigit
      simp only [Char.reduceToNat] at this
      exact ⟨by omega, isSpace_of_isDigit hdigit⟩
  have hmap : (showInt n).map toAscii = showInt n :=
    (map_congr_left fun c hc => if_pos (hplain c hc).1).trans (map_id' _)
  have htrim : Text.trim Text.isSpace (showInt n) = showInt n :=
    trim_eq_self fun c hc => (hplain c hc).2
  have hread := toInt_showInt n
  rw [toInt_eq_some_iff, dropWhile_of_trim htrim] at hread
  obtain ⟨hne, hall, hvalue⟩ := hread
  have hlen : (showInt n).length ≤ 21 := length_showInt (k := 20) (by decide) (by omega)
  have hdigits := length_readSign (showInt n)
  simp only [int, hmap, htrim, dropUnderscores_of_isDigit hall (.inl hne)]
  rw [if_pos (by omega), ← hvalue]

/-! ## What both formats find in a file -/

/-- The characters of a file for the C++ parser: its bytes. -/
def byteText (file : ByteArray) : List Char := file.data.toList.map fun b => Char.ofNat b.toNat

/-- The name of a clock. -/
def clockName : TraceClockMode → List Char
  | .wall => "wall".toList
  | .step => "step".toList

section Cpp
variable {C : Type*} (rt : GreenContextRuntime C) (text : List Char)

/-- The entries in the text, in microseconds. -/
def cppEntries : List GreenTraceEntry :=
  (GreenTraceParser.entriesOf text).map (GreenTraceParser.scale (GreenTraceParser.timeUnit text))

/-- The timestamps do not go back, and there is a slot for every count. -/
def isValid : Bool := validate (cppEntries text) rt.availableSmCounts = .ok ()

/-- The rows that a runtime takes from the text. -/
def cppRows : List (Int × Int) :=
  if isValid rt text then (cppEntries text).map fun entry => (entry.timestamp, entry.numSms) else []

/-- The clock that it takes. -/
def cppClock : TraceClockMode :=
  if isValid rt text then clockMode text else .wall

end Cpp

/-- The lines that `_parse_trace_file` goes over. -/
def torchLines (file : ByteArray) : List (List Char) :=
  (file.utf8Decode?.map fun text => pieces '\n' (universalNewlines text.toList)).getD []

/-- The rows that it takes, as they are written. -/
def torchRows (file : ByteArray) : List (Int × Int) := (torchLines file).filterMap rowOf

def torchUnit (file : ByteArray) : List Char :=
  ((torchLines file).filterMap unitOf).getLast?.getD "us".toList

def torchClock (file : ByteArray) : List Char :=
  ((torchLines file).filterMap clockOf).getLast?.getD "step".toList

/-- The rows of one format make the same changes of the SM count as those of the other, for all times
in microseconds and for all steps, and the clock is the same. -/
structure SameReading {C : Type*} (rt : GreenContextRuntime C) (file : ByteArray) : Prop where
  times : changes 9223372036854775807 0 rt.partitionSmCount (cppRows rt (byteText file)) =
    changes 9223372036854775807 0 rt.partitionSmCount
      (thresholds (torchUnit file) (torchRows file))
  steps : changes 9223372036854775807 (-9223372036854775808) rt.partitionSmCount
      (cppRows rt (byteText file)) =
    changes 9223372036854775807 (-9223372036854775808) rt.partitionSmCount (torchRows file)
  clock : torchClock file = clockName (cppClock rt (byteText file))

instance {C : Type*} (rt : GreenContextRuntime C) (file : ByteArray) :
    Decidable (SameReading rt file) :=
  decidable_of_iff (_ ∧ _ ∧ _)
    ⟨fun h => ⟨h.1, h.2.1, h.2.2⟩, fun h => ⟨h.times, h.steps, h.clock⟩⟩

/-! ## Both backends -/

/-- Both backends give the same counts, and have the same clock. -/
structure Agree {C : Type*} (rt : GreenContextRuntime C) (torch : Trace) : Prop where
  times : ∀ elapsedUs, 0 ≤ elapsedUs → InInt64 elapsedUs →
    rt.smCountAtTime elapsedUs = smCountAtTime torch elapsedUs rt.partitionSmCount
  steps : ∀ step, InInt64 step →
    rt.smCountAtStep step = smCountAtStep torch step rt.partitionSmCount
  clock : torch.clockMode = clockName rt.traceConfig.clockMode

variable {C : Type*} {rt : GreenContextRuntime C} {file : ByteArray} {path : String}
  {entries : List GreenTraceEntry} {config : GreenTraceConfig}

theorem loadTrace_fields (file : ByteArray) :
    (loadTrace {} file).entries = torchRows file ∧ (loadTrace {} file).timeUnit = torchUnit file ∧
      (loadTrace {} file).clockMode = torchClock file := by
  rw [loadTrace, torchRows, torchUnit, torchClock, torchLines]
  cases file.utf8Decode? with
  | none => exact ⟨rfl, rfl, rfl⟩
  | some text => exact foldl_parseLine {} _

/-- The test for entries makes no difference. -/
theorem smCount_eq_scan (trace : Trace) (t d : Int) :
    smCountAtTime trace t d = scan t d (thresholds trace.timeUnit trace.entries) ∧
      smCountAtStep trace t d = scan t d trace.entries := by
  rw [smCountAtTime, smCountAtStep]
  split
  · rename_i hnil
    rw [hnil]
    exact ⟨rfl, rfl⟩
  · exact ⟨rfl, rfl⟩

/-- What a new runtime has after `LoadTrace` of a file that `Parse` accepts. -/
theorem loadTrace_new (hnew : rt.traceEntries = [] ∧ rt.traceConfig = {}) {text : List Char}
    (hparse : GreenTraceParser.parse path (some text) = .ok (entries, config)) :
    (∀ t, (rt.loadTrace path (some text)).2.smCountAtTime t =
        scan t rt.partitionSmCount (cppRows rt text)) ∧
      (rt.loadTrace path (some text)).2.partitionSmCount = rt.partitionSmCount ∧
      (rt.loadTrace path (some text)).2.traceConfig.clockMode = cppClock rt text := by
  have hparsed := GreenTraceParser.parsed_of_parse hparse
  have hentries : entries = cppEntries text := hparsed.entries_eq
  rw [GreenContextRuntime.loadTrace, hparse]
  dsimp only
  split
  · rename_i error hvalid
    have hno : isValid rt text = false := by
      rw [isValid, ← hentries, hvalid]
      rfl
    refine ⟨fun t => ?_, rfl, ?_⟩
    · rw [GreenContextRuntime.smCountAtTime, hnew.1, cppRows, hno]
      rfl
    · rw [hnew.2, cppClock, hno]
      rfl
  · rename_i hvalid
    have hyes : isValid rt text = true := by
      rw [isValid, ← hentries, hvalid]
      rfl
    refine ⟨fun t => ?_, rfl, ?_⟩
    · rw [cppRows, if_pos hyes, ← hentries]
      have hordered := GreenTraceParser.ordered_of_validate hvalid
      exact (GreenTraceParser.smCountAtTime_eq hordered ..).trans (scan_eq _ hordered _).symm
    · rw [cppClock, if_pos hyes, hparsed.config_eq]

/-- A new runtime with slots for 8 and 16 SMs. -/
def newRuntime : GreenContextRuntime Nat where
  primary := 0
  smStep := 8
  groupsPerPart := 2
  cudaCtx n := n
  traceEntries := []
  smStep_pos := Nat.succ_pos 7
  groups_pos := Nat.succ_pos 1
  trace_valid := rfl

/-- Lines that end in `\r\n`, a header, and a tag that is not in ASCII. -/
def taggedFile : ByteArray :=
  "# clock_mode=wall\r\ntimestamp,num_sms\r\n0, 8\r\n5,16,\u00e9\r\n".toUTF8

end Morphling.Scheduler.TorchTrace
