import Morphling.Lib.StepFunction
import Morphling.Lib.Text

/-!
# SM traces (`scheduler/green_trace_parser.cpp`)

A trace is a list of entries, each with the SM count from its timestamp on. It is read from a text: a
first pass over the lines decides the format. In V1 a row is three integers, in V2 it is a CSV row of
two or three fields, one row may be a header, and comments may set the time unit and the clock.

* `parse`: the two passes, with their errors. `validate` accepts the traces whose timestamps do not go
  back and whose counts are allowed; `smCountAtTime` looks up a time.
* `dataRows`, `timeUnit`, `headers`: what is in the text, said line by line.
* `parseV1Lines_ok`, `parseV2Lines_ok`: what the loops did when they came to the end.
* `parsed_of_parse`: what `Parse` takes from a file that it accepts. `parse_rows`: where the timestamps
  fit, these are the data rows in microseconds.

Bytes of a file are characters here. A file that was opened can be read to its end twice.
-/

namespace Morphling.Scheduler

open Text StepFunction List Option

/-- `GreenTraceEntry`. No lookup reads the tag. -/
structure GreenTraceEntry where
  timestamp : Int
  numSms : Int
  tag : List Char := []
  deriving DecidableEq

inductive TraceTimeUnit where
  | microseconds
  | milliseconds
  | seconds
  deriving DecidableEq

inductive TraceClockMode where
  | wall
  | step
  deriving DecidableEq

structure GreenTraceConfig where
  timeUnit : TraceTimeUnit := .microseconds
  clockMode : TraceClockMode := .wall
  deriving DecidableEq

/-- The values of `int64_t`. -/
def InInt64 (n : Int) : Prop := -9223372036854775808 ≤ n ∧ n ≤ 9223372036854775807

/-- The values of `int`. -/
def InInt (n : Int) : Prop := -2147483648 ≤ n ∧ n ≤ 2147483647

instance (n : Int) : Decidable (InInt64 n) := inferInstanceAs (Decidable (_ ∧ _))

instance (n : Int) : Decidable (InInt n) := inferInstanceAs (Decidable (_ ∧ _))

/-- Microseconds in one unit. -/
def TraceTimeUnit.factor : TraceTimeUnit → Int
  | .microseconds => 1
  | .milliseconds => 1000
  | .seconds => 1000000

namespace GreenTraceParser

/-! ## Lines -/

/-- `Trim`. -/
def trim (s : List Char) : List Char := Text.trim (· ∈ [' ', '\t', '\r', '\n']) s

theorem trim_idem (s : List Char) : trim (trim s) = trim s := Text.trim_trim _ s

/-- `operator>>` of an `int64_t`. -/
def extractInt64 (s : List Char) : Option (Int × List Char) :=
  (readInt s).filter fun r => InInt64 r.1

/-- `operator>>` of an `int`. -/
def extractInt (s : List Char) : Option (Int × List Char) := (readInt s).filter fun r => InInt r.1

/-- `ParseInt64`. -/
def parseInt64 (s : List Char) : Option Int := (toInt s).filter fun n => InInt64 n

/-- `ParseInt`. -/
def parseInt (s : List Char) : Option Int := (toInt s).filter fun n => InInt n

/-- Key and value of a comment with an `=`. -/
def directive (line : List Char) : Option (List Char × List Char) :=
  match trim line with
  | '#' :: s =>
    let s := trim s
    if '=' ∈ s then some (trim (s.takeWhile (· ≠ '=')), trim (s.dropWhile (· ≠ '=')).tail) else none
  | _ => none

def unitNamed (value : List Char) : Option TraceTimeUnit :=
  if value = "us".toList ∨ value = "microseconds".toList then some .microseconds
  else if value = "ms".toList ∨ value = "milliseconds".toList then some .milliseconds
  else if value = "s".toList ∨ value = "seconds".toList then some .seconds
  else none

def clockNamed (value : List Char) : Option TraceClockMode :=
  if value = "wall".toList then some .wall
  else if value = "step".toList then some .step
  else none

/-- `ParseMetadata`. -/
def parseMetadata (line : List Char) (config : GreenTraceConfig) (lineNum : Nat) :
    Except String GreenTraceConfig :=
  match directive line with
  | none => .ok config
  | some (key, value) =>
    if key = "time_unit".toList then
      match unitNamed value with
      | some timeUnit => .ok { config with timeUnit }
      | none => .error
          ("Invalid time_unit at line " ++ toString lineNum ++ ": " ++ String.ofList value)
    else if key = "clock_mode".toList then
      match clockNamed value with
      | some clockMode => .ok { config with clockMode }
      | none => .error
          ("Invalid clock_mode at line " ++ toString lineNum ++ ": " ++ String.ofList value)
    else .ok config

/-! ## The two formats -/

/-- `while (std::getline(in, line))` with the number of the line. -/
def forLines {σ : Type} (body : Nat → σ → List Char → Except String σ) :
    Nat → σ → List (List Char) → Except String σ
  | _, st, [] => .ok st
  | lineNum, st, line :: lines =>
    match body lineNum st line with
    | .error error => .error error
    | .ok st => forLines body (lineNum + 1) st lines

/-- The test of the timestamps, and `entries.push_back`. -/
def pushBack (lineNum : Nat) (entries : List GreenTraceEntry) (entry : GreenTraceEntry) :
    Except String (List GreenTraceEntry) :=
  if entries.getLast?.any (entry.timestamp < ·.timestamp) then
    .error ("Non-monotonic timestamp at line " ++ toString lineNum)
  else .ok (entries ++ [entry])

/-- The body of the loop of `ParseV1`. -/
def parseV1Line (lineNum : Nat) (entries : List GreenTraceEntry) (line : List Char) :
    Except String (List GreenTraceEntry) :=
  let trimmed := trim line
  if trimmed = [] ∨ trimmed.head? = some '#' then .ok entries
  else
    let numbers := do
      let (timestamp, s) ← extractInt64 trimmed
      let (numSms, s) ← extractInt s
      let (_, s) ← extractInt64 s
      pure (timestamp, numSms, s.dropWhile isSpace)
    match numbers with
    | none => .error ("ParseV1 failed at line " ++ toString lineNum ++ ": " ++ String.ofList line)
    | some (timestamp, numSms, rest) =>
      if rest ≠ [] then
        .error ("ParseV1 extra token at line " ++ toString lineNum ++ ": " ++
          String.ofList (rest.takeWhile (!isSpace ·)))
      else pushBack lineNum entries { timestamp, numSms }

def parseV1 (lines : List (List Char)) : Except String (List GreenTraceEntry × GreenTraceConfig) :=
  match forLines parseV1Line 1 [] lines with
  | .error error => .error error
  | .ok entries =>
    if entries = [] then .error "ParseV1 found no valid data rows" else .ok (entries, {})

/-- The variables of the loop of `ParseV2`. -/
structure V2State where
  entries : List GreenTraceEntry := []
  config : GreenTraceConfig := {}
  headerSkipped : Bool := false
  deriving DecidableEq

/-- A row of `ParseV2` that has two or three fields. -/
def parseV2Row (lineNum : Nat) (st : V2State) (timestamp numSms tag : List Char) :
    Except String V2State :=
  match parseInt64 timestamp with
  | none =>
    if st.headerSkipped then
      .error ("ParseV2 invalid timestamp at line " ++ toString lineNum ++ ": " ++
        String.ofList timestamp)
    else .ok { st with headerSkipped := true }
  | some timestamp =>
    match parseInt numSms with
    | none => .error
        ("ParseV2 invalid num_sms at line " ++ toString lineNum ++ ": " ++ String.ofList numSms)
    | some numSms =>
      (pushBack lineNum st.entries { timestamp, numSms, tag }).map fun entries => { st with entries }

/-- The fields of a row. -/
def fields (line : List Char) : List (List Char) := (pieces ',' (trim line)).map trim

/-- The body of the loop of `ParseV2`. -/
def parseV2Line (lineNum : Nat) (st : V2State) (line : List Char) : Except String V2State :=
  let trimmed := trim line
  if trimmed = [] then .ok st
  else if trimmed.head? = some '#' then
    (parseMetadata trimmed st.config lineNum).map fun config => { st with config }
  else
    match fields line with
    | [timestamp, numSms] => parseV2Row lineNum st timestamp numSms []
    | [timestamp, numSms, tag] => parseV2Row lineNum st timestamp numSms tag
    | _ => .error ("ParseV2 invalid CSV field count at line " ++ toString lineNum ++ ": " ++
        String.ofList line)

/-- `timestamp *= factor`, in 64 bits. -/
def scale (unit : TraceTimeUnit) (entry : GreenTraceEntry) : GreenTraceEntry :=
  { entry with timestamp := (entry.timestamp * unit.factor).bmod 18446744073709551616 }

def parseV2 (lines : List (List Char)) : Except String (List GreenTraceEntry × GreenTraceConfig) :=
  match forLines parseV2Line 1 {} lines with
  | .error error => .error error
  | .ok st =>
    if st.entries = [] then .error "ParseV2 found no valid data rows"
    else .ok (st.entries.map (scale st.config.timeUnit), st.config)

/-- The first pass of `Parse`: `use_v2`, if there is a row. -/
def useV2 : Bool → List (List Char) → Option Bool
  | _, [] => none
  | sawV2Metadata, line :: lines =>
    let trimmed := trim line
    if trimmed = [] then useV2 sawV2Metadata lines
    else if trimmed.head? = some '#' then useV2 (sawV2Metadata || '=' ∈ trimmed) lines
    else some (sawV2Metadata || ',' ∈ trimmed)

/-- `Parse`, of the file at `path`, if it can be opened. -/
def parse (path : String) (file : Option (List Char)) :
    Except String (List GreenTraceEntry × GreenTraceConfig) :=
  match file with
  | none => .error ("Cannot open green trace file: " ++ path)
  | some text =>
    let lines := pieces '\n' text
    match useV2 false lines with
    | none => .error ("Green trace file has no data rows: " ++ path)
    | some true => parseV2 lines
    | some false => parseV1 lines

/-- `SmCountAtTime`. -/
def smCountAtTime (entries : List GreenTraceEntry) (elapsed defaultSmCount : Int) : Int :=
  if entries = [] then defaultSmCount
  else
    match upperBound (·.timestamp) entries elapsed with
    | 0 => defaultSmCount
    | n + 1 => (entries[n]?.map (·.numSms)).getD defaultSmCount

/-- The loop of `Validate` at index `i`, after the entry `prev`. -/
def validateFrom (validSmCounts : List Int) :
    Nat → Option GreenTraceEntry → List GreenTraceEntry → Except String Unit
  | _, _, [] => .ok ()
  | i, prev, entry :: entries =>
    if prev.any (entry.timestamp < ·.timestamp) then
      .error ("Non-monotonic timestamp at index " ++ toString i)
    else if validSmCounts ≠ [] ∧ entry.numSms ∉ validSmCounts then
      .error ("Invalid num_sms=" ++ toString entry.numSms ++ " at index " ++ toString i)
    else validateFrom validSmCounts (i + 1) (some entry) entries

/-- `Validate`. -/
def validate (entries : List GreenTraceEntry) (validSmCounts : List Int) : Except String Unit :=
  validateFrom validSmCounts 0 none entries

/-! ## What is in a text -/

/-- A line that is neither blank nor a comment. -/
def isRow (line : List Char) : Bool := trim line ≠ [] ∧ (trim line).head? ≠ some '#'

/-- A file is CSV where a comment with an `=` comes before the first row, or the first row has a
comma. -/
def isCsv (text : List Char) : Bool :=
  let lines := pieces '\n' text
  (lines.takeWhile (!isRow ·)).any ('=' ∈ trim ·) ||
    (lines.find? isRow).any (',' ∈ trim ·)

/-- The row of a CSV file that a line is. -/
def csvRow (line : List Char) : Option GreenTraceEntry :=
  let row (timestamp numSms tag : List Char) : Option GreenTraceEntry := do
    let timestamp ← toInt timestamp
    let numSms ← toInt numSms
    some { timestamp, numSms, tag }
  match fields line with
  | [timestamp, numSms] => row timestamp numSms []
  | [timestamp, numSms, tag] => row timestamp numSms tag
  | _ => none

/-- The row of three integers that a line is; the duration is not kept. -/
def v1Row (line : List Char) : Option GreenTraceEntry := do
  let (timestamp, s) ← readInt (trim line)
  let (numSms, s) ← readInt s
  let (_, s) ← readInt s
  if s.all isSpace then some { timestamp, numSms } else none

/-- The row that a line of the text is. -/
def rowOf (csv : Bool) (line : List Char) : Option GreenTraceEntry :=
  if isRow line then if csv then csvRow line else v1Row line else none

/-- The data rows of the text, as they are written. -/
def dataRows (text : List Char) : List GreenTraceEntry :=
  (pieces '\n' text).filterMap (rowOf (isCsv text))

/-- The entry that a line adds: a row with a timestamp that fits. -/
def entryOf (csv : Bool) (line : List Char) : Option GreenTraceEntry :=
  (rowOf csv line).filter fun row => InInt64 row.timestamp

/-- What `Parse` takes from the text, as it is written. -/
def entriesOf (text : List Char) : List GreenTraceEntry :=
  (pieces '\n' text).filterMap (entryOf (isCsv text))

/-- A row that adds no entry. -/
def isSkipped (csv : Bool) (line : List Char) : Bool := isRow line && (entryOf csv line).isNone

/-- A row that is no data row. -/
def isHeader (csv : Bool) (line : List Char) : Bool := isRow line && (rowOf csv line).isNone

def headers (text : List Char) : List (List Char) :=
  (pieces '\n' text).filter (isHeader (isCsv text))

/-- The value that a directive gives to `key`. -/
def valueFor (key line : List Char) : Option (List Char) :=
  match directive line with
  | some (key', value) => if key' = key then some value else none
  | none => none

def unitDirective (line : List Char) : Option TraceTimeUnit :=
  (valueFor "time_unit".toList line).bind unitNamed

def clockDirective (line : List Char) : Option TraceClockMode :=
  (valueFor "clock_mode".toList line).bind clockNamed

/-- The unit of all rows: that of the last directive, which only a CSV file has. -/
def timeUnit (text : List Char) : TraceTimeUnit :=
  if isCsv text then ((pieces '\n' text).filterMap unitDirective).getLast?.getD .microseconds
  else .microseconds

/-- The clock: that of the last directive, which only a CSV file has. -/
def clockMode (text : List Char) : TraceClockMode :=
  if isCsv text then ((pieces '\n' text).filterMap clockDirective).getLast?.getD .wall
  else .wall

/-- The timestamp of a row of the text in microseconds. -/
def microseconds (text : List Char) (row : GreenTraceEntry) : Int :=
  row.timestamp * (timeUnit text).factor

/-! ## The loops -/

section Loops

variable {lineNum : Nat} {line : List Char} {lines : List (List Char)}

theorem forLines_ok {σ : Type} {body : Nat → σ → List Char → Except String σ}
    {R : σ → List (List Char) → σ → Prop} (nil : ∀ st, R st [] st)
    (cons : ∀ {st st' st'' line lines}, R st [line] st' → R st' lines st'' →
      R st (line :: lines) st'')
    {st st' : σ} (step : ∀ line ∈ lines, ∀ {lineNum st st'}, body lineNum st line = .ok st' →
      R st [line] st')
    (h : forLines body lineNum st lines = .ok st') : R st lines st' := by
  induction lines generalizing lineNum st with
  | nil =>
    cases h
    exact nil _
  | cons line lines ih =>
    rw [forLines] at h
    split at h
    · cases h
    · rename_i hbody
      have hrest := ih (fun line hline => step line (mem_cons_of_mem _ hline)) h
      exact cons (step line mem_cons_self hbody) hrest

theorem filterMap_cons_eq {α β : Type*} (f : α → Option β) (a : α) (l : List α) :
    (a :: l).filterMap f = [a].filterMap f ++ l.filterMap f := by
  rw [← filterMap_append, singleton_append]

/-- The lines added their rows to the entries. -/
structure Appends (csv : Bool) (entries : List GreenTraceEntry) (lines : List (List Char))
    (entries' : List GreenTraceEntry) : Prop where
  eq : entries' = entries ++ lines.filterMap (entryOf csv)
  ordered : Ordered (·.timestamp) entries → Ordered (·.timestamp) entries'
  inInt : ∀ row ∈ lines.filterMap (entryOf csv), InInt row.numSms

variable {csv : Bool} {entries entries' entries'' : List GreenTraceEntry}
  {s timestamp numSms : List Char} {entry : GreenTraceEntry} {rest : List (List Char)}
  {r : Int × List Char}

theorem Appends.nil : Appends csv entries [] entries := ⟨by simp, id, by simp⟩

theorem Appends.cons (h : Appends csv entries [line] entries')
    (h' : Appends csv entries' lines entries'') : Appends csv entries (line :: lines) entries'' := by
  refine ⟨?_, h'.ordered ∘ h.ordered, fun row hrow => ?_⟩
  · rw [h'.eq, h.eq, append_assoc, ← filterMap_cons_eq]
  · rw [filterMap_cons_eq, mem_append] at hrow
    exact hrow.elim (h.inInt row) (h'.inInt row)

theorem Appends.of_none (h : entryOf csv line = none) : Appends csv entries [line] entries :=
  ⟨by simp [h], id, by simp [h]⟩

theorem Appends.of_pushBack (hrow : entryOf csv line = some entry) (hsms : InInt entry.numSms)
    (h : pushBack lineNum entries entry = .ok entries') : Appends csv entries [line] entries' := by
  rw [pushBack] at h
  split at h
  · cases h
  · rename_i hlast
    cases h
    refine ⟨by simp [hrow], fun hordered => hordered.append_singleton fun b hb => ?_,
      by simpa [hrow] using hsms⟩
    simpa [hb] using hlast

theorem entryOf_eq_some_iff :
    entryOf csv line = some entry ↔ rowOf csv line = some entry ∧ InInt64 entry.timestamp := by
  simp [entryOf, filter_eq_some_iff]

theorem isRow_eq_false (h : trim line = [] ∨ (trim line).head? = some '#') : isRow line = false := by
  rcases h with h | h <;> simp [isRow, h]

theorem isRow_eq_true (hne : trim line ≠ []) (hhead : (trim line).head? ≠ some '#') :
    isRow line = true := by
  simp [isRow, hne, hhead]

theorem rowOf_of_fields (hrow : isRow line = true)
    (hfields : fields line = timestamp :: numSms :: rest) (hrest : rest.length ≤ 1) :
    rowOf true line = (toInt timestamp).bind fun t => (toInt numSms).bind fun n =>
      some { timestamp := t, numSms := n, tag := rest.headD [] } := by
  obtain rfl | ⟨tag, rfl⟩ : rest = [] ∨ ∃ tag, rest = [tag] := by
    match rest, hrest with
    | [], _ => exact .inl rfl
    | [tag], _ => exact .inr ⟨tag, rfl⟩
  all_goals simp [rowOf, hrow, csvRow, hfields]

theorem entryOf_eq_none (h : isRow line = false) : entryOf csv line = none := by
  simp [entryOf, rowOf, h]

theorem isSkipped_eq_false (h : isRow line = false) : isSkipped csv line = false := by
  simp [isSkipped, h]

/-- What the loop of `ParseV1` did. -/
structure ReadsV1 (entries : List GreenTraceEntry) (lines : List (List Char))
    (entries' : List GreenTraceEntry) : Prop where
  appends : Appends false entries lines entries'
  skipped : lines.filter (isSkipped false) = []

theorem extractInt64_eq_some (h : extractInt64 s = some r) : readInt s = some r ∧ InInt64 r.1 := by
  simpa [extractInt64, filter_eq_some_iff] using h

theorem extractInt_eq_some (h : extractInt s = some r) : readInt s = some r ∧ InInt r.1 := by
  simpa [extractInt, filter_eq_some_iff] using h

theorem parseV1Line_ok (h : parseV1Line lineNum entries line = .ok entries') :
    ReadsV1 entries [line] entries' := by
  simp only [parseV1Line] at h
  split at h
  · rename_i hskip
    cases h
    have hrow := isRow_eq_false hskip
    exact ⟨.of_none (entryOf_eq_none hrow), by simp [isSkipped_eq_false hrow]⟩
  · rename_i hrow
    rw [not_or] at hrow
    split at h
    · cases h
    · rename_i timestamp numSms rest hnumbers
      split at h
      · cases h
      · rename_i hrest
        have hv1 : entryOf false line = some { timestamp, numSms } ∧ InInt numSms := by
          simp only [Option.bind_eq_bind, Option.bind_eq_some_iff] at hnumbers
          obtain ⟨⟨ts, s₁⟩, h₁, ⟨sms, s₂⟩, h₂, ⟨duration, s₃⟩, h₃, hpure⟩ := hnumbers
          simp only [Option.pure_def, Option.some.injEq, Prod.mk.injEq] at hpure
          obtain ⟨rfl, rfl, rfl⟩ := hpure
          have hall : s₃.all isSpace = true :=
            all_eq_true.mpr (dropWhile_eq_nil_iff.mp (not_not.mp hrest))
          refine ⟨entryOf_eq_some_iff.mpr ⟨?_, (extractInt64_eq_some h₁).2⟩,
            (extractInt_eq_some h₂).2⟩
          rw [rowOf, if_pos (isRow_eq_true hrow.1 hrow.2), v1Row, (extractInt64_eq_some h₁).1]
          simp only [Option.bind_eq_bind, Option.bind_some, (extractInt_eq_some h₂).1,
            (extractInt64_eq_some h₃).1, hall, if_true, Bool.false_eq_true, if_false]
        exact ⟨.of_pushBack hv1.1 hv1.2 h, by simp [isSkipped, hv1.1]⟩

theorem parseV1Lines_ok (h : forLines parseV1Line lineNum entries lines = .ok entries') :
    ReadsV1 entries lines entries' := by
  refine forLines_ok (R := ReadsV1) (fun _ => ⟨.nil, rfl⟩) (fun h h' => ?_)
    (fun _ _ _ _ _ hstep => parseV1Line_ok hstep) h
  exact ⟨h.appends.cons h'.appends, by
    rw [← singleton_append, filter_append, h.skipped, h'.skipped]; rfl⟩

/-- What the loop of `ParseV2` did. -/
structure ReadsV2 (st : V2State) (lines : List (List Char)) (st' : V2State) : Prop where
  appends : Appends true st.entries lines st'.entries
  timeUnit : st'.config.timeUnit =
    (lines.filterMap unitDirective).getLast?.getD st.config.timeUnit
  clockMode : st'.config.clockMode =
    (lines.filterMap clockDirective).getLast?.getD st.config.clockMode
  skipped :
    (lines.filter (isSkipped true)).length + st.headerSkipped.toNat = st'.headerSkipped.toNat

variable {st st' st'' : V2State} {n : Int}

theorem getLast?_getD_append {α : Type*} {a : α} (l l' : List α) :
    l'.getLast?.getD (l.getLast?.getD a) = (l ++ l').getLast?.getD a := by
  rw [getLast?_append]
  cases l'.getLast? <;> rfl

theorem getLast?_filterMap_singleton {α β : Type*} (f : α → Option β) (a : α) :
    ([a].filterMap f).getLast? = f a := by
  rw [filterMap_cons]
  cases f a <;> rfl

theorem ReadsV2.nil : ReadsV2 st [] st := ⟨.nil, rfl, rfl, by simp⟩

theorem ReadsV2.cons (h : ReadsV2 st [line] st') (h' : ReadsV2 st' lines st'') :
    ReadsV2 st (line :: lines) st'' := by
  refine ⟨h.appends.cons h'.appends, ?_, ?_, ?_⟩
  · rw [h'.timeUnit, h.timeUnit, filterMap_cons_eq _ line lines, getLast?_getD_append]
  · rw [h'.clockMode, h.clockMode, filterMap_cons_eq _ line lines, getLast?_getD_append]
  · rw [← h'.skipped, ← h.skipped, ← singleton_append, filter_append, length_append]
    omega

theorem directive_of_isRow (h : isRow line = true) : directive line = none := by
  simp only [isRow, decide_eq_true_eq] at h
  unfold directive
  split
  · rename_i hs
    simp [hs] at h
  · rfl

theorem directive_trim (line : List Char) : directive (trim line) = directive line := by
  simp [directive, trim_idem]

theorem valueFor_of_none (h : directive line = none) (key : List Char) :
    valueFor key line = none := by
  rw [valueFor, h]

theorem valueFor_trim (key line : List Char) : valueFor key (trim line) = valueFor key line := by
  rw [valueFor, directive_trim, valueFor]

/-- What a comment does to the configuration. -/
theorem parseMetadata_ok {config config' : GreenTraceConfig}
    (h : parseMetadata line config lineNum = .ok config') :
    config' = { timeUnit := (unitDirective line).getD config.timeUnit
                clockMode := (clockDirective line).getD config.clockMode } := by
  rw [unitDirective, clockDirective]
  unfold parseMetadata at h
  split at h
  · rename_i hnone
    cases h
    simp only [valueFor_of_none hnone, bind_none, getD_none]
  · rename_i key value hsome
    have hvalue : ∀ key', valueFor key' line = if key = key' then some value else none :=
      fun key' => by rw [valueFor, hsome]
    rw [hvalue, hvalue]
    split at h
    · rename_i hkey
      have hne : key ≠ "clock_mode".toList := by
        rw [hkey]
        decide
      rw [if_pos hkey, if_neg hne]
      split at h
      · rename_i unit hunit
        cases h
        simp [hunit]
      · cases h
    · rename_i hkey
      rw [if_neg hkey]
      split at h
      · rename_i hkey
        rw [if_pos hkey]
        split at h
        · rename_i clock hclock
          cases h
          simp [hclock]
        · cases h
      · rename_i hkey
        cases h
        rw [if_neg hkey]
        rfl

/-- A line that is no directive leaves the configuration. -/
theorem ReadsV2.of_directive_none (hdir : directive line = none)
    (appends : Appends true st.entries [line] st'.entries) (hconfig : st'.config = st.config)
    (skipped : (isSkipped true line).toNat + st.headerSkipped.toNat = st'.headerSkipped.toNat) :
    ReadsV2 st [line] st' := by
  refine ⟨appends, ?_, ?_, ?_⟩
  · simp only [filterMap_cons, filterMap_nil, unitDirective, valueFor_of_none hdir,
      bind_none, hconfig]
    rfl
  · simp only [filterMap_cons, filterMap_nil, clockDirective, valueFor_of_none hdir,
      bind_none, hconfig]
    rfl
  · rw [← skipped]
    cases h : isSkipped true line <;> simp [h]

theorem parseInt64_eq_some_iff : parseInt64 s = some n ↔ toInt s = some n ∧ InInt64 n := by
  simp [parseInt64, filter_eq_some_iff]

theorem parseInt_eq_some_iff : parseInt s = some n ↔ toInt s = some n ∧ InInt n := by
  simp [parseInt, filter_eq_some_iff]

theorem parseV2Row_ok (hisRow : isRow line = true)
    (hfields : fields line = timestamp :: numSms :: rest) (hrest : rest.length ≤ 1)
    (h : parseV2Row lineNum st timestamp numSms (rest.headD []) = .ok st') :
    ReadsV2 st [line] st' := by
  have hrow := rowOf_of_fields hisRow hfields hrest
  generalize rest.headD [] = tag at h hrow
  have hdir := directive_of_isRow hisRow
  unfold parseV2Row at h
  split at h
  · rename_i hts
    split at h
    · cases h
    · rename_i hskip
      cases h
      -- an integer that does not fit is taken for the header as well
      have hnone : entryOf true line = none := by
        by_contra hne
        obtain ⟨entry, hentry⟩ := ne_none_iff_exists'.mp hne
        obtain ⟨hsome, hfit⟩ := entryOf_eq_some_iff.mp hentry
        rw [hrow] at hsome
        obtain ⟨t, ht, hsome⟩ := bind_eq_some_iff.mp hsome
        obtain ⟨n, -, hsome⟩ := bind_eq_some_iff.mp hsome
        cases hsome
        rw [parseInt64_eq_some_iff.mpr ⟨ht, hfit⟩] at hts
        cases hts
      exact .of_directive_none hdir (.of_none hnone) rfl
        (by simp [isSkipped, hisRow, hnone, Bool.eq_false_iff.mpr hskip])
  · rename_i t hts
    obtain ⟨ht, hfit⟩ := parseInt64_eq_some_iff.mp hts
    split at h
    · cases h
    · rename_i n hn
      obtain ⟨hn, hsms⟩ := parseInt_eq_some_iff.mp hn
      have hsome : entryOf true line = some { timestamp := t, numSms := n, tag } :=
        entryOf_eq_some_iff.mpr ⟨by simp [hrow, ht, hn], hfit⟩
      cases hpush : pushBack lineNum st.entries { timestamp := t, numSms := n, tag } with
      | error e => simp [hpush, Except.map] at h
      | ok entries =>
        simp only [hpush, Except.map, Except.ok.injEq] at h
        subst h
        exact .of_directive_none hdir (.of_pushBack hsome hsms hpush) rfl
          (by simp [isSkipped, hsome])

theorem parseV2Line_ok (h : parseV2Line lineNum st line = .ok st') : ReadsV2 st [line] st' := by
  simp only [parseV2Line] at h
  split at h
  · rename_i hblank
    cases h
    have hrow := isRow_eq_false (.inl hblank)
    have hdir : directive line = none := by simp [directive, hblank]
    exact .of_directive_none hdir (.of_none (entryOf_eq_none hrow)) rfl
      (by simp [isSkipped_eq_false hrow])
  · rename_i hne
    split at h
    · rename_i hhead
      have hrow := isRow_eq_false (.inr hhead)
      cases hmeta : parseMetadata (trim line) st.config lineNum with
      | error e => simp [hmeta, Except.map] at h
      | ok config =>
        simp only [hmeta, Except.map, Except.ok.injEq] at h
        subst h
        obtain rfl := parseMetadata_ok hmeta
        refine ⟨.of_none (entryOf_eq_none hrow), ?_, ?_, by simp [isSkipped_eq_false hrow]⟩
        · rw [getLast?_filterMap_singleton, unitDirective, unitDirective, valueFor_trim]
        · rw [getLast?_filterMap_singleton, clockDirective, clockDirective, valueFor_trim]
    · rename_i hhead
      have hrow := isRow_eq_true hne hhead
      split at h
      · rename_i hfields
        exact parseV2Row_ok hrow hfields (by simp) h
      · rename_i hfields
        exact parseV2Row_ok hrow hfields (by simp) h
      · cases h

theorem parseV2Lines_ok (h : forLines parseV2Line lineNum st lines = .ok st') :
    ReadsV2 st lines st' :=
  forLines_ok (fun _ => .nil) ReadsV2.cons (fun _ _ _ _ _ hstep => parseV2Line_ok hstep) h

end Loops

/-! ## Accepted files -/

section Accepted

variable {path : String} {text : List Char} {entries : List GreenTraceEntry}
  {config : GreenTraceConfig} {n : Int} {unit : TraceTimeUnit}

/-- The first pass finds the first row, and says whether the file is CSV. -/
theorem useV2_eq (saw : Bool) (lines : List (List Char)) :
    useV2 saw lines = (lines.find? isRow).map fun line =>
      saw || (lines.takeWhile (!isRow ·)).any ('=' ∈ trim ·) || ',' ∈ trim line := by
  induction lines generalizing saw with
  | nil => rfl
  | cons line lines ih =>
    simp only [useV2]
    split
    · rename_i hblank
      have hrow := isRow_eq_false (.inl hblank)
      simp [ih, hrow, hblank]
    · rename_i hne
      split
      · rename_i hhead
        have hrow := isRow_eq_false (.inr hhead)
        simp [ih, hrow, Bool.or_assoc]
      · rename_i hhead
        simp [isRow_eq_true hne hhead]

theorem isCsv_of_useV2 {csv : Bool} (h : useV2 false (pieces '\n' text) = some csv) :
    isCsv text = csv := by
  rw [useV2_eq] at h
  obtain ⟨line, hfind, rfl⟩ := map_eq_some_iff.mp h
  simp [isCsv, hfind]

/-- A timestamp fits where it fits in microseconds. -/
theorem inInt64_of_mul (h : InInt64 (n * unit.factor)) : InInt64 n := by
  unfold InInt64 at *
  cases unit <;> simp only [TraceTimeUnit.factor] at h <;> omega

theorem factor_mono {m : Int} (unit : TraceTimeUnit) (h : m ≤ n) :
    m * unit.factor ≤ n * unit.factor := by
  cases unit <;> simp only [TraceTimeUnit.factor] <;> omega

theorem scale_eq {entry : GreenTraceEntry} (h : InInt64 (entry.timestamp * unit.factor)) :
    scale unit entry = { entry with timestamp := entry.timestamp * unit.factor } := by
  rw [scale, Int.bmod_eq_of_le_mul_two]
  all_goals
    unfold InInt64 at h
    omega

/-- The lookup, of entries in order. -/
theorem smCountAtTime_eq (h : Ordered (·.timestamp) entries) (elapsed defaultSmCount : Int) :
    smCountAtTime entries elapsed defaultSmCount =
      ((lastUpTo (·.timestamp) entries elapsed).map (·.numSms)).getD defaultSmCount := by
  rw [lastUpTo_eq_upperBound h, smCountAtTime]
  split
  · rename_i hnil
    subst hnil
    rfl
  · cases upperBound (fun entry : GreenTraceEntry => entry.timestamp) entries elapsed <;> rfl

/-- What `Parse` gives for a file that it accepts. -/
structure Parsed (text : List Char) (entries : List GreenTraceEntry) (config : GreenTraceConfig) :
    Prop where
  entries_eq : entries = (entriesOf text).map (scale (timeUnit text))
  config_eq : config = ⟨timeUnit text, clockMode text⟩
  inInt : ∀ row ∈ entriesOf text, InInt row.numSms
  ordered : Ordered (·.timestamp) (entriesOf text)
  skipped : ((pieces '\n' text).filter (isSkipped (isCsv text))).length ≤
    if isCsv text then 1 else 0

theorem parsed_of_parse (h : parse path (some text) = .ok (entries, config)) :
    Parsed text entries config := by
  simp only [parse] at h
  split at h
  · cases h
  · rename_i huse
    have hcsv := isCsv_of_useV2 huse
    unfold parseV2 at h
    split at h
    · cases h
    · rename_i st hloop
      split at h
      · cases h
      · simp only [Except.ok.injEq, Prod.mk.injEq] at h
        obtain ⟨rfl, rfl⟩ := h
        have hreads := parseV2Lines_ok hloop
        have hunit : timeUnit text = st.config.timeUnit := by
          rw [timeUnit, if_pos hcsv, hreads.timeUnit]
        have hclock : clockMode text = st.config.clockMode := by
          rw [clockMode, if_pos hcsv, hreads.clockMode]
        have hentries : entriesOf text = st.entries := by
          rw [hreads.appends.eq, entriesOf, hcsv, nil_append]
        refine ⟨by rw [hentries, hunit], by rw [hunit, hclock], ?_, ?_, ?_⟩
        · rw [entriesOf, hcsv]
          exact hreads.appends.inInt
        · rw [hentries]
          exact hreads.appends.ordered List.Pairwise.nil
        · have hskipped := hreads.skipped
          have hle := Bool.toNat_le st.headerSkipped
          simp only [Bool.toNat_false] at hskipped
          rw [hcsv, if_pos rfl]
          omega
  · rename_i huse
    have hcsv := isCsv_of_useV2 huse
    unfold parseV1 at h
    split at h
    · cases h
    · rename_i loop hloop
      split at h
      · cases h
      · simp only [Except.ok.injEq, Prod.mk.injEq] at h
        obtain ⟨rfl, rfl⟩ := h
        have hreads := parseV1Lines_ok hloop
        have hentries : entriesOf text = loop := by
          rw [hreads.appends.eq, entriesOf, hcsv, nil_append]
        have hscale : (entriesOf text).map (scale (timeUnit text)) = entriesOf text := by
          refine (map_congr_left fun row hrow => ?_).trans (map_id' _)
          obtain ⟨line, -, hline⟩ := mem_filterMap.mp hrow
          have hfit := (entryOf_eq_some_iff.mp hline).2
          rw [timeUnit, hcsv, if_neg (by decide), scale_eq]
          · simp [TraceTimeUnit.factor]
          · simpa [TraceTimeUnit.factor] using hfit
        refine ⟨by rw [hscale, hentries], by simp [timeUnit, clockMode, hcsv], ?_, ?_, ?_⟩
        · rw [entriesOf, hcsv]
          exact hreads.appends.inInt
        · rw [hentries]
          exact hreads.appends.ordered List.Pairwise.nil
        · simp [hcsv, hreads.skipped]

/-- Where the timestamps fit, every data row is an entry. -/
theorem entriesOf_eq (hfit : ∀ row ∈ dataRows text, InInt64 (microseconds text row)) :
    entriesOf text = dataRows text := by
  refine filterMap_congr fun line hline => ?_
  cases hrow : rowOf (isCsv text) line with
  | none => simp [entryOf, hrow]
  | some row =>
    exact entryOf_eq_some_iff.mpr
      ⟨hrow, inInt64_of_mul (hfit row (mem_filterMap.mpr ⟨line, hline, hrow⟩))⟩

theorem length_headers_le (text : List Char) :
    (headers text).length ≤ ((pieces '\n' text).filter (isSkipped (isCsv text))).length := by
  refine (monotone_filter_right _ fun line h => ?_).length_le
  simp only [isHeader, isSkipped, Bool.and_eq_true, isNone_iff_eq_none] at h ⊢
  exact ⟨h.1, by rw [entryOf, h.2]; rfl⟩

/-- A row of the text with its timestamp in microseconds. -/
def inMicroseconds (text : List Char) (row : GreenTraceEntry) : GreenTraceEntry :=
  { row with timestamp := microseconds text row }

/-- Where the timestamps fit, the entries are the data rows in microseconds, in order. -/
theorem entries_of_parse (h : parse path (some text) = .ok (entries, config))
    (hfit : ∀ row ∈ dataRows text, InInt64 (microseconds text row)) :
    entries = (dataRows text).map (inMicroseconds text) ∧ Ordered (·.timestamp) entries := by
  have hparsed := parsed_of_parse h
  have hrows := entriesOf_eq hfit
  have hentries : entries = (dataRows text).map (inMicroseconds text) := by
    rw [hparsed.entries_eq, hrows]
    exact map_congr_left fun row hrow => scale_eq (hfit row hrow)
  refine ⟨hentries, ?_⟩
  rw [hentries, ← hrows, Ordered, pairwise_map]
  exact hparsed.ordered.imp fun hle => factor_mono _ hle

theorem smCountAtTime_of_parse (h : parse path (some text) = .ok (entries, config))
    (hfit : ∀ row ∈ dataRows text, InInt64 (microseconds text row)) (elapsed defaultSmCount : Int) :
    smCountAtTime entries elapsed defaultSmCount =
      ((lastUpTo (microseconds text) (dataRows text) elapsed).map (·.numSms)).getD
        defaultSmCount := by
  obtain ⟨hentries, hordered⟩ := entries_of_parse h hfit
  have hmap : lastUpTo (·.timestamp) ((dataRows text).map (inMicroseconds text)) elapsed =
      (lastUpTo (microseconds text) (dataRows text) elapsed).map (inMicroseconds text) :=
    lastUpTo_map _ fun _ _ => Iff.rfl
  rw [smCountAtTime_eq hordered, hentries, hmap, Option.map_map]
  rfl

/-- **The entries of an accepted file are its data rows.** The lookup is that of the last row up to
the time, of several rows with one timestamp the last one. -/
theorem parse_rows (h : parse path (some text) = .ok (entries, config))
    (hfit : ∀ row ∈ dataRows text, InInt64 (microseconds text row)) :
    entries = (dataRows text).map (inMicroseconds text) ∧
      (headers text).length ≤ (if isCsv text then 1 else 0) ∧
      entries.Pairwise (fun a b => a.timestamp ≤ b.timestamp) ∧
      ∀ elapsed defaultSmCount, smCountAtTime entries elapsed defaultSmCount =
        match (dataRows text).filter (microseconds text · ≤ elapsed) |>.getLast? with
        | some row => row.numSms
        | none => defaultSmCount := by
  obtain ⟨hentries, hordered⟩ := entries_of_parse h hfit
  refine ⟨hentries, (length_headers_le text).trans (parsed_of_parse h).skipped, hordered,
    fun elapsed d => ?_⟩
  rw [smCountAtTime_of_parse h hfit, lastUpTo]
  cases ((dataRows text).filter fun row => microseconds text row ≤ elapsed).getLast? <;> rfl

/-- A file with a header, a unit, and two rows with one timestamp. -/
def sampleText : List Char :=
  "timestamp,num_sms\n# time_unit = ms\n\n0,8\n 5 , 4 , burst\n5,2,\n".toList

theorem sampleText_rows :
    parse "trace.csv" (some sampleText) =
        .ok ([⟨0, 8, []⟩, ⟨5000, 4, "burst".toList⟩, ⟨5000, 2, []⟩], ⟨.milliseconds, .wall⟩) ∧
      smCountAtTime [⟨0, 8, []⟩, ⟨5000, 4, "burst".toList⟩, ⟨5000, 2, []⟩] 5000 16 = 2 := by
  have h : parse "trace.csv" (some sampleText) =
      .ok ([⟨0, 8, []⟩, ⟨5000, 4, "burst".toList⟩, ⟨5000, 2, []⟩],
        ⟨.milliseconds, .wall⟩) := by
    decide +kernel
  refine ⟨h, ?_⟩
  rw [(parse_rows h (by decide +kernel)).2.2.2]
  decide +kernel

end Accepted

/-! ## Traces that are valid -/

section Validate
variable {entries : List GreenTraceEntry} {validSmCounts : List Int}

theorem validateFrom_ok {i : Nat} {prev : Option GreenTraceEntry}
    (h : validateFrom validSmCounts i prev entries = .ok ()) :
    (∀ entry ∈ entries, validSmCounts ≠ [] → entry.numSms ∈ validSmCounts) ∧
      Ordered (·.timestamp) (prev.toList ++ entries) := by
  induction entries generalizing i prev with
  | nil => exact ⟨by simp, by cases prev <;> simp [Ordered]⟩
  | cons entry entries ih =>
    rw [validateFrom] at h
    split at h
    · cases h
    · rename_i hlast
      split at h
      · cases h
      · rename_i hvalid
        obtain ⟨hmem, hordered⟩ := ih h
        refine ⟨forall_mem_cons.mpr ⟨fun hne => by_contra fun hnot => hvalid ⟨hne, hnot⟩, hmem⟩, ?_⟩
        cases prev with
        | none => exact hordered
        | some last =>
          -- the next entry is not before `last`, nor are those behind it
          have hle : last.timestamp ≤ entry.timestamp := by simpa using hlast
          exact pairwise_cons.mpr ⟨forall_mem_cons.mpr
            ⟨hle, fun e he => Int.le_trans hle ((pairwise_cons.mp hordered).1 e he)⟩, hordered⟩

theorem ordered_of_validate (h : validate entries validSmCounts = .ok ()) :
    Ordered (·.timestamp) entries :=
  (validateFrom_ok h).2

/-- A lookup in a valid trace gives an allowed count. -/
theorem smCountAtTime_mem (h : validate entries validSmCounts = .ok ()) {defaultSmCount : Int}
    (hdefault : defaultSmCount ∈ validSmCounts) (elapsed : Int) :
    smCountAtTime entries elapsed defaultSmCount ∈ validSmCounts := by
  rw [smCountAtTime_eq (ordered_of_validate h)]
  cases hlast : lastUpTo (·.timestamp) entries elapsed with
  | none => exact hdefault
  | some entry =>
    exact (validateFrom_ok h).1 entry (mem_of_mem_filter (mem_of_getLast? hlast))
      (ne_nil_of_mem hdefault)

end Validate

end GreenTraceParser
end Morphling.Scheduler
