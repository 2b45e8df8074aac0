import Morphling.Lib.StableSort
import Morphling.Scheduler.TorchTrace

/-!
# Merging performance logs (`merge_perf_logs.py`)

The server and the devices write a log each. The script reads all of them, keeps the lines that it
knows with their timestamps, sorts by timestamp and writes the lines.

* `Record`: a line in one of the three documented formats. `Line`: what a log may have.
* `foldl_addLine`: what the loop keeps.
* `lossless_iff`: nothing is lost, and the output is the stable sort of the records, exactly if there
  is no `PROFILE_DELTA` record.

`str.isdigit` is that of the digits `0` to `9`. What the script prints is left out.
-/

namespace Morphling.MergeLogs

open Text StableSort List
open Scheduler.TorchTrace (strip int universalNewlines)

/-! ## The script -/

/-- `parse_vtime_event` -/
def parseVtimeEvent (line : List Char) : Option (Int × List Char) :=
  match split ',' (strip line) with
  | _ :: timestampUs :: _ => (int timestampUs).map fun timestampUs => (timestampUs, line)
  | _ => none

/-- `str.isdigit` -/
def isDigits (s : List Char) : Bool := !s.isEmpty && s.all Char.isDigit

/-- `parse_throughput_event` -/
def parseThroughputEvent (line : List Char) : Option (Int × List Char) :=
  match split ',' (strip line) with
  | timestampUs :: _ =>
    if isDigits timestampUs then (int timestampUs).map fun timestampUs => (timestampUs, line)
    else none
  | [] => none

/-- The local variables of `merge_logs`. -/
structure Merge where
  allEvents : List (Int × List Char) := []
  headerWritten : Bool := false

/-- `timestamp_us,` -/
def headerStart : List Char := ['t', 'i', 'm', 'e', 's', 't', 'a', 'm', 'p', '_', 'u', 's', ',']

/-- `VTIME,` -/
def vtimeStart : List Char := ['V', 'T', 'I', 'M', 'E', ',']

/-- `PROFILE_DELTA,` -/
def profileDeltaStart : List Char :=
  ['P', 'R', 'O', 'F', 'I', 'L', 'E', '_', 'D', 'E', 'L', 'T', 'A', ',']

/-- The body of the loop over the lines. -/
def addLine (m : Merge) (line : List Char) : Merge :=
  if line = [] then m
  else if headerStart.isPrefixOf line || line.head? = some '#' then
    if !m.headerWritten && headerStart.isPrefixOf line then
      ⟨m.allEvents ++ [(0, line)], true⟩
    else m
  else if vtimeStart.isPrefixOf line then
    { m with allEvents := m.allEvents ++ (parseVtimeEvent line).toList }
  else if line.head?.any Char.isDigit then
    { m with allEvents := m.allEvents ++ (parseThroughputEvent line).toList }
  else m

def vtimeHeader : List Char :=
  '#' :: (" VTIME format: VTIME,timestamp_us,device_id,gemm_id,phase,event," ++
    "vt_start_us,vt_end_us,vt_duration_us").toList

def throughputHeader : List Char :=
  '#' :: (" Throughput format: timestamp_us,device_id,gemm_id,direction,bytes,throughput_b_s," ++
    "epoch_start_us,epoch_end_us,packet_duration_us").toList

structure LogFile where
  name : List Char
  content : List Char

def LogFile.lines (f : LogFile) : List (List Char) := pieces '\n' (universalNewlines f.content)

/-- The order of strings. -/
def nameLE : List Char → List Char → Bool
  | [], _ => true
  | _ :: _, [] => false
  | c :: s, d :: t => c.toNat < d.toNat || (c == d && nameLE s t)

/-- `perf_*.log` -/
def isPerfLog (name : List Char) : Bool :=
  "perf_".toList.isPrefixOf name && ".log".toList.isSuffixOf (name.drop 5)

/-- `sorted(log_dir.glob("perf_*.log"))` -/
def logFiles (dir : List LogFile) : List LogFile :=
  (dir.filter fun f => isPerfLog f.name).mergeSort fun f g => nameLE f.name g.name

/-- `merge_logs`: the lines of the output. -/
def mergeLogs (dir : List LogFile) : Option (List (List Char)) :=
  let files := logFiles dir
  if files.isEmpty then none
  else
    let m := files.foldl (fun m f => f.lines.foldl addLine m) {}
    let allEvents :=
      if m.headerWritten then m.allEvents
      else (0, vtimeHeader) :: (0, throughputHeader) :: m.allEvents
    some ((allEvents.mergeSort fun a b => a.1 ≤ b.1).map Prod.snd)

/-! ## The logs -/

inductive Format where
  | vtime
  | throughput
  | profileDelta
  deriving DecidableEq

def Format.tag : Format → List Char
  | vtime => vtimeStart
  | throughput => []
  | profileDelta => profileDeltaStart

/-- A record: its format, its timestamp and its other fields. -/
structure Record where
  format : Format
  timestampUs : Nat
  fields : List Char
  positive : 0 < timestampUs
  fits : timestampUs < 2 ^ 64
  deriving DecidableEq

def Record.line (r : Record) : List Char :=
  r.format.tag ++ (Nat.toDigits 10 r.timestampUs ++ ',' :: r.fields)

inductive Line where
  | blank
  | comment (text : List Char)
  | header (text : List Char)
  | record (r : Record)

namespace Line

def text : Line → List Char
  | blank => []
  | comment text => '#' :: text
  | header text => headerStart ++ text
  | record r => r.line

def record? : Line → Option Record
  | record r => some r
  | _ => none

end Line

/-- All records of the logs, in the order of the files. -/
def records (dir : List LogFile) (linesOf : LogFile → List Line) : List Record :=
  (logFiles dir).flatMap fun f => (linesOf f).filterMap Line.record?

def IsHeader (line : List Char) : Prop := headerStart <+: line ∨ ['#'] <+: line

/-- After its headers the output has every record, in the order of the timestamps, and those of one
timestamp in the order of the logs. -/
def Lossless (dir : List LogFile) (linesOf : LogFile → List Line) : Prop :=
  ∃ (headers : List (List Char)) (out : List Record),
    mergeLogs dir = some (headers ++ out.map Record.line) ∧
    (∀ line ∈ headers, IsHeader line) ∧ out.Perm (records dir linesOf) ∧
    out.Pairwise (fun r r' => r.timestampUs ≤ r'.timestampUs) ∧
    ∀ t, (out.filter fun r => r.timestampUs = t) =
      (records dir linesOf).filter fun r => r.timestampUs = t

/-! ## Lines of the three formats -/

theorem not_isSpace_of_isDigit {c : Char} (h : c.isDigit = true) :
    Scheduler.TorchTrace.isSpace c = false := by
  have hdigit := Char.isDigit_iff_toNat.mp h
  simp only [Char.reduceToNat] at hdigit
  simp only [Scheduler.TorchTrace.isSpace, decide_eq_false_iff_not]
  omega

theorem int_toDigits {n : Nat} (h : n < 2 ^ 64) : int (Nat.toDigits 10 n) = some (n : Int) :=
  Scheduler.TorchTrace.int_showInt (n := (n : Int)) h

section Lines
variable {r : Record} {s : List Char}

theorem comma_notMem_toDigits (n : Nat) : ',' ∉ Nat.toDigits 10 n := fun h =>
  absurd (isDigit_of_mem_toDigits h) (by decide)

theorem comma_not_isSpace : Scheduler.TorchTrace.isSpace ',' = false := by
  decide

/-- What comes before a comma is not stripped. -/
theorem split_strip {c : Char} (hc : Scheduler.TorchTrace.isSpace c = false) (fields : List Char) :
    ∃ fields', strip (c :: s ++ ',' :: fields) = c :: s ++ ',' :: fields' :=
  ⟨_, trim_append_cons (by simp [hc]) comma_not_isSpace⟩

theorem parseVtimeEvent_line (h : r.format = .vtime) :
    parseVtimeEvent r.line = some ((r.timestampUs : Int), r.line) := by
  have hline : r.line =
      'V' :: (['T', 'I', 'M', 'E', ','] ++ Nat.toDigits 10 r.timestampUs) ++ ',' :: r.fields := by
    simp only [Record.line, h, Format.tag, vtimeStart, cons_append, nil_append]
  obtain ⟨fields', hstrip⟩ := split_strip (c := 'V') (by decide) r.fields
    (s := ['T', 'I', 'M', 'E', ','] ++ Nat.toDigits 10 r.timestampUs)
  have hsplit : split ',' (strip r.line) =
      ['V', 'T', 'I', 'M', 'E'] :: Nat.toDigits 10 r.timestampUs :: split ',' fields' := by
    have hcut : strip r.line =
        ['V', 'T', 'I', 'M', 'E'] ++ ',' :: (Nat.toDigits 10 r.timestampUs ++ ',' :: fields') := by
      rw [hline, hstrip]
      simp only [cons_append, nil_append]
    rw [hcut, split_append (by decide), split_append (comma_notMem_toDigits _)]
  rw [parseVtimeEvent, hsplit]
  simp only [int_toDigits r.fits, Option.map_some]

theorem parseThroughputEvent_line (h : r.format = .throughput) :
    parseThroughputEvent r.line = some ((r.timestampUs : Int), r.line) := by
  obtain ⟨c, s, hdigits⟩ := exists_cons_of_ne_nil
    (Nat.toDigits_ne_nil (n := r.timestampUs) (b := 10))
  have hall : ∀ d ∈ Nat.toDigits 10 r.timestampUs, d.isDigit = true := fun _ =>
    isDigit_of_mem_toDigits
  have hline : r.line = c :: s ++ ',' :: r.fields := by
    rw [Record.line, h, hdigits]
    rfl
  obtain ⟨fields', hstrip⟩ := split_strip (s := s)
    (not_isSpace_of_isDigit (hall c (hdigits ▸ mem_cons_self))) r.fields
  have hsplit : split ',' (strip r.line) = Nat.toDigits 10 r.timestampUs :: split ',' fields' := by
    rw [hline, hstrip, ← hdigits, split_append (comma_notMem_toDigits _)]
  have hdigit : isDigits (Nat.toDigits 10 r.timestampUs) = true := by
    rw [isDigits, Bool.and_eq_true, all_eq_true]
    exact ⟨by simp [hdigits], hall⟩
  rw [parseThroughputEvent, hsplit]
  simp only [hdigit, if_true, int_toDigits r.fits, Option.map_some]

theorem isPrefixOf_eq_false {c : Char} {line : List Char} (h : line.head? ≠ some c) :
    (c :: s).isPrefixOf line = false := by
  cases line with
  | nil => rfl
  | cons d line =>
    have hne : ¬ c = d := fun heq => h (by rw [heq]; rfl)
    simp [List.isPrefixOf, hne]

theorem head?_line (r : Record) : match r.format with
    | .vtime => r.line.head? = some 'V'
    | .profileDelta => r.line.head? = some 'P'
    | .throughput => ∃ c, r.line.head? = some c ∧ c.isDigit = true := by
  cases h : r.format with
  | vtime => simp only [Record.line, h, Format.tag, vtimeStart, cons_append, head?_cons]
  | profileDelta =>
    simp only [Record.line, h, Format.tag, profileDeltaStart, cons_append, head?_cons]
  | throughput =>
    obtain ⟨c, s, hdigits⟩ := exists_cons_of_ne_nil
      (Nat.toDigits_ne_nil (n := r.timestampUs) (b := 10))
    refine ⟨c, ?_, isDigit_of_mem_toDigits (n := r.timestampUs) (hdigits ▸ mem_cons_self)⟩
    simp only [Record.line, h, Format.tag, hdigits, nil_append, cons_append,
      head?_cons]

/-- A record of a format that the script knows is kept; another one is not. -/
theorem addLine_line (m : Merge) (r : Record) :
    addLine m r.line = if r.format = .profileDelta then m
      else { m with allEvents := m.allEvents ++ [((r.timestampUs : Int), r.line)] } := by
  have hheader : headerStart = 't' :: headerStart.tail := rfl
  have hvtime : vtimeStart = 'V' :: vtimeStart.tail := rfl
  have hhead := head?_line r
  cases hformat : r.format with
  | vtime =>
    simp only [hformat] at hhead
    have hpre : vtimeStart.isPrefixOf r.line = true := by
      rw [Record.line, hformat, isPrefixOf_iff_prefix]
      exact prefix_append _ _
    rw [addLine, if_neg (by rintro h; simp [h] at hhead), hheader,
      isPrefixOf_eq_false (by simp [hhead]), hhead, if_neg (by decide), if_pos hpre,
      parseVtimeEvent_line hformat]
    rfl
  | profileDelta =>
    simp only [hformat] at hhead
    rw [addLine, if_neg (by rintro h; simp [h] at hhead), hheader,
      isPrefixOf_eq_false (by simp [hhead]), hhead, if_neg (by decide), hvtime,
      isPrefixOf_eq_false (by simp [hhead])]
    rfl
  | throughput =>
    simp only [hformat] at hhead
    obtain ⟨c, hhead, hdigit⟩ := hhead
    have hne : ∀ d : Char, d.isDigit = false → r.line.head? ≠ some d := by
      rintro d hd h
      rw [hhead] at h
      cases h
      rw [hdigit] at hd
      cases hd
    rw [addLine, if_neg (by rintro h; simp [h] at hhead), hheader,
      isPrefixOf_eq_false (hne 't' (by decide)), if_neg (by simp [hne '#' (by decide)]), hvtime,
      isPrefixOf_eq_false (hne 'V' (by decide)), if_neg (by decide), hhead,
      if_pos (by simpa using hdigit), parseThroughputEvent_line hformat]
    rfl

end Lines

/-! ## The loop -/

/-- The records that the script keeps. -/
def known (records : List Record) : List Record := records.filter (·.format ≠ .profileDelta)

def event (r : Record) : Int × List Char := (r.timestampUs, r.line)

/-- What was kept so far are these records, and a header in front of, behind or between them. -/
def Collected (m : Merge) (kept : List Record) : Prop :=
  (m.headerWritten = false ∧ m.allEvents = kept.map event) ∨
    m.headerWritten = true ∧ ∃ before after text, kept = before ++ after ∧
      m.allEvents = before.map event ++ (0, headerStart ++ text) :: after.map event

variable {m : Merge} {kept : List Record}

theorem Collected.addEvent (h : Collected m kept) (r : Record) :
    Collected { m with allEvents := m.allEvents ++ [event r] } (kept ++ [r]) := by
  rcases h with ⟨hno, hevents⟩ | ⟨hyes, before, after, text, hkept, hevents⟩
  · exact .inl ⟨hno, by rw [hevents, map_append]; rfl⟩
  · refine .inr ⟨hyes, before, after ++ [r], text, by rw [hkept, append_assoc], ?_⟩
    rw [hevents, map_append, append_assoc]
    rfl

theorem addLine_header (m : Merge) (text : List Char) :
    addLine m (headerStart ++ text) =
      if m.headerWritten then m else ⟨m.allEvents ++ [(0, headerStart ++ text)], true⟩ := by
  have hpre : headerStart.isPrefixOf (headerStart ++ text) = true :=
    isPrefixOf_iff_prefix.mpr (prefix_append _ _)
  have hne : headerStart ++ text ≠ [] := by simp [headerStart]
  simp only [addLine, hne, if_false, hpre, Bool.true_or, if_true, Bool.and_true]
  cases m.headerWritten <;> rfl

theorem addLine_comment (m : Merge) (text : List Char) : addLine m ('#' :: text) = m := by
  have hpre : headerStart.isPrefixOf ('#' :: text) = false :=
    isPrefixOf_eq_false (s := headerStart.tail) (by simp)
  simp [addLine, hpre]

/-- One line. -/
theorem Collected.addLine (h : Collected m kept) (line : Line) :
    Collected (addLine m line.text) (kept ++ known line.record?.toList) := by
  cases line with
  | blank => simpa [MergeLogs.addLine, Line.text, Line.record?, known] using h
  | comment text => simpa [addLine_comment, Line.text, Line.record?, known] using h
  | header text =>
    rw [Line.text, addLine_header]
    have hkept : kept ++ known (Line.header text).record?.toList = kept := by
      simp [Line.record?, known]
    rw [hkept]
    rcases h with ⟨hno, hevents⟩ | hyes
    · rw [if_neg (by simp [hno])]
      exact .inr ⟨rfl, kept, [], text, by simp, by simp [hevents]⟩
    · rw [if_pos hyes.1]
      exact .inr hyes
  | record r =>
    rw [Line.text, addLine_line]
    split
    · rename_i hformat
      simpa [Line.record?, known, hformat] using h
    · rename_i hformat
      simpa [Line.record?, known, hformat, event] using h.addEvent r

theorem Collected.foldl_addLine (h : Collected m kept) (lines : List Line) :
    Collected ((lines.map Line.text).foldl MergeLogs.addLine m)
      (kept ++ known (lines.filterMap Line.record?)) := by
  induction lines generalizing m kept with
  | nil => simpa [known] using h
  | cons line lines ih =>
    have := ih (h.addLine line)
    rw [append_assoc] at this
    rw [map_cons, foldl_cons]
    have hcons : known ((line :: lines).filterMap Line.record?) =
        known line.record?.toList ++ known (lines.filterMap Line.record?) := by
      rw [known, known, known, ← filter_append, filterMap_cons]
      cases line.record? <;> rfl
    rw [hcons]
    exact this

variable {linesOf : LogFile → List Line}

/-- All files. -/
theorem Collected.foldl_files (h : Collected m kept) {files : List LogFile}
    (hlines : ∀ f ∈ files, f.lines = (linesOf f).map Line.text) :
    Collected (files.foldl (fun m f => f.lines.foldl MergeLogs.addLine m) m)
      (kept ++ known (files.flatMap fun f => (linesOf f).filterMap Line.record?)) := by
  induction files generalizing m kept with
  | nil => simpa [known] using h
  | cons f files ih =>
    have hf : Collected (f.lines.foldl MergeLogs.addLine m) _ :=
      hlines f mem_cons_self ▸ h.foldl_addLine (linesOf f)
    have := ih hf fun g hg => hlines g (mem_cons_of_mem f hg)
    rw [append_assoc, known, known, ← filter_append] at this
    exact this

/-! ## The output -/

/-- The records in the order of their timestamps. -/
def sorted (records : List Record) : List Record :=
  records.mergeSort fun r r' => (event r).1 ≤ (event r').1

theorem isStableSort_sorted (records : List Record) :
    IsStableSort Prod.fst (records.map event) ((sorted records).map event) :=
  (isStableSort_mergeSort (fun r => (event r).1) records).map event

theorem event_pos {records : List Record} {e : Int × List Char} (he : e ∈ records.map event) :
    0 < e.1 := by
  obtain ⟨r, -, rfl⟩ := mem_map.mp he
  exact Int.natCast_pos.mpr r.positive

/-- A header has the timestamp zero, and so comes first. -/
theorem Collected.sort_of_header {before after : List Record} {header : List Char} :
    IsStableSort Prod.fst (before.map event ++ (0, header) :: after.map event)
      ((0, header) :: (sorted (before ++ after)).map event) := by
  refine IsStableSort.insert ?_ (fun e he => event_pos he) fun e he => Int.le_of_lt (event_pos he)
  rw [← map_append]
  exact isStableSort_sorted _

theorem Collected.sort_of_no_header (kept : List Record) (header header' : List Char) :
    IsStableSort Prod.fst ((0, header) :: (0, header') :: kept.map event)
      ((0, header) :: (0, header') :: (sorted kept).map event) := by
  have hinner : IsStableSort Prod.fst ([] ++ (0, header') :: kept.map event) _ :=
    (isStableSort_sorted kept).insert (by simp) fun e he => Int.le_of_lt (event_pos he)
  have hle : ∀ e ∈ (0, header') :: kept.map event, 0 ≤ e.1 := by
    intro e he
    rcases mem_cons.mp he with rfl | he
    exacts [Int.le_refl _, Int.le_of_lt (event_pos he)]
  have houter : IsStableSort Prod.fst ([] ++ (0, header) :: (0, header') :: kept.map event) _ :=
    IsStableSort.insert hinner (by simp) hle
  exact houter

theorem isHeader_cons (text : List Char) : IsHeader ('#' :: text) := .inr ⟨text, rfl⟩

/-- The output: headers, and the stable sort of the records that were kept. -/
theorem mergeLogs_eq {dir : List LogFile}
    (hlines : ∀ f ∈ logFiles dir, f.lines = (linesOf f).map Line.text) (hfiles : logFiles dir ≠ []) :
    ∃ headers, mergeLogs dir =
        some (headers ++ (sorted (known (records dir linesOf))).map Record.line) ∧
      ∀ line ∈ headers, IsHeader line := by
  have hinit : Collected {} [] := .inl ⟨rfl, rfl⟩
  have hcollected := hinit.foldl_files hlines
  rw [nil_append] at hcollected
  have hline : ∀ kept : List Record, ((sorted kept).map event).map Prod.snd =
      (sorted kept).map Record.line := fun kept => by rw [map_map]; rfl
  simp only [mergeLogs, List.isEmpty_iff, hfiles, if_false]
  rcases hcollected with ⟨hno, hevents⟩ | ⟨hyes, before, after, text, hkept, hevents⟩
  · refine ⟨[vtimeHeader, throughputHeader], ?_, ?_⟩
    · rw [hno, hevents, if_neg (by decide), (isStableSort_mergeSort Prod.fst _).unique
        (Collected.sort_of_no_header _ vtimeHeader throughputHeader)]
      simp only [map_cons, hline, cons_append, nil_append]
      rfl
    · intro line hline
      have hcases : line = vtimeHeader ∨ line = throughputHeader := by simpa using hline
      rcases hcases with rfl | rfl
      exacts [isHeader_cons _, isHeader_cons _]
  · refine ⟨[headerStart ++ text], ?_, ?_⟩
    · rw [hyes, hevents, if_pos rfl, (isStableSort_mergeSort Prod.fst _).unique
        Collected.sort_of_header, ← hkept]
      simp only [map_cons, hline, cons_append, nil_append]
      rfl
    · simp only [mem_singleton, forall_eq]
      exact .inl (prefix_append _ _)

/-- No line of the output is a `PROFILE_DELTA` record. -/
theorem head?_ne_of_isHeader {line : List Char} (h : IsHeader line) : line.head? ≠ some 'P' := by
  rcases h with ⟨t, rfl⟩ | ⟨t, rfl⟩ <;> simp [headerStart]

theorem head?_ne_of_known {r : Record} (h : r.format ≠ .profileDelta) : r.line.head? ≠ some 'P' := by
  have hhead := head?_line r
  cases hformat : r.format with
  | vtime =>
    simp only [hformat] at hhead
    simp [hhead]
  | profileDelta => exact absurd hformat h
  | throughput =>
    simp only [hformat] at hhead
    obtain ⟨c, hhead, hdigit⟩ := hhead
    rw [hhead]
    rintro ⟨⟩
    cases hdigit

/-- The output is the stable sort of all records exactly if no record is a `PROFILE_DELTA`. -/
theorem lossless_iff {dir : List LogFile} {linesOf : LogFile → List Line}
    (hlines : ∀ f ∈ logFiles dir, f.lines = (linesOf f).map Line.text) (hfiles : logFiles dir ≠ []) :
    Lossless dir linesOf ↔ ∀ r ∈ records dir linesOf, r.format ≠ .profileDelta := by
  obtain ⟨headers, hmerge, hheaders⟩ := mergeLogs_eq hlines hfiles
  constructor
  · rintro ⟨headers', out, hmerge', -, hperm, -⟩ r hr hformat
    have hmem : r.line ∈ headers ++ (sorted (known (records dir linesOf))).map Record.line := by
      rw [← Option.some.inj (hmerge'.symm.trans hmerge)]
      exact mem_append_right _ (mem_map_of_mem (hperm.mem_iff.mpr hr))
    have hhead := head?_line r
    simp only [hformat] at hhead
    rcases mem_append.mp hmem with hmem | hmem
    · exact head?_ne_of_isHeader (hheaders _ hmem) hhead
    · obtain ⟨r', hr', hline⟩ := mem_map.mp hmem
      have hknown : r'.format ≠ .profileDelta := by
        simpa using (mem_filter.mp (mem_mergeSort.mp hr')).2
      exact head?_ne_of_known hknown (hline ▸ hhead)
  · intro hall
    have hknown : known (records dir linesOf) = records dir linesOf :=
      filter_eq_self.mpr fun r hr => by simpa using hall r hr
    rw [hknown] at hmerge
    have hsort := isStableSort_mergeSort (fun r => (event r).1) (records dir linesOf)
    refine ⟨headers, _, hmerge, hheaders, hsort.perm, ?_, fun t => ?_⟩
    · exact hsort.sorted.imp Int.ofNat_le.mp
    · have hsame := hsort.same t
      simp only [event, Int.natCast_inj] at hsame
      exact hsame

def serverName : List Char := "perf_server.log".toList

def serverLog (content : List Char) : LogFile := ⟨serverName, content⟩

theorem logFiles_serverLog (content : List Char) :
    logFiles [serverLog content] = [serverLog content] := by
  have hglob : isPerfLog serverName = true := by decide
  have hfilter : ([serverLog content].filter fun f => isPerfLog f.name) = [serverLog content] :=
    filter_eq_self.mpr fun f hf => by rw [mem_singleton.mp hf]; exact hglob
  rw [logFiles, hfilter, mergeSort_singleton]

theorem one_fits : 1 < 2 ^ 64 := by
  decide

theorem two_fits : 2 < 2 ^ 64 := by
  decide

/-- The fields behind the timestamp. -/
def sampleFields : Format → List Char
  | .vtime => "0,7,COMPUTE,START,100,100,0".toList
  | .throughput => "0,7,DOWNLOAD,131153,70022.96,50,60,10".toList
  | .profileDelta => ("0,42,1000,500,1,0.500000,2000,1000,0.500000,4000,6000,1.500000,1000,1000," ++
      "250000").toList

/-- Two records that change places. -/
def twoRecords : List Line :=
  [.record ⟨.vtime, 2, sampleFields .vtime, Nat.two_pos, two_fits⟩,
    .record ⟨.throughput, 1, sampleFields .throughput, Nat.one_pos, one_fits⟩]

def twoRecordsLog : LogFile := serverLog
  ("VTIME,2,0,7,COMPUTE,START,100,100,0\n" ++ "1,0,7,DOWNLOAD,131153,70022.96,50,60,10\n").toList

theorem twoRecords_lossless : Lossless [twoRecordsLog] fun _ => twoRecords := by
  refine (lossless_iff ?_ ?_).mpr ?_
  · rw [twoRecordsLog, logFiles_serverLog]
    simp only [mem_singleton, forall_eq]
    decide +kernel
  · rw [twoRecordsLog, logFiles_serverLog]
    exact cons_ne_nil _ _
  · rw [twoRecordsLog, records, logFiles_serverLog]
    decide

def oneProfile : Record :=
  ⟨.profileDelta, 1, sampleFields .profileDelta, Nat.one_pos, one_fits⟩

def oneProfileLog : LogFile := serverLog
  ("PROFILE_DELTA,1,0,42,1000,500,1,0.500000,2000,1000,0.500000,4000,6000,1.500000,1000,1000," ++
    "250000\n").toList

/-- The only record of the log is missing in the output. -/
theorem oneProfile_lost :
    mergeLogs [oneProfileLog] = some [vtimeHeader, throughputHeader] ∧
      oneProfileLog.lines = [oneProfile.line] ∧
      ¬ Lossless [oneProfileLog] fun _ => [.record oneProfile] := by
  have hlines : oneProfileLog.lines = [oneProfile.line] := by decide +kernel
  have hfiles : logFiles [oneProfileLog] = [oneProfileLog] := logFiles_serverLog _
  have hmerge : mergeLogs [oneProfileLog] = some [vtimeHeader, throughputHeader] := by
    have hadd : addLine {} oneProfile.line = {} := addLine_line {} oneProfile
    simp only [mergeLogs, hfiles, foldl_cons, foldl_nil, hlines, hadd]
    rw [if_neg (by simp), if_neg (by simp), mergeSort_of_pairwise (by simp)]
    rfl
  refine ⟨hmerge, hlines, ?_⟩
  rintro ⟨headers, out, hmerge', -, hperm, -⟩
  have hout : oneProfile.line ∈ headers ++ out.map Record.line :=
    mem_append_right _ (mem_map_of_mem (hperm.mem_iff.mpr
      (by simp [records, hfiles, Line.record?])))
  rw [← Option.some.inj (hmerge.symm.trans hmerge')] at hout
  have hcases : oneProfile.line = vtimeHeader ∨ oneProfile.line = throughputHeader := by
    simpa using hout
  rcases hcases with h | h <;> exact absurd (congrArg List.head? h) (by decide)

end Morphling.MergeLogs
