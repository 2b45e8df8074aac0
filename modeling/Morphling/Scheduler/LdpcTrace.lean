import Morphling.Scheduler.TorchTrace

/-!
# LDPC traces (`runtime/ldpc_trace_adapter.py`)

The adapter turns an LDPC trace into a CSV file for the trace parsers: the timestamps are
nanoseconds, and the SMs of a row are those that LDPC decoding leaves free.

* `toV2File`: the text that is written.
* `smCountAtTime_toV2File`, `torchCount_toV2File`: what the two parsers make of it. They take its
  timestamps for microseconds.
* `ldpc_schedule_iff`: so the schedule comes out right only if it does not change after the first
  nanosecond.

The values of the frame are `int64`. `pandas.read_csv` and the conversions of `__init__` are before
the model; a frame without rows is refused there.
-/

namespace Morphling.Scheduler

open Text StepFunction List
open GreenTraceParser hiding trim

/-- A row of the frame, as far as the conversion reads it. -/
structure LdpcRow where
  timeSlotSchedNs : Int
  smCount : Int
  profileIdx : Int
  deriving DecidableEq

/-- `LdpcTraceAdapter` after `__init__`. -/
structure LdpcTraceAdapter where
  totalSms : Int
  rows : List LdpcRow
  totalSms_pos : 0 < totalSms
  totalSms_int64 : InInt64 totalSms
  rows_ne : rows ≠ []
  rows_int64 : ∀ row ∈ rows,
    InInt64 row.timeSlotSchedNs ∧ InInt64 row.smCount ∧ InInt64 row.profileIdx

namespace LdpcTraceAdapter

variable (adapter : LdpcTraceAdapter)

/-- `effective_sm_count`. -/
def effectiveSmCount (row : LdpcRow) : Int := min (max row.smCount 0) adapter.totalSms

/-- `num_sms` of the new frame. -/
def numSms (row : LdpcRow) : Int := adapter.totalSms - adapter.effectiveSmCount row

/-- A row of `to_v2_dataframe`. -/
def v2Row (row : LdpcRow) : GreenTraceEntry where
  timestamp := row.timeSlotSchedNs
  numSms := adapter.numSms row
  tag := showInt row.profileIdx

/-- A line of the file. -/
def csvLine (entry : GreenTraceEntry) : List Char :=
  showInt entry.timestamp ++ ',' :: (showInt entry.numSms ++ ',' :: entry.tag)

def header : List Char := "timestamp_ns,num_sms,tag".toList

/-- `to_v2_file`. -/
def toV2File : List Char :=
  (header :: adapter.rows.map fun row => csvLine (adapter.v2Row row)).flatMap (· ++ ['\n'])

/-- The count that the trace means at `elapsed` microseconds. -/
def intendedSmCount (elapsed defaultSmCount : Int) : Int :=
  match (adapter.rows.filter fun row => row.timeSlotSchedNs ≤ 1000 * elapsed).getLast? with
  | some row => adapter.totalSms - min (max row.smCount 0) adapter.totalSms
  | none => defaultSmCount

/-- The free SMs at `ns` nanoseconds; `none` before the first row. -/
def freeSms (ns : Int) : Option Int :=
  (lastUpTo (·.timeSlotSchedNs) adapter.rows ns).map adapter.numSms

theorem intendedSmCount_eq (elapsed defaultSmCount : Int) :
    adapter.intendedSmCount elapsed defaultSmCount =
      (adapter.freeSms (1000 * elapsed)).getD defaultSmCount := by
  rw [intendedSmCount, freeSms, lastUpTo]
  cases (adapter.rows.filter fun row => row.timeSlotSchedNs ≤ 1000 * elapsed).getLast? <;> rfl

/-! ## The lines of the file -/

/-- A digit, a minus sign or a comma. -/
def IsNumeric (c : Char) : Prop := c.isDigit = true ∨ c = '-' ∨ c = ','

section Lines

variable {adapter} {row : LdpcRow} {c d : Char} {n : Int}

theorem isNumeric_of_mem_showInt (h : c ∈ showInt n) : IsNumeric c :=
  (mem_showInt h).elim (fun h => .inr (.inl h)) .inl

theorem ne_of_mem_showInt (hd : d.isDigit = false) (hd' : d ≠ '-') : d ∉ showInt n := by
  intro h
  rcases mem_showInt h with rfl | h
  · exact hd' rfl
  · simp [hd] at h

theorem isNumeric_of_mem_csvLine (h : c ∈ csvLine (adapter.v2Row row)) : IsNumeric c := by
  simp only [csvLine, v2Row, mem_append, mem_cons] at h
  rcases h with h | rfl | h | rfl | h
  · exact isNumeric_of_mem_showInt h
  · exact .inr (.inr rfl)
  · exact isNumeric_of_mem_showInt h
  · exact .inr (.inr rfl)
  · exact isNumeric_of_mem_showInt h

theorem isPlain_of_isNumeric (h : IsNumeric c) : TorchTrace.IsPlain c := by
  rcases h with h | rfl | rfl
  · have := Char.isDigit_iff_toNat.mp h
    exact .inr (.inr (by simp only [Char.reduceToNat] at this; omega))
  · decide
  · decide

theorem notMem_of_not_isNumeric (hd : ¬ IsNumeric d) : d ∉ csvLine (adapter.v2Row row) :=
  fun h => hd (isNumeric_of_mem_csvLine h)

theorem not_isBlank_of_isNumeric (h : IsNumeric c) :
    decide (c ∈ [' ', '\t', '\r', '\n']) = false := by
  rw [decide_eq_false_iff_not]
  intro hmem
  simp only [mem_cons, not_mem_nil, or_false] at hmem
  rcases hmem with rfl | rfl | rfl | rfl <;> revert h <;> simp [IsNumeric]

theorem trim_csvLine :
    GreenTraceParser.trim (csvLine (adapter.v2Row row)) = csvLine (adapter.v2Row row) :=
  trim_eq_self fun _ hc => not_isBlank_of_isNumeric (isNumeric_of_mem_csvLine hc)

theorem head_csvLine : (csvLine (adapter.v2Row row)).head? ≠ some '#' := by
  intro h
  exact notMem_of_not_isNumeric (by simp [IsNumeric]) (mem_of_head? h)

theorem isRow_csvLine : isRow (csvLine (adapter.v2Row row)) = true := by
  refine isRow_eq_true ?_ ?_
  · rw [trim_csvLine]
    simp [csvLine]
  · rw [trim_csvLine]
    exact head_csvLine

theorem pieces_csvLine :
    pieces ',' (csvLine (adapter.v2Row row)) =
      [showInt row.timeSlotSchedNs, showInt (adapter.numSms row), showInt row.profileIdx] := by
  have hcomma : ∀ n : Int, ',' ∉ showInt n := fun n => ne_of_mem_showInt (by decide) (by decide)
  rw [csvLine, v2Row, pieces_append (hcomma _), pieces_append (hcomma _),
    pieces_of_notMem (hcomma _) (showInt_ne_nil _)]

theorem trim_showInt (n : Int) : GreenTraceParser.trim (showInt n) = showInt n :=
  trim_eq_self fun _ hc => not_isBlank_of_isNumeric (isNumeric_of_mem_showInt hc)

theorem fields_csvLine :
    fields (csvLine (adapter.v2Row row)) =
      [showInt row.timeSlotSchedNs, showInt (adapter.numSms row), showInt row.profileIdx] := by
  rw [fields, trim_csvLine, pieces_csvLine]
  simp [trim_showInt]

theorem rowOf_csvLine :
    rowOf true (csvLine (adapter.v2Row row)) = some (adapter.v2Row row) := by
  rw [rowOf_of_fields isRow_csvLine fields_csvLine (by simp), toInt_showInt,
    toInt_showInt]
  rfl

theorem numSms_mem (adapter : LdpcTraceAdapter) (row : LdpcRow) :
    0 ≤ adapter.numSms row ∧ adapter.numSms row ≤ adapter.totalSms := by
  have := adapter.totalSms_pos
  unfold numSms effectiveSmCount
  omega

theorem numSms_int64 (adapter : LdpcTraceAdapter) (row : LdpcRow) :
    InInt64 (adapter.numSms row) := by
  have hmem := adapter.numSms_mem row
  have htotal := adapter.totalSms_int64
  unfold InInt64 at *
  omega

theorem int_showInt (h : InInt64 n) : TorchTrace.int (showInt n) = some n :=
  TorchTrace.int_showInt (by unfold InInt64 at h; omega)

/-- The Torch parser reads the same row. -/
theorem torch_csvLine (hrow : InInt64 row.timeSlotSchedNs) :
    TorchTrace.rowOf (csvLine (adapter.v2Row row)) =
        some (row.timeSlotSchedNs, adapter.numSms row) ∧
      TorchTrace.unitOf (csvLine (adapter.v2Row row)) = none := by
  have hstrip : TorchTrace.strip (csvLine (adapter.v2Row row)) = csvLine (adapter.v2Row row) := by
    rw [TorchTrace.strip_eq_trim fun c hc => isPlain_of_isNumeric (isNumeric_of_mem_csvLine hc),
      trim_csvLine]
  have hdir : TorchTrace.directiveOf (csvLine (adapter.v2Row row)) = csvLine (adapter.v2Row row) := by
    simp only [TorchTrace.directiveOf, hstrip, if_neg head_csvLine]
  have hvalue : ∀ (d : Char) (key : List Char), ¬ IsNumeric d → d ∈ key → '=' ∉ key →
      TorchTrace.valueOf key (csvLine (adapter.v2Row row)) = none := fun d key hd hkey heq => by
    by_contra hne
    obtain ⟨value, hvalue⟩ := Option.ne_none_iff_exists'.mp hne
    rw [TorchTrace.valueOf_eq_some_iff heq] at hvalue
    exact notMem_of_not_isNumeric hd (hvalue ▸ mem_append_left _ hkey)
  have hunit := hvalue 't' "time_unit".toList (by simp [IsNumeric]) (by decide) (by decide)
  have hclock := hvalue 'c' "clock_mode".toList (by simp [IsNumeric]) (by decide) (by decide)
  refine ⟨?_, by rw [TorchTrace.unitOf, hdir, hunit]⟩
  rw [TorchTrace.rowOf_eq (by rw [hstrip]; exact head_csvLine) (by rw [TorchTrace.unitOf, hdir, hunit])
    (by rw [TorchTrace.clockOf, hdir, hclock]), hstrip, TorchTrace.entryOf, csvLine, v2Row,
    split_append (ne_of_mem_showInt (by decide) (by decide)),
    split_append (ne_of_mem_showInt (by decide) (by decide))]
  simp [int_showInt hrow, int_showInt (adapter.numSms_int64 row)]

end Lines

/-! ## The file -/

theorem pieces_flatMap {lines : List (List Char)} (h : ∀ line ∈ lines, '\n' ∉ line) :
    pieces '\n' (lines.flatMap (· ++ ['\n'])) = lines := by
  induction lines with
  | nil => rfl
  | cons line lines ih =>
    obtain ⟨hline, hlines⟩ := forall_mem_cons.mp h
    rw [flatMap_cons, append_assoc, singleton_append, pieces_append hline, ih hlines]

/-- The lines of the file. -/
theorem pieces_toV2File :
    pieces '\n' adapter.toV2File =
      header :: adapter.rows.map fun row => csvLine (adapter.v2Row row) := by
  refine pieces_flatMap (forall_mem_cons.mpr ⟨by decide, fun line hline => ?_⟩)
  obtain ⟨row, -, rfl⟩ := mem_map.mp hline
  exact notMem_of_not_isNumeric (by simp [IsNumeric])

theorem isCsv_toV2File : isCsv adapter.toV2File = true := by
  have hheader : isRow header = true := by decide
  have hcomma : ',' ∈ GreenTraceParser.trim header := by decide
  simp [isCsv, pieces_toV2File, hheader, hcomma]

theorem dataRows_toV2File :
    dataRows adapter.toV2File = adapter.rows.map adapter.v2Row := by
  have hheader : rowOf true header = none := by decide
  rw [dataRows, isCsv_toV2File, pieces_toV2File, filterMap_cons_none hheader,
    filterMap_map]
  exact filterMap_eq_map_iff_forall_eq_some.mpr fun row _ => rowOf_csvLine

/-- There is no directive, so the timestamps are taken for microseconds. -/
theorem timeUnit_toV2File : timeUnit adapter.toV2File = .microseconds := by
  have hnone : ∀ line ∈ pieces '\n' adapter.toV2File,
      unitDirective line = none := by
    rw [pieces_toV2File]
    refine forall_mem_cons.mpr ⟨by decide, fun line hline => ?_⟩
    obtain ⟨row, -, rfl⟩ := mem_map.mp hline
    rw [unitDirective,
      valueFor_of_none (directive_of_isRow isRow_csvLine)]
    rfl
  rw [timeUnit, if_pos adapter.isCsv_toV2File, filterMap_eq_nil_iff.mpr hnone]
  rfl

theorem microseconds_toV2File (entry : GreenTraceEntry) :
    microseconds adapter.toV2File entry = entry.timestamp := by
  rw [microseconds, timeUnit_toV2File]
  exact Int.mul_one _

section Parse

variable {adapter} {row : LdpcRow} {lineNum : Nat} {st : V2State}

theorem parseV2Line_csvLine (hns : InInt64 row.timeSlotSchedNs) (hsms : InInt (adapter.numSms row))
    (hlast : ∀ last, st.entries.getLast? = some last → last.timestamp ≤ row.timeSlotSchedNs) :
    parseV2Line lineNum st (csvLine (adapter.v2Row row)) =
      .ok { st with entries := st.entries ++ [adapter.v2Row row] } := by
  have hne : csvLine (adapter.v2Row row) ≠ [] := by simp [csvLine]
  have hpush : pushBack lineNum st.entries (adapter.v2Row row) =
      .ok (st.entries ++ [adapter.v2Row row]) := by
    rw [pushBack, if_neg]
    cases hentries : st.entries.getLast? with
    | none => simp
    | some last =>
      rw [Option.any_some, decide_eq_true_iff]
      exact Int.not_lt.mpr (hlast last hentries)
  simp only [parseV2Line, trim_csvLine, if_neg hne, if_neg head_csvLine,
    fields_csvLine, parseV2Row,
    parseInt64_eq_some_iff.mpr ⟨toInt_showInt _, hns⟩,
    parseInt_eq_some_iff.mpr ⟨toInt_showInt _, hsms⟩]
  exact congrArg (Except.map _) hpush

theorem forLines_csvLine {rows : List LdpcRow}
    (hordered : Ordered (·.timestamp) (st.entries ++ rows.map adapter.v2Row))
    (hrows : ∀ row ∈ rows, InInt64 row.timeSlotSchedNs ∧ InInt (adapter.numSms row)) :
    forLines parseV2Line lineNum st
        (rows.map fun row => csvLine (adapter.v2Row row)) =
      .ok { st with entries := st.entries ++ rows.map adapter.v2Row } := by
  induction rows generalizing st lineNum with
  | nil => simp [forLines]
  | cons row rows ih =>
    obtain ⟨⟨hns, hsms⟩, hrest⟩ := forall_mem_cons.mp hrows
    have hlast : ∀ last, st.entries.getLast? = some last →
        last.timestamp ≤ row.timeSlotSchedNs := fun last hlast =>
      (pairwise_append.mp hordered).2.2 last (mem_of_getLast? hlast)
        (adapter.v2Row row) (by simp)
    rw [map_cons, forLines, parseV2Line_csvLine hns hsms hlast]
    dsimp only
    rw [ih (by simpa using hordered) hrest]
    simp

end Parse

variable {path : String}

/-- The rows are scheduled in the order of the file. -/
def Scheduled : Prop := Ordered (·.timeSlotSchedNs) adapter.rows

/-- The file is accepted where the counts fit in an `int`. -/
theorem exists_parse_toV2File (hordered : adapter.Scheduled)
    (hsms : ∀ row ∈ adapter.rows, InInt (adapter.numSms row)) :
    ∃ entries config, parse path (some adapter.toV2File) = .ok (entries, config) := by
  have huse : useV2 false (pieces '\n' adapter.toV2File) = some true := by
    rw [pieces_toV2File, useV2_eq, find?_cons_of_pos (by decide)]
    rfl
  have hloop : forLines parseV2Line 1 {}
      (pieces '\n' adapter.toV2File) =
        .ok { headerSkipped := true, entries := adapter.rows.map adapter.v2Row } := by
    have hheader : parseV2Line 1 {} header = .ok { headerSkipped := true } := by
      decide
    rw [pieces_toV2File, forLines, hheader]
    refine forLines_csvLine ?_ fun row hrow => ⟨(adapter.rows_int64 row hrow).1, hsms row hrow⟩
    rw [Ordered, nil_append, pairwise_map]
    exact hordered
  have hne : adapter.rows.map adapter.v2Row ≠ [] := by simpa using adapter.rows_ne
  simp only [parse, huse, parseV2, hloop, if_neg hne]
  exact ⟨_, _, rfl⟩

/-- What the C++ parser gives. -/
theorem smCountAtTime_toV2File {entries : List GreenTraceEntry} {config : GreenTraceConfig}
    (h : parse path (some adapter.toV2File) = .ok (entries, config)) :
    (∀ row ∈ adapter.rows, InInt (adapter.numSms row)) ∧
      ∀ elapsed defaultSmCount, smCountAtTime entries elapsed defaultSmCount =
        (adapter.freeSms elapsed).getD defaultSmCount := by
  have hfit : ∀ entry ∈ dataRows adapter.toV2File,
      InInt64 (microseconds adapter.toV2File entry) := by
    rw [dataRows_toV2File]
    intro entry hentry
    obtain ⟨row, hrow, rfl⟩ := mem_map.mp hentry
    rw [microseconds_toV2File]
    exact (adapter.rows_int64 row hrow).1
  refine ⟨fun row hrow => ?_, fun elapsed d => ?_⟩
  · refine (parsed_of_parse h).inInt (adapter.v2Row row) ?_
    rw [entriesOf_eq hfit, dataRows_toV2File]
    exact mem_map_of_mem hrow
  · have hmap : lastUpTo (microseconds adapter.toV2File)
          (adapter.rows.map adapter.v2Row) elapsed =
        (lastUpTo (·.timeSlotSchedNs) adapter.rows elapsed).map adapter.v2Row :=
      lastUpTo_map _ fun row _ => by rw [microseconds_toV2File]; rfl
    rw [smCountAtTime_of_parse h hfit, dataRows_toV2File, hmap, Option.map_map]
    rfl

/-- What the Torch parser gives. -/
theorem torchCount_toV2File (hordered : adapter.Scheduled) (elapsed defaultSmCount : Int) :
    TorchTrace.smCountAtTime (TorchTrace.parseTraceFile adapter.toV2File) elapsed defaultSmCount =
      (adapter.freeSms elapsed).getD defaultSmCount := by
  have hplain : ∀ c ∈ adapter.toV2File, TorchTrace.IsPlain c := by
    intro c hc
    obtain ⟨line, hline, hc⟩ := mem_flatMap.mp hc
    rcases mem_append.mp hc with hc | hc
    · rcases mem_cons.mp hline with rfl | hline
      · exact (by decide : ∀ c ∈ header, TorchTrace.IsPlain c) c hc
      · obtain ⟨row, -, rfl⟩ := mem_map.mp hline
        exact isPlain_of_isNumeric (isNumeric_of_mem_csvLine hc)
    · exact .inl (mem_singleton.mp hc)
  have hlines : ∀ row ∈ adapter.rows,
      TorchTrace.rowOf (csvLine (adapter.v2Row row)) =
          some (row.timeSlotSchedNs, adapter.numSms row) ∧
        TorchTrace.unitOf (csvLine (adapter.v2Row row)) = none :=
    fun row hrow => torch_csvLine (adapter.rows_int64 row hrow).1
  obtain ⟨hentries, hunit, -⟩ := TorchTrace.foldl_parseLine {} (pieces '\n' adapter.toV2File)
  have hentries' : (TorchTrace.parseTraceFile adapter.toV2File).entries =
      adapter.rows.map fun row => (row.timeSlotSchedNs, adapter.numSms row) := by
    rw [TorchTrace.parseTraceFile, TorchTrace.universalNewlines_eq hplain, hentries,
      pieces_toV2File, filterMap_cons_none (by decide), filterMap_map]
    exact filterMap_eq_map_iff_forall_eq_some.mpr fun row hrow => (hlines row hrow).1
  have hscale : TorchTrace.scale (TorchTrace.parseTraceFile adapter.toV2File).timeUnit = 1 := by
    have hnone : (adapter.rows.map fun row => csvLine (adapter.v2Row row)).filterMap
        TorchTrace.unitOf = [] := by
      rw [filterMap_map, filterMap_eq_nil_iff]
      exact fun row hrow => (hlines row hrow).2
    rw [TorchTrace.parseTraceFile, TorchTrace.universalNewlines_eq hplain, hunit,
      pieces_toV2File, filterMap_cons_none (by decide), hnone]
    rfl
  have hne : (TorchTrace.parseTraceFile adapter.toV2File).entries ≠ [] := by
    simpa [hentries'] using adapter.rows_ne
  have hsame : TorchTrace.thresholds (TorchTrace.parseTraceFile adapter.toV2File).timeUnit
      (TorchTrace.parseTraceFile adapter.toV2File).entries =
        adapter.rows.map fun row => (row.timeSlotSchedNs, adapter.numSms row) := by
    simp only [TorchTrace.thresholds, hscale, Int.mul_one, hentries', map_map]
    rfl
  rw [TorchTrace.smCountAtTime, if_neg hne, hsame]
  exact scan_eq _ hordered _

/-- The schedule does not change after the first nanosecond. -/
def Settled : Prop := ∀ ns, 1 ≤ ns → adapter.freeSms ns = adapter.freeSms 1

theorem eq_iff_getD {o o' : Option Int} : (∀ d, o.getD d = o'.getD d) ↔ o = o' := by
  constructor
  · intro h
    cases o with
    | none =>
      cases o' with
      | none => rfl
      | some n =>
        have := h (n + 1)
        simp only [Option.getD_none, Option.getD_some] at this
        omega
    | some n =>
      cases o' with
      | none =>
        have := h (n + 1)
        simp only [Option.getD_none, Option.getD_some] at this
        omega
      | some n' => simpa using h 0
  · rintro rfl d
    rfl

/-- Reading nanoseconds as microseconds makes no difference only where the schedule is settled. -/
theorem settled_iff :
    (∀ elapsed, 0 ≤ elapsed → ∀ defaultSmCount, (adapter.freeSms elapsed).getD defaultSmCount =
      adapter.intendedSmCount elapsed defaultSmCount) ↔ adapter.Settled := by
  obtain ⟨m, hm⟩ := exists_le (fun row : LdpcRow => row.timeSlotSchedNs) adapter.rows
  have hconst : ∀ t t', m ≤ t → m ≤ t' → adapter.freeSms t = adapter.freeSms t' :=
    fun t t' ht ht' => by
      rw [freeSms, lastUpTo_of_le fun row hrow => Int.le_trans (hm row hrow) ht, freeSms,
        lastUpTo_of_le fun row hrow => Int.le_trans (hm row hrow) ht']
  rw [Settled, ← scaled_iff (k := 1000) (by decide) hconst]
  refine forall₂_congr fun elapsed _ => ?_
  simp only [intendedSmCount_eq]
  exact eq_iff_getD

/-- **A converted schedule is read right exactly where it is settled from the first nanosecond on**;
the C++ parser also wants every count to fit in an `int`. -/
theorem ldpc_schedule_iff (hordered : adapter.Scheduled) (path : String) :
    ((∃ entries config,
        parse path (some adapter.toV2File) = .ok (entries, config) ∧
        ∀ elapsed, 0 ≤ elapsed → ∀ defaultSmCount,
          smCountAtTime entries elapsed defaultSmCount =
            adapter.intendedSmCount elapsed defaultSmCount) ↔
      (∀ row ∈ adapter.rows, InInt (adapter.numSms row)) ∧ adapter.Settled) ∧
    ((∀ elapsed, 0 ≤ elapsed → ∀ defaultSmCount,
        TorchTrace.smCountAtTime (TorchTrace.parseTraceFile adapter.toV2File) elapsed
          defaultSmCount = adapter.intendedSmCount elapsed defaultSmCount) ↔
      adapter.Settled) := by
  constructor
  · constructor
    · rintro ⟨entries, config, hparse, hcount⟩
      obtain ⟨hsms, hfree⟩ := adapter.smCountAtTime_toV2File hparse
      refine ⟨hsms, adapter.settled_iff.mp fun elapsed helapsed d => ?_⟩
      rw [← hfree, hcount elapsed helapsed]
    · rintro ⟨hsms, hsettled⟩
      obtain ⟨entries, config, hparse⟩ :
          ∃ entries config, parse path (some adapter.toV2File) =
            .ok (entries, config) := adapter.exists_parse_toV2File hordered hsms
      refine ⟨entries, config, hparse, fun elapsed helapsed d => ?_⟩
      rw [(adapter.smCountAtTime_toV2File hparse).2]
      exact adapter.settled_iff.mpr hsettled elapsed helapsed d
  · simp only [adapter.torchCount_toV2File hordered]
    exact adapter.settled_iff

/-- Decoding that takes 8 SMs all the time. -/
def steady : LdpcTraceAdapter where
  totalSms := 48
  rows := [⟨0, 8, 0⟩, ⟨5000, 8, 1⟩]
  totalSms_pos := by decide
  totalSms_int64 := by decide
  rows_ne := by decide
  rows_int64 := by decide

theorem steady_schedule :
    ∃ entries config,
      parse "trace.csv" (some steady.toV2File) = .ok (entries, config) ∧
      ∀ elapsed, 0 ≤ elapsed → ∀ defaultSmCount,
        smCountAtTime entries elapsed defaultSmCount =
          steady.intendedSmCount elapsed defaultSmCount := by
  refine ((steady.ldpc_schedule_iff ?_ "trace.csv").1).mpr ⟨by decide, fun ns hns => ?_⟩
  · simp [Scheduled, Ordered, steady]
  · have h0 : (0 : Int) ≤ ns := by omega
    by_cases h : (5000 : Int) ≤ ns <;>
      simp [freeSms, lastUpTo, steady, numSms, effectiveSmCount, h0, h]

/-- Decoding that takes 8 SMs, and 16 from 5 microseconds on. -/
def rising : LdpcTraceAdapter where
  totalSms := 48
  rows := [⟨0, 8, 0⟩, ⟨5000, 16, 1⟩]
  totalSms_pos := by decide
  totalSms_int64 := by decide
  rows_ne := by decide
  rows_int64 := by decide

/-- At 5 microseconds both parsers still give the count of the first row. -/
theorem rising_schedule :
    parse "trace.csv" (some rising.toV2File) =
        .ok ([⟨0, 40, ['0']⟩, ⟨5000, 32, ['1']⟩], ⟨.microseconds, .wall⟩) ∧
      smCountAtTime [⟨0, 40, ['0']⟩, ⟨5000, 32, ['1']⟩] 5 48 = 40 ∧
      TorchTrace.smCountAtTime (TorchTrace.parseTraceFile rising.toV2File) 5 48 = 40 ∧
      rising.intendedSmCount 5 48 = 32 := by
  decide +kernel

end LdpcTraceAdapter
end Morphling.Scheduler
