import FilterSql.CommandLine.Run

/-!
A batch is its records, one after the other. The lines of the input and the texts that they are the bytes
of are said without the functions that cut and decode them, and then what a run prints without a query is
put together from what each of its records prints by itself. A line that is no text cuts the run off.
-/

namespace FilterSql

namespace Text

/-- The lines of a stream, none of which holds a line feed: a carriage return before the feed belongs to
the line end, and the last line may have no end. -/
inductive Lines : List UInt8 → List (List UInt8) → Prop where
  | nil : Lines [] []
  | last {line : List UInt8} : line ≠ [] → 10 ∉ line → Lines line [line]
  | feed {line rest : List UInt8} {lines : List (List UInt8)} : 10 ∉ line →
      line.getLast? ≠ some 13 → Lines rest lines → Lines (line ++ 10 :: rest) (line :: lines)
  | returnFeed {line rest : List UInt8} {lines : List (List UInt8)} : 10 ∉ line →
      Lines rest lines → Lines (line ++ 13 :: 10 :: rest) (line :: lines)

/-- The bytes of a text. -/
def utf8 (text : String) : List UInt8 := text.toUTF8.data.toList

theorem linesFrom_append {line : List UInt8} (h : 10 ∉ line) (read rest : List UInt8) :
    linesFrom read (line ++ rest) = linesFrom (line.reverse ++ read) rest := by
  induction line generalizing read with
  | nil => rfl
  | cons byte line ih =>
    have hbyte : byte ≠ 10 := fun hbyte => h (hbyte ▸ List.mem_cons_self)
    have hline : 10 ∉ line := fun hline => h (List.mem_cons_of_mem byte hline)
    have hstep : linesFrom read (byte :: (line ++ rest)) = linesFrom (byte :: read) (line ++ rest) :=
      linesFrom.eq_3 read byte (line ++ rest) hbyte
    rw [List.cons_append, hstep, ih hline, List.reverse_cons, List.append_assoc]
    rfl

theorem lines_feed {line : List UInt8} (h : 10 ∉ line) (rest : List UInt8) :
    lines (line ++ 10 :: rest) = (dropReturn line.reverse).reverse :: lines rest := by
  rw [lines, linesFrom_append h, List.append_nil, linesFrom, lines]

theorem Lines.lines_eq {bytes : List UInt8} {ls : List (List UInt8)} (h : Lines bytes ls) :
    lines bytes = ls := by
  induction h with
  | nil => rfl
  | @last line hne hfeed =>
    have hlast := linesFrom_append hfeed [] []
    rw [List.append_nil, List.append_nil] at hlast
    rw [lines, hlast, linesFrom]
    simp [hne]
  | @feed line rest ls hfeed hreturn _ ih =>
    have hdrop : dropReturn line.reverse = line.reverse := by
      unfold dropReturn
      split
      · next tail hline =>
        have hlast : line = tail.reverse ++ [13] := by
          rw [← List.reverse_reverse line, hline, List.reverse_cons]
        exact absurd (by rw [hlast, List.getLast?_concat]) hreturn
      · rfl
    rw [lines_feed hfeed, hdrop, List.reverse_reverse, ih]
  | @returnFeed line rest ls hfeed _ ih =>
    have hfeed' : 10 ∉ line ++ [13] := by
      simpa using hfeed
    have hline := lines_feed hfeed' rest
    rw [List.append_assoc, List.reverse_append] at hline
    exact hline.trans (by simp [dropReturn, ih])

theorem exists_lines (bytes : List UInt8) : ∃ ls, Lines bytes ls := by
  induction hlength : bytes.length using Nat.strongRecOn generalizing bytes with
  | _ length ih =>
    by_cases hfeed : 10 ∈ bytes
    · obtain ⟨line, rest, rfl, hline⟩ := List.eq_append_cons_of_mem hfeed
      have hrest : rest.length < length := by
        simp only [← hlength, List.length_append, List.length_cons]
        omega
      obtain ⟨ls, hls⟩ := ih rest.length hrest rest rfl
      by_cases hreturn : line.getLast? = some 13
      · obtain ⟨line, rfl⟩ := List.getLast?_eq_some_iff.mp hreturn
        refine ⟨line :: ls, ?_⟩
        rw [List.append_assoc]
        exact .returnFeed (fun h => hline (List.mem_append_left _ h)) hls
      · exact ⟨line :: ls, .feed hline hreturn hls⟩
    · by_cases hempty : bytes = []
      · exact ⟨[], hempty ▸ .nil⟩
      · exact ⟨[bytes], .last hempty hfeed⟩

theorem decode?_eq_some {bytes : List UInt8} {text : String} :
    decode? bytes = some text ↔ bytes = utf8 text := by
  unfold decode? String.fromUTF8? utf8
  constructor
  · intro h
    split at h
    · obtain rfl := Option.some.inj h
      rfl
    · contradiction
  · rintro rfl
    rw [Array.toArray_toList]
    exact dif_pos text.isValidUTF8

theorem decode?_eq_none {bytes : List UInt8} (h : ∀ text, bytes ≠ utf8 text) :
    decode? bytes = none := by
  apply Option.eq_none_iff_forall_ne_some.mpr
  intro text htext
  exact h text (decode?_eq_some.mp htext)

end Text

namespace CommandLine

/-- The end of a run that has printed this. -/
def Output.outcome (output : Output) : Outcome :=
  ⟨if output.ok then 0 else 1, output.out, output.err⟩

/-- The records among the texts of lines. -/
def records (texts : List String) : List String := texts.filter fun text => !isBlankLine text

section Batch

variable (complaints : Complaints) (settings : Settings) (dialects : List Dialect)

theorem compileOutput_cases (text : String) :
    (∃ query, compile complaints settings text = .ok query ∧
      compileOutput complaints settings dialects text =
        ⟨true, String.join (dialects.map (statementLine settings dialects query)), ""⟩) ∨
    ∃ error, compile complaints settings text = .error error ∧
      compileOutput complaints settings dialects text =
        ⟨false, "", error.message ++ "\n:" ++ text ++ "\n"⟩ := by
  unfold compileOutput
  cases compile complaints settings text with
  | ok query => exact .inl ⟨query, rfl, rfl⟩
  | error error => exact .inr ⟨error, rfl, rfl⟩

theorem ok_compileOutput (text : String) :
    (compileOutput complaints settings dialects text).ok =
      (compile complaints settings text).isOk := by
  rcases compileOutput_cases complaints settings dialects text with
    ⟨query, hquery, houtput⟩ | ⟨error, herror, houtput⟩
  · rw [houtput, hquery]
    rfl
  · rw [houtput, herror]
    rfl

theorem batch_cons (text : String) (rest : List (List UInt8)) :
    batch complaints settings dialects (Text.utf8 text :: rest) =
      if isBlankLine text then batch complaints settings dialects rest
      else compileOutput complaints settings dialects text ++
        batch complaints settings dialects rest := by
  rw [batch, Text.decode?_eq_some.mpr rfl]

/-- One line at a time: a blank one is nothing, and what a record prints is put before the rest. -/
theorem batch_append (texts : List String) (rest : List (List UInt8)) :
    let last := batch complaints settings dialects rest
    let record := compileOutput complaints settings dialects
    batch complaints settings dialects (texts.map Text.utf8 ++ rest) =
      ⟨((records texts).all fun text => (compile complaints settings text).isOk) && last.ok,
        String.join ((records texts).map fun text => (record text).out) ++ last.out,
        String.join ((records texts).map fun text => (record text).err) ++ last.err⟩ := by
  intro last record
  induction texts with
  | nil => simp [records, last]
  | cons text texts ih =>
    rw [List.map_cons, List.cons_append, batch_cons]
    by_cases hblank : isBlankLine text = true
    · have hrecords : records (text :: texts) = records texts := by simp [records, hblank]
      rw [if_pos hblank, hrecords, ih]
    · have hrecords : records (text :: texts) = text :: records texts := by simp [records, hblank]
      rw [if_neg hblank, hrecords, ih]
      change (record text).append _ = _
      simp [Output.append, record, ok_compileOutput, Bool.and_assoc, String.append_assoc]

end Batch

theorem run_eq_outcome (complaints : Complaints) {arguments : List String} {invocation : Invocation}
    (h : Request.read arguments = .ok (.run invocation)) (files : Files) (input : List UInt8) :
    run complaints arguments files input = (invocation.output complaints files input).outcome := by
  rw [run, h]
  rfl

theorem selectDialects_eq (asked set : Option Dialect) :
    selectDialects asked set =
      match asked, set with
      | some dialect, _ => [dialect]
      | none, some dialect => [dialect]
      | none, none => [.mySql, .postgreSql, .sqlServer] := by
  cases asked with
  | some dialect => rfl
  | none => cases set <;> rfl

/-- Without a query the lines of the input are records, blank ones apart, and a run prints what each record
prints by itself when it is the query. It goes well if all of them do. A line that is no text ends the run
with one more report, and then the run has failed. A record by itself gives a statement for each dialect,
which is named if there are several, or a report. The dialect is the one of the command line, without it
the one of the settings, and without that there are all three. -/
theorem batch_concatenates_records (complaints : Complaints) {arguments : List String}
    {invocation : Invocation} {files : Files} {settings : Settings}
    (hread : Request.read arguments = .ok (.run invocation))
    (hdemo : invocation.demo = false) (hquery : invocation.query = none)
    (hsettings : loadSettings complaints files invocation.config = .ok settings) :
    let dialects := selectDialects invocation.dialect settings.dialect
    let record := compileOutput complaints settings dialects
    (dialects =
      match invocation.dialect, settings.dialect with
      | some dialect, _ => [dialect]
      | none, some dialect => [dialect]
      | none, none => [.mySql, .postgreSql, .sqlServer]) ∧
    (∀ text,
      (∃ query, compile complaints settings text = .ok query ∧ record text =
        ⟨true, String.join (dialects.map fun dialect =>
          (if dialects.length = 1 then "" else dialect.name ++ ": ") ++
            query.sql dialect settings.table ++ "\n"), ""⟩) ∨
      ∃ error, compile complaints settings text = .error error ∧
        record text = ⟨false, "", error.message ++ "\n:" ++ text ++ "\n"⟩) ∧
    (∀ text arguments' input,
      Request.read arguments' = .ok (.run { invocation with query := some text }) →
        run complaints arguments' files input = (record text).outcome) ∧
    ∀ input, ∃ lines, Text.Lines input lines ∧
      (∀ texts, lines = texts.map Text.utf8 →
        run complaints arguments files input = Output.outcome
          ⟨(records texts).all fun text => (compile complaints settings text).isOk,
            String.join ((records texts).map fun text => (record text).out),
            String.join ((records texts).map fun text => (record text).err)⟩) ∧
      ∀ texts bad after, lines = texts.map Text.utf8 ++ bad :: after →
        (∀ text, bad ≠ Text.utf8 text) →
        run complaints arguments files input = Output.outcome
          ⟨false, String.join ((records texts).map fun text => (record text).out),
            String.join ((records texts).map fun text => (record text).err) ++
              "stream did not contain valid UTF-8\n"⟩ := by
  intro dialects record
  refine ⟨selectDialects_eq _ _, compileOutput_cases complaints settings dialects,
    fun text arguments' input hread' => ?_, fun input => ?_⟩
  · rw [run_eq_outcome complaints hread']
    simp [Invocation.output, hdemo, hsettings, record, dialects]
  · obtain ⟨lines, hlines⟩ := Text.exists_lines input
    have hrun : run complaints arguments files input =
        (batch complaints settings dialects lines).outcome := by
      rw [run_eq_outcome complaints hread]
      simp [Invocation.output, hdemo, hsettings, hquery, hlines.lines_eq, dialects]
    refine ⟨lines, hlines, fun texts htexts => ?_, fun texts bad after htexts hbad => ?_⟩
    · have hbatch := batch_append complaints settings dialects texts []
      rw [List.append_nil, ← htexts] at hbatch
      rw [hrun, hbatch]
      simp [batch, Output.silent, record]
    · have hlast : batch complaints settings dialects (bad :: after) =
          .failure "stream did not contain valid UTF-8\n" := by
        rw [batch, Text.decode?_eq_none hbad]
        rfl
      rw [hrun, htexts, batch_append, hlast]
      simp [Output.failure, record]

/-- A record, a blank line, a line that is no JSON, and one that is no text, in all dialects. -/
theorem batch_concatenates_records_cut_off :
    let complaints : Complaints := ⟨fun _ => "expected value at line 1 column 1", fun _ => ""⟩
    let invocation : Invocation := ⟨none, none, false, none⟩
    let settings : Settings := { Settings.default with columns := sampleColumns }
    let files : Files := fun _ => .error .notFound
    let input : List UInt8 := Text.utf8 "\x7b\x7d\r\n \nx\n" ++ [255]
    Request.read [] = .ok (.run invocation) ∧ invocation.demo = false ∧ invocation.query = none ∧
      loadSettings complaints files invocation.config = .ok settings ∧
      run complaints [] files input = ⟨1,
        "MySQL: SELECT * FROM data;\nPostgreSQL: SELECT * FROM data;\nSQLServer: SELECT * FROM data;\n",
        "Error reading query: expected value at line 1 column 1\n:x\n" ++
          "stream did not contain valid UTF-8\n"⟩ := by
  intro complaints invocation settings files input
  have hread : Request.read [] = .ok (.run invocation) := rfl
  have hsettings : loadSettings complaints files invocation.config = .ok settings := rfl
  refine ⟨hread, rfl, rfl, hsettings, ?_⟩
  obtain ⟨hdialects, -, -, hbatch⟩ := batch_concatenates_records complaints hread rfl rfl hsettings
  obtain ⟨lines, hlines, -, hcut⟩ := hbatch input
  have hbad (text : String) : [255] ≠ Text.utf8 text := by
    intro h
    have hnone : Text.decode? [255] = none := rfl
    rw [Text.decode?_eq_some.mpr h] at hnone
    contradiction
  have hsplit : lines = ["\x7b\x7d", " ", "x"].map Text.utf8 ++ [255] :: [] := by
    rw [← hlines.lines_eq]
    rfl
  have hrecords : records ["\x7b\x7d", " ", "x"] = ["\x7b\x7d", "x"] := rfl
  have hempty : compile complaints settings "\x7b\x7d" = .ok ⟨none, none⟩ := rfl
  have hword : compile complaints settings "x" =
      .error (.notJson "expected value at line 1 column 1") := rfl
  have hrun := hcut ["\x7b\x7d", " ", "x"] [255] [] hsplit hbad
  rw [hrecords, hdialects] at hrun
  simp only [List.map_cons, List.map_nil, compileOutput, hempty, hword] at hrun
  exact hrun.trans (by decide)

end CommandLine

end FilterSql
