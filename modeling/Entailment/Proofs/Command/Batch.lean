import Entailment.Proofs.Command.Measurement
import Entailment.Proofs.Json.Texts
import Entailment.Proofs.Measure.Trees

/-! # A batch, line by line

What a batch says of a line depends on the text of that line, and on its number only for the report
that it is skipped. So a batch is its lines, one after the other.

* **`Answer`**, **`Setup.answer`** — what a batch says of one line;
* **`Setup.report_cases`** — the reports say nothing else;
* **`BatchRun`** — a run whose files hold given inputs;
* **`BatchRun.outcome_eq`** — what a run shows;
* **`batch_answers_each_line`** — nothing is lost, reordered or mixed up. -/

namespace Entailment.Command

open Json (Value)

/-- What a batch says of a line. -/
inductive Answer where
  /-- The line is a pair that is measured, and a line of output is printed. -/
  | printed (out : String)
  /-- The line is skipped, for a reason if it is a pair. -/
  | skipped (reason : Option String)

namespace Answer

/-- The line of output, if there is one. -/
def line? : Answer → Option String
  | printed out => some out
  | skipped _ => none

/-- The warning about the line of the given number, if it is skipped. -/
def warning? (number : Nat) : Answer → Option (Nat × Option String)
  | printed _ => none
  | skipped reason => some (number, reason)

end Answer

/-- The pair that a line is, if it is one. -/
def readPair? (line : String) : Option PairRecord := (Json.read? line).bind PairRecord.ofJson?

namespace Setup

variable {setup : Setup} {index : Option FeatureIndex} {line out content : String}

/-- What a batch says of a line. -/
def answer (setup : Setup) (index : Option FeatureIndex) (line : String) : Answer :=
  match readPair? line with
  | none => .skipped none
  | some r =>
    match setup.measureRecord r with
    | .error reason => .skipped (some (Text.joinWith ": " reason.chain))
    | .ok m => .printed (Json.compact (LineReport.record setup.config.enabled index r.id m))

/-- What a batch says of each line of a text that is not blank, with the number of the line. -/
def answers (setup : Setup) (index : Option FeatureIndex) (content : String) :
    List (Nat × Answer) :=
  (((Text.lines content.toList).zipIdx 1).filter fun p => !Text.allBlank p.1).map fun p =>
    (p.2, setup.answer index (String.ofList p.1))

/-- The lines of output. -/
def printed (setup : Setup) (index : Option FeatureIndex) (content : String) : List String :=
  (setup.answers index content).filterMap fun a => a.2.line?

/-! ## One line -/

/-- A line is no pair, or a pair that is measured, or one that is not. -/
theorem report_cases (setup : Setup) (index : Option FeatureIndex) (number : Nat) (line : String) :
    (readPair? line = none ∧ setup.report number line = .unreadable number ∧
      setup.answer index line = .skipped none) ∨
    (∃ r e, readPair? line = some r ∧ setup.measureRecord r = .error e ∧
      setup.report number line = .skipped number e ∧
      setup.answer index line = .skipped (some (Text.joinWith ": " e.chain))) ∨
    (∃ r m, readPair? line = some r ∧ setup.measureRecord r = .ok m ∧
      setup.report number line = .measured number r.id m ∧
      setup.answer index line =
        .printed (Json.compact (LineReport.record setup.config.enabled index r.id m))) := by
  cases hr : readPair? line with
  | none => exact .inl ⟨rfl, by rw [report, ← readPair?, hr], by rw [answer, hr]⟩
  | some r =>
      cases hm : setup.measureRecord r with
      | error e =>
          exact .inr (.inl ⟨r, e, rfl, hm, by rw [report, ← readPair?, hr]; simp only [hm],
            by rw [answer, hr]; simp only [hm]⟩)
      | ok m =>
          exact .inr (.inr ⟨r, m, rfl, hm, by rw [report, ← readPair?, hr]; simp only [hm],
            by rw [answer, hr]; simp only [hm]⟩)

/-- What is printed of a line is its answer. -/
theorem output_report (setup : Setup) (index : Option FeatureIndex) (number : Nat)
    (line : String) : (setup.report number line).output setup.config.enabled index =
      ((setup.answer index line).line?.map (· ++ "\n")).getD "" := by
  obtain ⟨-, hr, ha⟩ | ⟨r, e, -, -, hr, ha⟩ | ⟨r, m, -, -, hr, ha⟩ :=
    setup.report_cases index number line <;> rw [hr, ha] <;> rfl

/-- What is reported of a line is its answer, with its number. -/
theorem skip?_report (setup : Setup) (index : Option FeatureIndex) (number : Nat)
    (line : String) : (setup.report number line).skip? =
      (setup.answer index line).warning? number := by
  obtain ⟨-, hr, ha⟩ | ⟨r, e, -, -, hr, ha⟩ | ⟨r, m, -, -, hr, ha⟩ :=
    setup.report_cases index number line <;> rw [hr, ha] <;> rfl

/-- What is printed of a line stays on one line. -/
theorem printable_of_answer (h : setup.answer index line = .printed out) :
    Text.Printable out.toList := by
  obtain ⟨-, -, ha⟩ | ⟨r, e, -, -, -, ha⟩ | ⟨r, m, -, -, -, ha⟩ :=
    setup.report_cases index 0 line <;> cases ha.symm.trans h
  exact Json.printable_compact _

/-! ## All lines -/

/-- The lines that are not blank are reported on, each with its number. -/
theorem reports_eq (setup : Setup) (content : String) : setup.reports content =
    (((Text.lines content.toList).zipIdx 1).filter fun p => !Text.allBlank p.1).map fun p =>
      setup.report p.2 (String.ofList p.1) := by
  simp only [reports, Text.numbered, List.filter_map, List.map_map, Function.comp_def]

/-- The numbers of the lines do not bear on what is printed. -/
theorem printed_eq (setup : Setup) (index : Option FeatureIndex) (content : String) :
    setup.printed index content =
      ((Text.lines content.toList).filter fun l => !Text.allBlank l).filterMap fun l =>
        (setup.answer index (String.ofList l)).line? := by
  -- With numbers put to the lines on the right, both sides go over one list.
  conv_rhs => rw [← List.zipIdx_map_fst 1 (Text.lines content.toList)]
  simp only [printed, answers, List.filter_map, List.filterMap_map, Function.comp_def]

/-- Up to a line feed and after it, lines are printed apart. -/
theorem printed_append_newline (setup : Setup) (index : Option FeatureIndex) (a b : String) :
    setup.printed index (a ++ "\n" ++ b) =
      setup.printed index (a ++ "\n") ++ setup.printed index b := by
  have hlines : Text.lines (a ++ "\n" ++ b).toList =
      Text.lines (a ++ "\n").toList ++ Text.lines b.toList := by
    simpa using Text.lines_append_newline a.toList b.toList
  rw [printed_eq, hlines, List.filter_append, List.filterMap_append, ← printed_eq, ← printed_eq]

/-- Whatever is printed of a file stays on one line. -/
theorem printable_printed (h : out ∈ setup.printed index content) : Text.Printable out.toList := by
  rw [printed_eq] at h
  obtain ⟨l, -, hl⟩ := List.mem_filterMap.1 h
  cases hanswer : setup.answer index (String.ofList l) with
  | printed out' =>
      rw [hanswer] at hl
      cases hl
      exact printable_of_answer hanswer
  | skipped reason =>
      rw [hanswer] at hl
      cases hl

end Setup

/-- A run on a file of pairs with the given content. -/
structure BatchRun (config : Config Float) (manual : ManualPairs) (records : List AlignmentRecord)
    (index : Option FeatureIndex) (content : String) extends Inputs config manual records where
  /-- The name of the file of pairs. -/
  pairs : String
  /-- The name of the file that the learned features are written to, if they are. -/
  writeIndex : Option String
  /-- The name of the file of the features to encode with, if there is one. -/
  readIndex : Option String
  /-- The features to encode with are what their file holds. -/
  index_eq : files.index readIndex = .ok index
  /-- The pairs are what their file holds. -/
  content_eq : files.read pairs = .ok content

namespace BatchRun

variable {config : Config Float} {manual : ManualPairs} {global : List AlignmentRecord}
  {table : AlignTable} {index : Option FeatureIndex} {content : String}

/-- What the run shows. -/
def outcome (run : BatchRun config manual global index content) : Outcome :=
  (Request.batch run.pairs run.writeIndex run.readIndex run.shared).run run.files

/-- If the shared judgments are well-formed, the run comes to an end and shows what is reported of
each line. -/
theorem outcome_eq (run : BatchRun config manual global index content)
    (valid : AlignTable.ofRecords global = .ok table) :
    let reports := (Setup.mk config manual table).reports content
    run.outcome =
      { exit := 0
        stdout := String.join (reports.map (LineReport.output config.enabled index))
        failure := none
        skipped := reports.filterMap LineReport.skip?
        written := run.writeIndex.map fun path =>
          (path, Json.pretty 0 (learnedIndex config.enabled reports).json) } := by
  have hsetup : run.files.setup run.shared = .ok ⟨config, manual, table⟩ := by
    rw [Files.setup, run.config_eq, run.manual_eq, run.records_eq]
    show (AlignTable.ofRecords global).mapError _ >>= _ = _
    rw [valid]
    rfl
  intro reports
  rw [outcome, Request.run, runBatch, hsetup, run.index_eq, run.content_eq]
  rfl

/-- The output of a run is the lines it prints, each with a line feed. -/
theorem stdout_outcome (run : BatchRun config manual global index content)
    (valid : AlignTable.ofRecords global = .ok table) :
    run.outcome.stdout =
      String.join (((Setup.mk config manual table).printed index content).map (· ++ "\n")) := by
  rw [run.outcome_eq valid, Setup.reports_eq, Setup.printed, Setup.answers]
  generalize ((Text.lines content.toList).zipIdx 1).filter _ = ps
  -- A line that is skipped has an empty output on one side and is left out on the other.
  induction ps with
  | nil => rfl
  | cons p ps ih =>
      simp only [List.map_cons, String.join_cons, List.filterMap_cons] at ih ⊢
      rw [ih, Setup.output_report ⟨config, manual, table⟩]
      cases ((Setup.mk config manual table).answer index (String.ofList p.1)).line? with
      | none => exact String.empty_append
      | some out => exact (String.join_cons ..).symm

/-- A run warns of the lines it skips, with their numbers. -/
theorem skipped_outcome (run : BatchRun config manual global index content)
    (valid : AlignTable.ofRecords global = .ok table) :
    run.outcome.skipped = ((Setup.mk config manual table).answers index content).filterMap
      fun a => a.2.warning? a.1 := by
  rw [run.outcome_eq valid, Setup.reports_eq, Setup.answers, List.filterMap_map,
    List.filterMap_map]
  simp only [Function.comp_def, Setup.skip?_report _ index]

/-- The output of a run, line by line. -/
theorem lines_stdout_outcome (run : BatchRun config manual global index content)
    (valid : AlignTable.ofRecords global = .ok table) :
    Text.lines run.outcome.stdout.toList =
      ((Setup.mk config manual table).printed index content).map String.toList := by
  rw [← Text.lines_flatMap_newline (List.map String.toList _), run.stdout_outcome valid]
  · simp [List.flatMap_map, String.toList_join]
  · rw [List.forall_mem_map]
    exact fun out hout => Setup.printable_printed hout

end BatchRun

/-- The parse of one word. -/
def oneWord : String := "1 a a N _ _ _ R _ _"

/-- A judgment by its key. -/
def judged (key : String) : AlignmentRecord := ⟨key, "i", Float.ofNat 1, .textToHypothesis⟩

/-- The record of a judgment. -/
def judgedRecord (key : String) : Value :=
  .object [("key", .string key), ("link_info", .string "i"), ("strength", .ofNat 1),
    ("direction", .string "TtoH")]

/-- The text of that record. -/
def judgedText (key : String) : String :=
  "\x7b\"key\":\"" ++ key ++ "\",\"link_info\":\"i\",\"strength\":1,\"direction\":\"TtoH\"\x7d"

/-- A pair with a judgment of its own, as a line of a batch. -/
def pairLine : String :=
  "\x7b\"id\":\"p\",\"text\":\"" ++ oneWord ++ "\",\"hypothesis\":\"" ++ oneWord ++
    "\",\"alignments\":[" ++ judgedText "a__a" ++ "]\x7d"

/-- The files of a batch, and of its pair by itself. -/
def smallFiles : Files
  | "pairs" => some ("\n?\n" ++ pairLine ++ "\n")
  | "word" => some oneWord
  | "shared" => some ("[" ++ judgedText "b__b" ++ "]")
  | "both" => some ("[" ++ judgedText "a__a" ++ "," ++ judgedText "b__b" ++ "]")
  | _ => none

/-- The shared judgment is read. -/
theorem read?_shared : Json.read? ("[" ++ judgedText "b__b" ++ "]") =
    some (.array [judgedRecord "b__b"]) := rfl

/-- The judgment of the pair and the shared one are read. -/
theorem read?_both : Json.read? ("[" ++ judgedText "a__a" ++ "," ++ judgedText "b__b" ++ "]") =
    some (.array [judgedRecord "a__a", judgedRecord "b__b"]) := by
  have hfirst : Json.readFrom ([], .value) ("[" ++ judgedText "a__a") =
      some ([.items []], .complete (judgedRecord "a__a")) := rfl
  have hsecond : Json.readFrom ([.items []], .complete (judgedRecord "a__a"))
      (String.singleton ',' ++ (judgedText "b__b" ++ "]")) =
      some ([], .complete (.array [judgedRecord "a__a", judgedRecord "b__b"])) := rfl
  have hcomma : "," = String.singleton ',' := rfl
  rw [String.append_assoc, String.append_assoc, hcomma]
  exact Json.read?_of_readFrom (Json.readFrom_append hfirst rfl hsecond)

/-- The pair is read. -/
theorem read?_pairLine : Json.read? pairLine =
    some (.object [("id", .string "p"), ("text", .string oneWord), ("hypothesis", .string oneWord),
      ("alignments", .array [judgedRecord "a__a"])]) := by
  have htext : Json.readFrom ([], .value) ("\x7b\"id\":\"p\",\"text\":\"" ++ oneWord ++ "\"") =
      some ([.fields true [("id", .string "p")] "text"], .complete (.string oneWord)) := rfl
  have hhypothesis : Json.readFrom ([.fields true [("id", .string "p")] "text"],
      .complete (.string oneWord))
      (String.singleton ',' ++ ("\"hypothesis\":\"" ++ oneWord ++ "\"")) =
      some ([.fields true [("text", .string oneWord), ("id", .string "p")] "hypothesis"],
        .complete (.string oneWord)) := rfl
  have hname : Json.readFrom
      ([.fields true [("text", .string oneWord), ("id", .string "p")] "hypothesis"],
        .complete (.string oneWord)) (String.singleton ',' ++ "\"alignments\":") =
      some ([.fields true [("hypothesis", .string oneWord), ("text", .string oneWord),
        ("id", .string "p")] "alignments"], .value) := rfl
  have hjudgments : Json.readFrom ([.fields true [("hypothesis", .string oneWord),
      ("text", .string oneWord), ("id", .string "p")] "alignments"], .value)
      (String.singleton '[' ++ (judgedText "a__a" ++ "]\x7d")) =
      some ([], .complete (.object [("id", .string "p"), ("text", .string oneWord),
        ("hypothesis", .string oneWord), ("alignments", .array [judgedRecord "a__a"])])) := rfl
  have hline := Json.readFrom_append
    (Json.readFrom_append (Json.readFrom_append htext rfl hhypothesis) rfl hname) rfl hjudgments
  have hparts : "\x7b\"id\":\"p\",\"text\":\"" ++ oneWord ++ "\"" ++
      (String.singleton ',' ++ ("\"hypothesis\":\"" ++ oneWord ++ "\"")) ++
      (String.singleton ',' ++ "\"alignments\":") ++
      (String.singleton '[' ++ (judgedText "a__a" ++ "]\x7d")) = pairLine := by decide +kernel
  rw [hparts] at hline
  exact Json.read?_of_readFrom hline

/-- The line is read as the pair of the two words, with its judgment. -/
theorem readPair?_pairLine :
    readPair? pairLine = some ⟨"p", oneWord, oneWord, [judged "a__a"]⟩ := by
  rw [readPair?, read?_pairLine]
  rfl

/-- The file has a blank line, a mark, and the line of the pair. -/
theorem lines_small : Text.lines ("\n?\n" ++ pairLine ++ "\n").toList =
    [[], ['?'], pairLine.toList] := by
  -- Put together again, the lines are read back by a lemma; cutting the text would take the kernel
  -- long.
  have hline : Text.Printable pairLine.toList := by decide +kernel
  have hmark : Text.Printable ['?'] := by decide
  simpa using Text.lines_flatMap_newline [[], ['?'], pairLine.toList] (by simp [hline, hmark])

/-- The batch, with a shared judgment. -/
def smallRun : BatchRun .standard .empty [judged "b__b"] none ("\n?\n" ++ pairLine ++ "\n") where
  files := smallFiles
  shared := ⟨some "shared", none, none⟩
  config_eq := rfl
  manual_eq := rfl
  records_eq := Files.load_of_read? rfl read?_shared rfl
  pairs := "pairs"
  writeIndex := none
  readIndex := none
  index_eq := rfl
  content_eq := rfl

/-- The pair by itself, with both judgments in one file. -/
def smallPairRun :
    PairRun .standard .empty [judged "a__a", judged "b__b"] oneWord oneWord where
  files := smallFiles
  shared := ⟨some "both", none, none⟩
  config_eq := rfl
  manual_eq := rfl
  records_eq := Files.load_of_read? rfl read?_both rfl
  textFile := "word"
  hypothesisFile := "word"
  features := false
  text_eq := rfl
  hypothesis_eq := rfl

/-- One word against itself is measured. -/
theorem exists_measures_oneWord :
    ∃ m, Measures .standard .empty [judged "a__a", judged "b__b"] oneWord oneWord m := by
  have hread : (Config.standard : Config Float).fragment oneWord =
      .ok [.make 0 "a" "a" "N" none "R"] := by decide +kernel
  obtain ⟨t, ht⟩ : ∃ t, Tree.ofFragment [.make 0 "a" "a" "N" none "R"] = .ok t := ⟨_, rfl⟩
  have htree (side : Side) := (Config.standard : Config Float).tree_of_ofFragment rfl side ht
  exact ⟨_, _, _, _, hread, hread, rfl,
    measure_eq_ok_iff.2 ⟨_, _, htree .text, htree .hypothesis, rfl⟩⟩

/-- The table of the shared judgment. -/
def smallTable : AlignTable := AlignTable.empty.insert "b__b" (judged "b__b").link

/-- The shared judgment makes its table. -/
theorem ofRecords_small : AlignTable.ofRecords [judged "b__b"] = .ok smallTable := rfl

section

variable {m : Measurement Float}
  (hm : Measures .standard .empty [judged "a__a", judged "b__b"] oneWord oneWord m)

include hm

/-- The line of the pair is answered by its measurement. -/
theorem answer_pairLine : Setup.answer ⟨.standard, .empty, smallTable⟩ none pairLine =
    .printed (Json.compact (LineReport.record .all none "p" m)) := by
  have hmeasured : Setup.measureRecord ⟨.standard, .empty, smallTable⟩
      ⟨"p", oneWord, oneWord, [judged "a__a"]⟩ = .ok m :=
    (Setup.measureRecord_eq_ok_iff ofRecords_small).2 hm
  rw [Setup.answer, readPair?_pairLine]
  simp only [hmeasured]
  rfl

/-- The file is answered by a line that is skipped and one that is printed. -/
theorem answers_small :
    Setup.answers ⟨.standard, .empty, smallTable⟩ none ("\n?\n" ++ pairLine ++ "\n") =
      [(2, .skipped none), (3, .printed (Json.compact (LineReport.record .all none "p" m)))] := by
  have hmark : Setup.answer ⟨.standard, .empty, smallTable⟩ none "?" = .skipped none := by
    rw [Setup.answer, readPair?, (rfl : Json.read? "?" = none)]
    rfl
  have hkept : (([[], ['?'], pairLine.toList].zipIdx 1).filter fun p => !Text.allBlank p.1) =
      [(['?'], 2), (pairLine.toList, 3)] := by decide +kernel
  rw [Setup.answers, lines_small, hkept, List.map_cons, List.map_cons, List.map_nil,
    String.ofList_toList, answer_pairLine hm]
  exact congrArg (fun a => [(2, a), _]) hmark

end

end Entailment.Command
