import Entailment.Command.Failure
import Entailment.Json.Reader
import Entailment.Json.Writer
import Entailment.Measure.Record
import Entailment.Text.Basic

/-! # Measuring a file of pairs

Every line of the file that is not blank is a pair in JSON. Each is measured for itself; a line that
is no pair, or a pair that cannot be measured, is skipped.

* **`Setup`** — what all pairs share;
* **`Setup.measureRecord`** — the measurement of one pair;
* **`LineReport`**, **`Setup.reports`** — what comes of one line, and of all lines;
* **`LineReport.output`**, **`learnedIndex`** — the output of a line, the features of all lines. -/

namespace Entailment.Command

open Json (Value)

/-- What all pairs of a run share. -/
structure Setup where
  /-- The configuration. -/
  config : Config Float
  /-- The pairs that a user declares. -/
  manual : ManualPairs
  /-- The judgments of the aligner that are not about one pair. -/
  shared : AlignTable

/-- The fragment of a pair's side. -/
def Setup.side (setup : Setup) (side : Side) (text : String) : Except Failure Fragment :=
  (setup.config.fragment text).mapError (.malformedSide side)

/-- The measurement of one pair. Its own judgments come before the shared ones. -/
def Setup.measureRecord (setup : Setup) (r : PairRecord) : Except Failure (Measurement Float) := do
  let t ← setup.side .text r.text
  let h ← setup.side .hypothesis r.hypothesis
  let layered ← (PairTable.layer r.alignments setup.shared).mapError .malformedOwnKey
  (measure setup.config ⟨layered.table setup.shared, setup.manual⟩ t h).mapError .notMeasured

/-- What comes of a line. -/
inductive LineReport where
  /-- The line is no pair. -/
  | unreadable (line : Nat)
  /-- The pair is not measured. -/
  | skipped (line : Nat) (reason : Failure)
  /-- The pair is measured. -/
  | measured (line : Nat) (id : String) (m : Measurement Float)

/-- What comes of a line with the given number and text. -/
def Setup.report (setup : Setup) (line : Nat) (text : String) : LineReport :=
  match (Json.read? text).bind PairRecord.ofJson? with
  | none => .unreadable line
  | some r =>
    match setup.measureRecord r with
    | .error reason => .skipped line reason
    | .ok m => .measured line r.id m

/-- What comes of the lines of a file that are not blank, in order. -/
def Setup.reports (setup : Setup) (content : String) : List LineReport :=
  ((Text.numbered content.toList).filter fun p => !Text.allBlank p.2).map fun p =>
    setup.report p.1 (String.ofList p.2)

namespace LineReport

/-- The record of a measured pair; with an index to read, the numbers of its features are part of
it. -/
def record (enabled : Kinds) (index : Option FeatureIndex) (id : String)
    (m : Measurement Float) : Value :=
  .object <|
    ("id", .string id) :: m.fields ++
      index.elim [] fun i => [("encoded", .array ((i.encode m enabled).map .ofNat))]

/-- The output of a line: one line of JSON if it is measured, else nothing. -/
def output (enabled : Kinds) (index : Option FeatureIndex) : LineReport → String
  | .measured _ id m => Json.compact (record enabled index id m) ++ "\n"
  | _ => ""

/-- The number of a line that is skipped, with the reason if the line is a pair. -/
def skip? : LineReport → Option (Nat × Option String)
  | .unreadable line => some (line, none)
  | .skipped line reason => some (line, some (Text.joinWith ": " reason.chain))
  | .measured .. => none

/-- The measurement of a line. -/
def measurement? : LineReport → Option (Measurement Float)
  | .measured _ _ m => some m
  | _ => none

end LineReport

/-- The feature index learned from all lines that are measured. -/
def learnedIndex (enabled : Kinds) (reports : List LineReport) : FeatureIndex :=
  (reports.filterMap LineReport.measurement?).foldl (fun i m => i.observe m enabled) .empty

end Entailment.Command
