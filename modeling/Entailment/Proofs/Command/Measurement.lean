import Entailment.Command.Run
import Entailment.Proofs.Align.Layering

/-! # One pair, alone or in a batch

A pair is measured in the same way whether its texts and judgments come from files of their own or
from a line of a batch. The judgments of the line are put before the shared ones there, as they
would be in a single file.

* **`Measures`** — what two texts measure, given the configuration and all judgments;
* **`Setup.measureRecord_eq_ok_iff`** — the measurement of a line;
* **`Inputs`**, **`PairRun`** — a run whose files hold given inputs;
* **`PairRun.outcome_of_measures`**, **`PairRun.outcome_of_not_measures`** — what a run shows. -/

namespace Entailment.Command

open Json (Value)

variable {config : Config Float} {manual : ManualPairs} {records global : List AlignmentRecord}
  {text hypothesis : String} {m : Measurement Float}

/-- Two texts measure `m`, with a manual list and the judgments of an aligner. -/
def Measures (config : Config Float) (manual : ManualPairs) (records : List AlignmentRecord)
    (text hypothesis : String) (m : Measurement Float) : Prop :=
  ∃ t h table, config.fragment text = .ok t ∧ config.fragment hypothesis = .ok h ∧
    AlignTable.ofRecords records = .ok table ∧ measure config ⟨table, manual⟩ t h = .ok m

/-- A line is measured with its own judgments followed by the shared ones. -/
theorem Setup.measureRecord_eq_ok_iff {setup : Setup} {r : PairRecord}
    (hshared : AlignTable.ofRecords global = .ok setup.shared) :
    setup.measureRecord r = .ok m ↔
      Measures setup.config setup.manual (r.alignments ++ global) r.text r.hypothesis m := by
  simp only [measureRecord, side, bind_eq_ok_iff, mapError_eq_ok_iff, Measures,
    ← PairTable.layer_eq_ofRecords hshared, map_eq_ok_iff]
  constructor
  · rintro ⟨t, ht, h, hh, layered, hlayered, hm⟩
    exact ⟨t, h, _, ht, hh, ⟨layered, hlayered, rfl⟩, hm⟩
  · rintro ⟨t, h, _, ht, hh, ⟨layered, hlayered, rfl⟩, hm⟩
    exact ⟨t, ht, h, hh, layered, hlayered, hm⟩

/-- A JSON file is read as the value that its text has. -/
theorem Files.load_of_read? {α : Type} {files : Files} {reader : Value → Option α}
    {refusal : String → Failure} {path content : String} {v : Value} {a : α}
    (hfile : files path = some content) (hread : Json.read? content = some v)
    (ha : reader v = some a) : files.load reader refusal path = .ok a := by
  have hcontent : files.read path = .ok content := by rw [read, hfile]
  simp only [load, hcontent, bind, Except.bind, hread, Option.bind_some, ha]

/-- The files of a run, and that the shared ones hold the given inputs. -/
structure Inputs (config : Config Float) (manual : ManualPairs)
    (records : List AlignmentRecord) where
  /-- The files. -/
  files : Files
  /-- The names of the shared ones. -/
  shared : SharedFiles
  /-- The configuration is what its file holds. -/
  config_eq : files.config shared = .ok config
  /-- The manual list is what its file holds. -/
  manual_eq : files.manual shared = .ok manual
  /-- The judgments are what their file holds. -/
  records_eq : files.alignments shared = .ok records

/-- A run on two parse files that hold the given texts. -/
structure PairRun (config : Config Float) (manual : ManualPairs) (records : List AlignmentRecord)
    (text hypothesis : String) extends Inputs config manual records where
  /-- The name of the parse file of the text. -/
  textFile : String
  /-- The name of the parse file of the hypothesis. -/
  hypothesisFile : String
  /-- Whether the features are asked for. -/
  features : Bool
  /-- The text is what its file holds. -/
  text_eq : files.read textFile = .ok text
  /-- The hypothesis is what its file holds. -/
  hypothesis_eq : files.read hypothesisFile = .ok hypothesis

namespace PairRun

variable (run : PairRun config manual records text hypothesis)

/-- What the run shows. -/
def outcome : Outcome :=
  (Request.pair run.textFile run.hypothesisFile run.features run.shared).run run.files

/-- The features of a measurement as a field, if they are asked for. -/
def featureField (m : Measurement Float) : List (String × Value) :=
  if run.features then [("features", .array ((m.features config.enabled).map Value.string))] else []

/-- A run has an output exactly if there is a measurement. -/
theorem runPair_eq_ok_iff {out : String} :
    runPair run.files run.textFile run.hypothesisFile run.features run.shared = .ok out ↔
      ∃ m, Measures config manual records text hypothesis m ∧
        out = Json.pretty 0 (.object (m.fields ++ run.featureField m)) ++ "\n" := by
  have hfragment (side : Side) {path content : String} (h : run.files.read path = .ok content) :
      run.files.fragment config side path =
        (config.fragment content).mapError (.malformedFile side path) := by
    rw [Files.fragment, h]
    rfl
  simp only [runPair, run.config_eq, run.manual_eq, run.records_eq, hfragment _ run.text_eq,
    hfragment _ run.hypothesis_eq, bind_eq_ok_iff, mapError_eq_ok_iff, pure_eq_ok_iff,
    Except.ok.injEq, exists_eq_left', Measures]
  constructor
  · rintro ⟨t, ht, h, hh, table, htable, m, hm, rfl⟩
    exact ⟨m, ⟨t, h, table, ht, hh, htable, hm⟩, rfl⟩
  · rintro ⟨m, ⟨t, h, table, ht, hh, htable, hm⟩, rfl⟩
    exact ⟨t, ht, h, hh, table, htable, m, hm, rfl⟩

/-- A measurement is shown as it is. -/
theorem outcome_of_measures (h : Measures config manual records text hypothesis m) :
    run.outcome =
      .success (Json.pretty 0 (.object (m.fields ++ run.featureField m)) ++ "\n") := by
  rw [outcome, Request.run, run.runPair_eq_ok_iff.2 ⟨m, h, rfl⟩]

/-- Without a measurement the run fails. -/
theorem outcome_of_not_measures (h : ¬∃ m, Measures config manual records text hypothesis m) :
    ∃ e, run.outcome = .failed e := by
  cases hrun : runPair run.files run.textFile run.hypothesisFile run.features run.shared with
  | error e => exact ⟨e, by rw [outcome, Request.run, hrun]⟩
  | ok out =>
      obtain ⟨m, hm, -⟩ := run.runPair_eq_ok_iff.1 hrun
      exact absurd ⟨m, hm⟩ h

end PairRun

end Entailment.Command
