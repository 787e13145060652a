import Entailment.Align.Manual
import Entailment.Command.Arguments
import Entailment.Command.Batch

/-! # Running the command

A run reads some files and answers with an output. It is a function of the arguments and of what the
files hold.

* **`Outcome`** — the exit code, the output, and the lines of a batch that were skipped;
* **`Request.run`** — the outcome of a request, given the files;
* **`runIn`** — the outcome of arguments in a directory. -/

namespace Entailment.Command

open Json (Value)

/-- What a run shows. -/
structure Outcome where
  /-- The exit code: zero, one after a failure, two after wrong usage. -/
  exit : Nat
  /-- The standard output. -/
  stdout : String
  /-- The failure that ended the run. -/
  failure : Option Failure
  /-- The lines of a batch that were skipped, with their reasons. They are kept by line number; in
  which order they are reported is left open. -/
  skipped : List (Nat × Option String)
  /-- A file that is written last: its name and its content. -/
  written : Option (String × String)

namespace Outcome

/-- A run without a failure. -/
def success (stdout : String) : Outcome := ⟨0, stdout, none, [], none⟩

/-- A run that ends before it has any output. -/
def failed (e : Failure) : Outcome := ⟨1, "", some e, [], none⟩

/-- A run that does not begin. -/
def wrongUsage : Outcome := ⟨2, "", none, [], none⟩

/-- The same run when its file cannot be written. -/
def unwritten (o : Outcome) : Outcome :=
  match o.written with
  | none => o
  | some (path, _) => { o with exit := 1, failure := some (.unwritable path), written := none }

end Outcome

/-- What the files hold, by name. -/
abbrev Files := String → Option String

/-- The content of a file. -/
def Files.read (files : Files) (path : String) : Except Failure String :=
  match files path with
  | some content => .ok content
  | none => .error (.unreadable path)

/-- The value that a JSON file holds. -/
def Files.load {α : Type} (files : Files) (reader : Value → Option α)
    (refusal : String → Failure) (path : String) : Except Failure α := do
  let content ← files.read path
  match (Json.read? content).bind reader with
  | some a => .ok a
  | none => .error (refusal path)

/-- The configuration, the standard one if no file is named. -/
def Files.config (files : Files) (shared : SharedFiles) : Except Failure (Config Float) :=
  match shared.config with
  | none => .ok .standard
  | some path => files.load Config.ofJson? .invalidConfig path

/-- The manual list, without pairs if no file is named. -/
def Files.manual (files : Files) (shared : SharedFiles) : Except Failure ManualPairs :=
  match shared.manual with
  | none => .ok .empty
  | some path => do
    let content ← files.read path
    (readManual content).mapError (.invalidManual path)

/-- The judgments of an aligner, none if no file is named. -/
def Files.alignments (files : Files) (shared : SharedFiles) :
    Except Failure (List AlignmentRecord) :=
  match shared.alignments with
  | none => .ok []
  | some path =>
    files.load (AlignmentRecord.listOfJson? Value.depthLimit) .invalidAlignments path

/-- The fragment of a parse file. -/
def Files.fragment (files : Files) (config : Config Float) (side : Side) (path : String) :
    Except Failure Fragment := do
  let content ← files.read path
  (config.fragment content).mapError (.malformedFile side path)

/-- The measurement of one pair, as a JSON text. -/
def runPair (files : Files) (text hypothesis : String) (features : Bool) (shared : SharedFiles) :
    Except Failure String := do
  -- The first file at fault is the one that is reported.
  let config ← files.config shared
  let manual ← files.manual shared
  let t ← files.fragment config .text text
  let h ← files.fragment config .hypothesis hypothesis
  let records ← files.alignments shared
  let table ← (AlignTable.ofRecords records).mapError .malformedKey
  let m ← (measure config ⟨table, manual⟩ t h).mapError .notMeasured
  let featureField :=
    if features then [("features", .array ((m.features config.enabled).map Value.string))] else []
  return Json.pretty 0 (.object (m.fields ++ featureField)) ++ "\n"

/-- What all pairs of a batch share. -/
def Files.setup (files : Files) (shared : SharedFiles) : Except Failure Setup := do
  let config ← files.config shared
  let manual ← files.manual shared
  let records ← files.alignments shared
  let table ← (AlignTable.ofRecords records).mapError .malformedSharedKey
  return { config, manual, shared := table }

/-- The feature index to encode with, if one is named. -/
def Files.index (files : Files) : Option String → Except Failure (Option FeatureIndex)
  | none => .ok none
  | some path => (files.load FeatureIndex.ofJson? .invalidIndex path).map some

/-- The measurements of a file of pairs. -/
def runBatch (files : Files) (pairs : String) (writeIndex readIndex : Option String)
    (shared : SharedFiles) : Except Failure Outcome := do
  let setup ← files.setup shared
  let index ← files.index readIndex
  let content ← files.read pairs
  let reports := setup.reports content
  let enabled := setup.config.enabled
  return {
    exit := 0
    stdout := String.join (reports.map (LineReport.output enabled index))
    failure := none
    skipped := reports.filterMap LineReport.skip?
    written := writeIndex.map fun path =>
      (path, Json.pretty 0 (learnedIndex enabled reports).json) }

/-- The name and the version of the command. -/
def versionLine : String := "rte-cli 0.1.0\n"

/-- The outcome of a request, given the files. -/
def Request.run (files : Files) : Request → Outcome
  | .help => .success ""
  | .version => .success versionLine
  | .pair text hypothesis features shared =>
    match runPair files text hypothesis features shared with
    | .ok stdout => .success stdout
    | .error e => .failed e
  | .batch pairs writeIndex readIndex shared =>
    match runBatch files pairs writeIndex readIndex shared with
    | .ok outcome => outcome
    | .error e => .failed e

/-- The outcome of a list of arguments, given the files. -/
def run (files : Files) (args : List String) : Outcome :=
  match Request.parse args with
  | none => .wrongUsage
  | some request => request.run files

/-- Whether a file of this name can be created in a directory: the name is not empty, names no
directory and leads through none. -/
def creatable (name : String) : Bool :=
  name ≠ "" && name ≠ "." && name ≠ ".." && !name.toList.contains '/'

/-- The outcome of a list of arguments in a directory that holds the given files. -/
def runIn (directory : List (String × String)) (args : List String) : Outcome :=
  let outcome := run (fun name => directory.lookup name) args
  match outcome.written with
  | some (name, _) => if creatable name then outcome else outcome.unwritten
  | none => outcome

end Entailment.Command
