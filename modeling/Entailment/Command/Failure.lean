import Entailment.Error
import Entailment.Measure.Distance

/-! # Failures of a run

* **`Failure`** — why a run ends early or a pair is skipped;
* **`Failure.chain`** — its messages, the outermost first. -/

namespace Entailment.Command

/-- Why a run ends early, or a pair of a batch is skipped. -/
inductive Failure where
  /-- A file cannot be read. -/
  | unreadable (path : String)
  /-- A file cannot be written. -/
  | unwritable (path : String)
  /-- A file holds no configuration. -/
  | invalidConfig (path : String)
  /-- A file holds no judgments of an aligner. -/
  | invalidAlignments (path : String)
  /-- A file holds no feature index. -/
  | invalidIndex (path : String)
  /-- A file holds no manual list. -/
  | invalidManual (path : String) (cause : ReadError)
  /-- A file holds no parse. -/
  | malformedFile (side : Side) (path : String) (cause : ReadError)
  /-- A pair of a batch holds no parse. -/
  | malformedSide (side : Side) (cause : ReadError)
  /-- A judgment has a key of the wrong form. -/
  | malformedKey (cause : FormatError)
  /-- A judgment that all pairs share has a key of the wrong form. -/
  | malformedSharedKey (cause : FormatError)
  /-- A judgment of a pair's own has a key of the wrong form. -/
  | malformedOwnKey (cause : FormatError)
  /-- A pair is not measured. -/
  | notMeasured (cause : MeasureError)
  deriving DecidableEq, Repr

/-- The messages of a refused measurement: its own, and the defect of a tree by itself. -/
def measureChain (e : MeasureError) : List String :=
  match e with
  | .malformedTree _ defect => [e.message, defect.message]
  | _ => [e.message]

/-- The messages of a failure, each followed by its cause. The causes that the system or a JSON text
gives are left out. -/
def Failure.chain : Failure → List String
  | .unreadable path => ["failed to read " ++ path]
  | .unwritable path => ["failed to write " ++ path]
  | .invalidConfig path => ["invalid configuration in " ++ path]
  | .invalidAlignments path => ["invalid alignments in " ++ path]
  | .invalidIndex path => ["invalid feature index in " ++ path]
  | .invalidManual path cause => ["invalid manual alignments in " ++ path, cause.message]
  | .malformedFile side path cause =>
    ["malformed " ++ side.name ++ " " ++ path, cause.message]
  | .malformedSide side cause => ["malformed " ++ side.name, cause.message]
  | .malformedKey cause => [cause.message]
  | .malformedSharedKey cause => ["invalid global alignments", cause.message]
  | .malformedOwnKey cause => ["malformed pair alignments", cause.message]
  | .notMeasured cause => measureChain cause

end Entailment.Command
