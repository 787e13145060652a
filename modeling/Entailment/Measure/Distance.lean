import Entailment.Edit.Distance
import Entailment.Measure.Config
import Entailment.Measure.Transformation

/-! # Measuring a pair

* **`priced`** — the costs of editing one tree into another, with pairs priced by alignment;
* **`normalized`** — a distance in relation to the largest one there is reason for;
* **`Measurement`** — the distance, and the transformations behind it;
* **`measure`** — the measurement of two fragments, or why there is none. -/

namespace Entailment

/-- Why a pair is not measured, or a configuration not understood. -/
inductive MeasureError where
  /-- The tokens of a side are no tree. -/
  | malformedTree (side : Side) (defect : TreeError)
  /-- A side has more nodes than allowed. -/
  | treeTooLarge (side : Side) (nodes limit : Nat)
  /-- A name of no alignment mode. -/
  | unknownMode (text : String)
  deriving DecidableEq, Repr

/-- The wording of a refusal. -/
def MeasureError.message : MeasureError → String
  | .malformedTree side defect => "malformed " ++ side.name ++ " tree: " ++ defect.message
  | .treeTooLarge side nodes limit =>
    side.name ++ " tree has " ++ toString nodes ++ " nodes, the limit is " ++ toString limit
  | .unknownMode text => "unknown alignment mode '" ++ text ++ "', expected 'cost' or 'labels'"

/-- The mode that a user names; any other text is refused. -/
def AlignmentMode.ofText (s : String) : Except MeasureError AlignmentMode :=
  match ofText? s with
  | some m => .ok m
  | none => .error (.unknownMode s)

variable {α : Type}

/-- Whether two tokens match, in the given mode. -/
def Aligner.isMatch (a : Aligner) (mode : AlignmentMode) (t h : Token) : Bool :=
  match mode with
  | .cost => a.entails t h
  | .labels => lexicallyIdentical t h

/-- The costs of editing one tree into another, with pairs priced by alignment. -/
def priced (a : Aligner) (mode : AlignmentMode) (w : Weights α) (t h : Tree) : CostModel α where
  replace i j :=
    match t.given[i]?, h.given[j]? with
    | some x, some y => if a.isMatch mode x y then w.matching else w.substitution
    | _, _ => w.substitution
  insert _ := w.insertion
  delete _ := w.deletion

variable [Cost α]

/-- A distance over the cost of deleting all of the text and inserting all of the hypothesis; zero
if that cost is zero. -/
def normalized (raw : α) (textNodes hypothesisNodes : Nat) (w : Weights α) : α :=
  let norm := Cost.add (Cost.times textNodes w.deletion) (Cost.times hypothesisNodes w.insertion)
  if Cost.isZero norm then Cost.zero else Cost.quotient raw norm

/-- The distance of a pair and what lies behind it. -/
structure Measurement (α : Type) where
  /-- The tree edit distance. -/
  raw : α
  /-- The distance in relation to the sizes of the trees. -/
  normalized : α
  /-- The edits, bottom up and from left to right. -/
  transformations : List Transformation

/-- The feature strings of the enabled transformations. -/
def Measurement.features {α : Type} (m : Measurement α) (enabled : Kinds) : List String :=
  m.transformations.filterMap (·.feature? enabled)

/-- The tree of one side, unless it is too large or no tree. -/
def Config.tree {α : Type} (config : Config α) (side : Side) (f : Fragment) :
    Except MeasureError Tree :=
  match config.maxNodes with
  | some limit =>
    if limit < f.length then .error (.treeTooLarge side f.length limit)
    else (Tree.ofFragment f).mapError (.malformedTree side)
  | none => (Tree.ofFragment f).mapError (.malformedTree side)

/-- The measurement of two trees. -/
def measureTrees (config : Config α) (a : Aligner) (t h : Tree) : Measurement α :=
  let comparison := t.compare h (priced a config.mode config.weights t h)
  let raw := comparison.distance
  { raw
    normalized := Entailment.normalized raw t.size h.size config.weights
    transformations := Transformation.ofScript a t h comparison.script }

/-- The measurement of two fragments. The text is looked at first. -/
def measure (config : Config α) (a : Aligner) (text hypothesis : Fragment) :
    Except MeasureError (Measurement α) := do
  let t ← config.tree .text text
  let h ← config.tree .hypothesis hypothesis
  return measureTrees config a t h

end Entailment
