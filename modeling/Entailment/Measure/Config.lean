import Entailment.Edit.Cost
import Entailment.Kinds
import Entailment.Sentence.Reader

/-! # Configuration of a measurement

* **`Weights`** — what matches, deletions, insertions and substitutions cost;
* **`AlignmentMode`** — whether alignments change the cost or only the labels;
* **`Config`** — all that a measurement depends on besides the pair and its alignments;
* **`Config.fragment`** — the sentences of a parse file, without punctuation if so configured, as
  one fragment. -/

namespace Entailment

/-- The costs of the elementary edits. -/
structure Weights (α : Type) where
  /-- Pairing two tokens that match. -/
  matching : α
  /-- Deleting a text token. -/
  deletion : α
  /-- Inserting a hypothesis token. -/
  insertion : α
  /-- Pairing two tokens that do not match. -/
  substitution : α

/-- Matches are free and all other edits cost one unit. -/
def Weights.standard {α : Type} [Cost α] : Weights α :=
  ⟨Cost.zero, Cost.one, Cost.one, Cost.one⟩

/-- The part that alignments play in a measurement. -/
inductive AlignmentMode where
  /-- A pair that is judged an entailment matches. -/
  | cost
  /-- Only lexically identical tokens match; alignments label the edits afterwards. -/
  | labels
  deriving DecidableEq, Repr

namespace AlignmentMode

/-- The name of a mode. -/
def name : AlignmentMode → String
  | .cost => "cost"
  | .labels => "labels"

/-- The mode with a given name. -/
def ofName? (s : String) : Option AlignmentMode :=
  if s = "cost" then some .cost
  else if s = "labels" then some .labels
  else none

/-- The mode that a user names. Blanks around the name and the case of ASCII letters do not
count. -/
def ofText? (s : String) : Option AlignmentMode :=
  ofName? (String.ofList (Text.asciiLower (Text.trimmed s.toList)))

/-- A mode is read back from its name. -/
@[simp] theorem ofName?_name (m : AlignmentMode) : ofName? m.name = some m := by cases m <;> rfl

end AlignmentMode

/-- All that a measurement depends on besides the pair and its alignments. -/
structure Config (α : Type) where
  /-- The costs of the edits. -/
  weights : Weights α
  /-- The part of the alignments. -/
  mode : AlignmentMode
  /-- The largest number of nodes of either tree, if there is one. -/
  maxNodes : Option Nat
  /-- The kinds of transformation that become features. -/
  enabled : Kinds
  /-- Whether punctuation is left out when a text is read. -/
  removePunctuation : Bool

/-- Standard weights, alignments that change the cost, no limit, all kinds, punctuation kept. -/
def Config.standard {α : Type} [Cost α] : Config α :=
  { weights := .standard, mode := .cost, maxNodes := none, enabled := .all
    removePunctuation := false }

/-! ## From a parse file to one fragment -/

/-- A sentence as it is measured. -/
def Config.prepare {α : Type} (config : Config α) (f : Fragment) : Fragment :=
  if config.removePunctuation then f.withoutPunctuation else f

/-- The sentences of a parse file as one fragment. -/
def Config.fragment {α : Type} (config : Config α) (text : String) : Except ReadError Fragment :=
  (readSentences text).map fun sentences => Fragment.merge (sentences.map config.prepare)

end Entailment
