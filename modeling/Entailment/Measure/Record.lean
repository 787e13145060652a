import Entailment.Json.Value
import Entailment.Measure.Config
import Entailment.Measure.FeatureIndex

/-! # Records

The JSON forms of the library's data.

* **`Token.ofJson?`**, **`Link.ofJson?`**, **`Config.ofJson?`**, … — reading;
* **`Token.json`**, **`Transformation.json`**, **`Config.json`**, … — writing;
* **`AlignmentRecord`**, **`PairRecord`** — an aligner's judgment and a pair, as files have them. -/

namespace Entailment

open Json (Value)

/-! ## Tokens -/

/-- The token of a record. A root path is not read. -/
def Token.ofJson? (v : Value) : Option Token := do
  match ← v.record? ["id", "form", "lemma", "pos", "head", "deprel"] with
  | [id, form, lemmaForm, pos, head, relation] =>
    let id ← Value.required? Value.word? id
    let form ← Value.required? Value.text? form
    let lemmaForm ← Value.required? Value.text? lemmaForm
    let pos ← Value.required? Value.text? pos
    let head ← Value.default? (Value.optional? Value.word?) none head
    let relation ← Value.required? Value.text? relation
    return Token.make id form lemmaForm pos head relation
  | _ => none

/-- The record of a token. A root path is written if there is one. -/
def Token.json (t : Token) : Value :=
  .object <|
    [("id", .ofNat t.id), ("form", .string t.form), ("lemma", .string t.lemmaForm),
      ("pos", .string t.pos), ("head", .ofOption .ofNat t.head),
      ("deprel", .string t.relation)] ++
    t.path.elim [] fun path => [("deprel_path", .string path)]

/-- The array of the tokens of a fragment. -/
def Fragment.tokensJson (f : Fragment) : Value := .array (f.map Token.json)

/-- The fragment of a record. -/
def Fragment.ofJson? (v : Value) : Option Fragment := do
  match ← v.record? ["tokens"] with
  | [tokens] => Value.required? (Value.list? Token.ofJson?) tokens
  | _ => none

/-- The record of a fragment. -/
def Fragment.json (f : Fragment) : Value := .object [("tokens", f.tokensJson)]

/-! ## Alignments -/

/-- The link of the three values of a record, given how the direction is read. -/
def Link.ofFields? (readDirection : Value → Option Direction)
    (info strength direction : Option Value) : Option Link := do
  let info ← Value.required? Value.text? info
  let strength ← Value.required? Value.float? strength
  let direction ← Value.required? readDirection direction
  return { info, strength, direction }

/-- The link of a record. -/
def Link.ofJson? (v : Value) : Option Link := do
  match ← v.record? ["link_info", "strength", "direction"] with
  | [info, strength, direction] =>
    Link.ofFields? (Value.choice? Direction.ofName?) info strength direction
  | _ => none

/-- An aligner's judgment under its key. -/
structure AlignmentRecord where
  /-- The key, as the aligner writes it. -/
  key : String
  /-- The judgment. -/
  link : Link

/-- The judgment of a record, `depth` levels below the limit of nesting. All other fields of the
object are taken in too, and so have to be well-formed. -/
def AlignmentRecord.ofJson? (depth : Nat) : Value → Option AlignmentRecord
  | .object fields => do
    match ← Value.record? ["key", "link_info", "strength", "direction"] (.object fields) with
    | [key, info, strength, direction] =>
      let key ← Value.required? Value.text? key
      let link ← Link.ofFields? (Value.wideChoice? Direction.ofName?) info strength direction
      -- The limit counts from the whole text, so what is left of it depends on the record's place.
      if (fields.filter fun f => f.1 ≠ "key").all fun f => f.2.keepable (depth - 1) then
        some { key, link }
      else none
    | _ => none
  | _ => none

/-- The judgments of an array, `depth` levels below the limit of nesting. -/
def AlignmentRecord.listOfJson? (depth : Nat) (v : Value) : Option (List AlignmentRecord) :=
  v.list? (ofJson? (depth - 1))

/-- The given table with judgments; the first record of a key stays. -/
def AlignTable.addRecords (m : AlignTable) : List AlignmentRecord → Except FormatError AlignTable
  | [] => .ok m
  | r :: rest =>
    match m.insertKeyed r.key r.link with
    | .ok m => addRecords m rest
    | .error e => .error e

/-- The table of judgments; the first record of a key stays. -/
def AlignTable.ofRecords (records : List AlignmentRecord) : Except FormatError AlignTable :=
  empty.addRecords records

/-- The alignments of one pair: a table of its own, or the shared one as it is. -/
inductive PairTable where
  /-- The pair has no judgments of its own. -/
  | borrowed
  /-- The pair's own judgments, and the shared ones under the other keys. -/
  | owned (table : AlignTable)

/-- The table of a pair, given the shared one. -/
def PairTable.table (shared : AlignTable) : PairTable → AlignTable
  | .borrowed => shared
  | .owned table => table

/-- The alignments of one pair, given its own judgments and the shared table. -/
def PairTable.layer (own : List AlignmentRecord) (shared : AlignTable) :
    Except FormatError PairTable :=
  if own.isEmpty then .ok .borrowed
  else (AlignTable.ofRecords own).map fun m => .owned (m.fillFrom shared)

/-! ## Pairs -/

/-- One line of a file of pairs. -/
structure PairRecord where
  /-- The name of the pair. -/
  id : String
  /-- The parse of the text. -/
  text : String
  /-- The parse of the hypothesis. -/
  hypothesis : String
  /-- The judgments of the pair's own. -/
  alignments : List AlignmentRecord

/-- The pair of a record. The judgments may be missing. -/
def PairRecord.ofJson? (v : Value) : Option PairRecord := do
  match ← v.record? ["id", "text", "hypothesis", "alignments"] with
  | [id, text, hypothesis, alignments] =>
    let id ← Value.required? Value.text? id
    let text ← Value.required? Value.text? text
    let hypothesis ← Value.required? Value.text? hypothesis
    let alignments ←
      Value.default? (AlignmentRecord.listOfJson? (Value.depthLimit - 1)) [] alignments
    return { id, text, hypothesis, alignments }
  | _ => none

/-! ## Configurations -/

/-- The weights of a record; those that are missing are the standard ones. -/
def Weights.ofJson? (v : Value) : Option (Weights Float) := do
  let w : Weights Float := .standard
  match ← v.record? ["match_weight", "delete_weight", "insert_weight", "substitute_weight"] with
  | [matching, deletion, insertion, substitution] =>
    let matching ← Value.default? Value.float? w.matching matching
    let deletion ← Value.default? Value.float? w.deletion deletion
    let insertion ← Value.default? Value.float? w.insertion insertion
    let substitution ← Value.default? Value.float? w.substitution substitution
    return { matching, deletion, insertion, substitution }
  | _ => none

/-- The record of weights. -/
def Weights.json (w : Weights Float) : Value :=
  .object
    [("match_weight", .ofFloat w.matching), ("delete_weight", .ofFloat w.deletion),
      ("insert_weight", .ofFloat w.insertion), ("substitute_weight", .ofFloat w.substitution)]

/-- The set of kinds of a string. -/
def Kinds.ofJson? (v : Value) : Option Kinds := v.text?.bind Kinds.ofText?

/-- The configuration of a record; what is missing is as in the standard one. -/
def Config.ofJson? (v : Value) : Option (Config Float) := do
  let c : Config Float := .standard
  match ← v.record?
      ["weights", "alignment_mode", "max_nodes", "enabled", "remove_punctuation"] with
  | [weights, mode, maxNodes, enabled, removePunctuation] =>
    let weights ← Value.default? Weights.ofJson? c.weights weights
    let mode ← Value.default? (Value.choice? AlignmentMode.ofName?) c.mode mode
    let maxNodes ← Value.default? (Value.optional? Value.word?) c.maxNodes maxNodes
    let enabled ← Value.default? Kinds.ofJson? c.enabled enabled
    let removePunctuation ← Value.default? Value.bool? c.removePunctuation removePunctuation
    return { weights, mode, maxNodes, enabled, removePunctuation }
  | _ => none

/-- The record of a configuration. -/
def Config.json (c : Config Float) : Value :=
  .object
    [("weights", c.weights.json), ("alignment_mode", .string c.mode.name),
      ("max_nodes", .ofOption .ofNat c.maxNodes), ("enabled", .string c.enabled.text),
      ("remove_punctuation", .bool c.removePunctuation)]

/-! ## Results -/

/-- The record of a transformation. -/
def Transformation.json : Transformation → Value
  | .matched info t h =>
    .object
      [("type", .string "match"), ("info", .ofOption .string info), ("t", t.json), ("h", h.json)]
  | .replaced judgment info t h =>
    .object
      [("type", .string "replace"), ("judgment", .ofOption (fun j => .string j.name) judgment),
        ("info", .ofOption .string info), ("t", t.json), ("h", h.json)]
  | .inserted h => .object [("type", .string "insertion"), ("h", h.json)]
  | .deleted t => .object [("type", .string "deletion"), ("t", t.json)]

/-- The fields of the record of a measurement. -/
def Measurement.fields (m : Measurement Float) : List (String × Value) :=
  [("raw", .ofFloat m.raw), ("normalized", .ofFloat m.normalized),
    ("transformations", .array (m.transformations.map Transformation.json))]

/-- The feature index of an array of names. -/
def FeatureIndex.ofJson? (v : Value) : Option FeatureIndex :=
  (v.list? Value.text?).map FeatureIndex.ofNames

/-- The array of the names of a feature index. -/
def FeatureIndex.json (index : FeatureIndex) : Value := .array (index.names.map .string)

end Entailment
