import Entailment.Error
import Entailment.Token

/-! # Reading parse files

A parse file holds sentences with blank lines between them; every other line is a row in CoNLL-X
form: ten fields with spaces or tabs between them. Fields 1 to 4 are the number of the token, its
form, its lemma and its part of speech; field 7 is the number of its governor and field 8 its
relation to it. The others are not used.

* **`splitFields`** — the fields of a line;
* **`Row`**, **`Row.parse`** — a row, still in the numbering of the file;
* **`Row.fragment`** — the rows of one sentence as a fragment;
* **`sentenceRuns`** — the lines of each sentence;
* **`readSentences`** — the sentences of a file;
* **`readSentence`** — the sentence of a file that may hold only one. -/

namespace Entailment

/-! ## Rows -/

/-- The fields of a line from some point on, and whether they use the line up. The point is inside a
field (`some`, with the field so far, last character first) or between fields (`none`). A field ends
at any blank, but only spaces and tabs may follow it. -/
def splitFieldsFrom : Option (List Char) → List Char → List (List Char) × Bool
  | some field, [] => ([field.reverse], true)
  | none, [] => ([], false)
  | some field, c :: cs =>
    if Text.isGap c then
      let rest := splitFieldsFrom none cs
      (field.reverse :: rest.1, rest.2)
    -- Any other blank ends the field, but no further field may follow it.
    else if Text.isBlank c then ([field.reverse], false)
    else splitFieldsFrom (some (c :: field)) cs
  | none, c :: cs =>
    if Text.isGap c then splitFieldsFrom none cs
    else if Text.isBlank c then ([], false)
    else splitFieldsFrom (some [c]) cs

/-- The fields of a line without blanks at its ends, and whether they use the line up. -/
def splitFields (cs : List Char) : List (List Char) × Bool := splitFieldsFrom none cs

/-- One token as a parse file has it: ids and heads count from one. -/
structure Row where
  /-- The number of the line. -/
  line : Nat
  /-- The number of the token. -/
  id : Nat
  /-- The word. -/
  form : String
  /-- Its dictionary form. -/
  lemmaForm : String
  /-- Its part of speech. -/
  pos : String
  /-- The number of the governor; a root has none. -/
  head : Option Nat
  /-- The relation to the governor. -/
  relation : String
  deriving DecidableEq, Repr

namespace Row

/-- The number in a field. -/
def number (line : Nat) (field : NumberField) (value : List Char) : Except ReadError Nat :=
  match Text.readWord value with
  | some n => .ok n
  | none => .error (.invalidNumber line field (String.ofList value))

/-- The governor in a field. An underscore and the number zero stand for none. -/
def governor (line : Nat) (value : List Char) : Except ReadError (Option Nat) :=
  if value = ['_'] then .ok none
  else (number line .head value).map fun n => if n = 0 then none else some n

/-- The row on a line without blanks at its ends. -/
def parse (line : Nat) (text : List Char) : Except ReadError Row :=
  match splitFields text with
  | ([id, form, lemmaForm, pos, _, _, head, relation, _, _], true) => do
    let id ← number line .id id
    let head ← governor line head
    .ok
      { line, id, head
        form := String.ofList form
        lemmaForm := String.ofList lemmaForm
        pos := String.ofList pos
        relation := String.ofList relation }
  | (fields, _) => .error (.fieldCount line fields.length)

/-- The token of a row that stands at a position of a sentence of `len` tokens. Its id has to be the
position and its head a token of the sentence. -/
def token (len position : Nat) (row : Row) : Except ReadError Token :=
  if row.id ≠ position + 1 then .error (.nonSequentialId row.line (position + 1) row.id)
  else
    match row.head with
    | some head =>
      if len < head then .error (.headOutOfRange row.line head len)
      else .ok (Token.make position row.form row.lemmaForm row.pos (some (head - 1)) row.relation)
    | none => .ok (Token.make position row.form row.lemmaForm row.pos none row.relation)

/-- The rows of one sentence as a fragment. -/
def fragment (rows : List Row) : Except ReadError Fragment :=
  rows.zipIdx.mapM fun p => p.1.token rows.length p.2

end Row

/-! ## Files -/

/-- A line of a file: its number and its text without blanks at the ends. -/
abbrev TrimmedLine := Nat × List Char

/-- The lines of a text, trimmed and numbered from one. -/
def trimmedLines (text : String) : List TrimmedLine :=
  (Text.numbered text.toList).map fun p => (p.1, Text.trimmed p.2)

/-- The lines of each sentence: the longest runs of lines that are not blank. -/
def sentenceRuns (text : String) : List (List TrimmedLine) :=
  ((trimmedLines text).splitOnP fun p => p.2.isEmpty).filter fun run => !run.isEmpty

/-- The sentence on a run of lines. All its rows are read before they are put together. -/
def readRun (run : List TrimmedLine) : Except ReadError Fragment := do
  let rows ← run.mapM fun p => Row.parse p.1 p.2
  Row.fragment rows

/-- The sentences of a parse file, in order. -/
def readSentences (text : String) : Except ReadError (List Fragment) :=
  (sentenceRuns text).mapM readRun

/-- The number of the line on which a run begins. -/
def runStart (run : List TrimmedLine) : Nat := (run.head?.map Prod.fst).getD 0

/-- The sentence of a parse file that may hold only one. A file without sentences holds the fragment
without tokens. -/
def readSentence (text : String) : Except ReadError Fragment := do
  let sentences ← readSentences text
  match sentenceRuns text with
  | _ :: second :: _ => .error (.multipleSentences (runStart second))
  | _ => .ok (sentences.head?.getD [])

end Entailment
