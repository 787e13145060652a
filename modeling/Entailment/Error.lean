/-! # Refused spellings and input files

* **`FormatError`** — a key, a direction or a kind that is not spelled as it has to be;
* **`ReadError`** — what is wrong with a line of an input file, with the number of the line;
* **`FormatError.message`**, **`ReadError.message`** — their wordings. -/

namespace Entailment

/-! ## Spellings -/

/-- A spelling that is refused, with the text at fault. -/
inductive FormatError where
  /-- An alignment key without the separator of its two sides. -/
  | malformedKey (key : String)
  /-- A direction other than the two there are. -/
  | unknownDirection (text : String)
  /-- A name of no kind of transformation. -/
  | unknownKind (name : String)
  deriving DecidableEq, Repr

/-- The wording of a refusal. -/
def FormatError.message : FormatError → String
  | .malformedKey key => "alignment key '" ++ key ++ "' is not of the form T__H"
  | .unknownDirection text => "unknown direction '" ++ text ++ "', expected TtoH or HtoT"
  | .unknownKind name => "unknown transformation kind '" ++ name ++ "'"

/-! ## Input files -/

/-- The fields of a row that hold a number. -/
inductive NumberField where
  /-- The position of the token. -/
  | id
  /-- The position of the governor. -/
  | head
  deriving DecidableEq, Repr

/-- The name of a field that holds a number. -/
def NumberField.name : NumberField → String
  | .id => "id"
  | .head => "head"

/-- What is wrong with a line of an input file. Lines count from one. -/
inductive ReadError where
  /-- A row does not have ten fields. -/
  | fieldCount (line found : Nat)
  /-- A field does not hold a number. -/
  | invalidNumber (line : Nat) (field : NumberField) (value : String)
  /-- The ids of a sentence do not count from one. -/
  | nonSequentialId (line expected found : Nat)
  /-- A head is no token of the sentence. -/
  | headOutOfRange (line head len : Nat)
  /-- A second sentence begins where only one may stand. -/
  | multipleSentences (line : Nat)
  /-- A line of a manual list is no pair. -/
  | manualAlignment (line : Nat)
  deriving DecidableEq, Repr

/-- What is wrong, without the line. -/
def ReadError.detail : ReadError → String
  | .fieldCount _ found => "expected 10 fields, found " ++ toString found
  | .invalidNumber _ field value => field.name ++ " '" ++ value ++ "' is not a number"
  | .nonSequentialId _ expected found =>
    "token id " ++ toString found ++ ", expected " ++ toString expected
  | .headOutOfRange _ head len =>
    "head " ++ toString head ++ " is outside a sentence of " ++ toString len ++ " tokens"
  | .multipleSentences _ => "a second sentence starts here, expected exactly one"
  | .manualAlignment _ => "expected 'form_POS<TAB>form_POS'"

/-- The number of the line at fault. -/
def ReadError.line : ReadError → Nat
  | .fieldCount line _ => line
  | .invalidNumber line _ _ => line
  | .nonSequentialId line _ _ => line
  | .headOutOfRange line _ _ => line
  | .multipleSentences line => line
  | .manualAlignment line => line

/-- The wording of a refusal. -/
def ReadError.message (e : ReadError) : String := "line " ++ toString e.line ++ ": " ++ e.detail

end Entailment
