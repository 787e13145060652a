import Entailment.Align.Manual
import Entailment.Align.Table
import Entailment.Text.Lowercase

/-! # Judging pairs of tokens

* **`Judgment`**, **`LocalAlignment`** — what is known about a text token and a hypothesis token;
* **`Aligner`** — an alignment table and a manual list;
* **`Aligner.classify`** — what they say about a pair. -/

namespace Entailment

/-- How a text token relates to a hypothesis token. -/
inductive Judgment where
  /-- The text token entails the other. -/
  | entailment
  /-- The tokens contradict each other. -/
  | contradiction
  /-- The relation is open. -/
  | unknown
  deriving DecidableEq, Repr

namespace Judgment

/-- The written form of a judgment. -/
def name : Judgment → String
  | .entailment => "LOCAL-ENTAILMENT"
  | .contradiction => "LOCAL-CONTRADICTION"
  | .unknown => "UNKNOWN"

/-- The judgment with a given name. -/
def ofName? (s : String) : Option Judgment :=
  if s = "LOCAL-ENTAILMENT" then some .entailment
  else if s = "LOCAL-CONTRADICTION" then some .contradiction
  else if s = "UNKNOWN" then some .unknown
  else none

/-- A judgment is read back from its name. -/
@[simp] theorem ofName?_name (j : Judgment) : ofName? j.name = some j := by cases j <;> rfl

end Judgment

/-- A judgment and the link it rests on, if it rests on one. -/
structure LocalAlignment where
  /-- How the tokens relate. -/
  judgment : Judgment
  /-- The description of the link. -/
  info : Option String
  deriving DecidableEq, Repr

/-- The judgment of a link: open if it runs from hypothesis to text, else a contradiction between
antonyms and an entailment otherwise. -/
def Link.judgment (l : Link) : Judgment :=
  if l.direction = .hypothesisToText then .unknown
  else if l.isAntonym then .contradiction
  else .entailment

/-- Whether two tokens have the same relation and, but for letter case, the same lemma. -/
def lexicallyIdentical (t h : Token) : Bool :=
  t.relation == h.relation && Text.lowercase t.lemmaForm == Text.lowercase h.lemmaForm

/-- What is known about pairs of tokens. -/
structure Aligner where
  /-- The links of an automatic aligner. -/
  table : AlignTable
  /-- The pairs a user declares. -/
  manual : ManualPairs

namespace Aligner

/-- What is known about a pair. Nothing is known about tokens of different relations. Equal lemmas
and declared pairs are entailed; otherwise the link of the tokens decides. -/
def classify (a : Aligner) (t h : Token) : Option LocalAlignment :=
  if t.relation ≠ h.relation then none
  else if lexicallyIdentical t h || a.manual.contains t h then some ⟨.entailment, none⟩
  else (a.table.lookup t h).map fun l => ⟨l.judgment, some l.describe⟩

/-- Whether the text token is known to entail the hypothesis token. -/
def entails (a : Aligner) (t h : Token) : Bool :=
  (a.classify t h).any fun l => l.judgment == .entailment

end Aligner

/-- Every token is lexically identical to itself. -/
@[simp] theorem lexicallyIdentical_self (t : Token) : lexicallyIdentical t t = true := by
  simp [lexicallyIdentical]

/-- Lexically identical tokens have the same relation. -/
theorem relation_eq_of_lexicallyIdentical {t h : Token} (hth : lexicallyIdentical t h = true) :
    t.relation = h.relation := by
  rw [lexicallyIdentical, Bool.and_eq_true] at hth
  exact eq_of_beq hth.1

end Entailment
