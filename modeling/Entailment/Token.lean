import Entailment.Text.Basic
import Entailment.Word

/-! # Tokens and fragments

A token is one node of a dependency parse; a fragment is the tokens of one sentence, in the order of
the sentence.

* **`Token`** — the node, whose `head` is the position of its governor;
* **`Token.make`** — a token as a parser reports it, with the rule for the lemma `no`;
* **`Token.moveTo`**, **`Token.withPath`** — a new position, a root path;
* **`Fragment`** — the tokens of a sentence;
* **`Fragment.withoutPunctuation`** — all but the punctuation marks that govern nothing, numbered
  anew;
* **`Fragment.merge`** — the sentences of one text as a single fragment, in which the first root of
  all governs the roots of the later sentences. -/

namespace Entailment

/-! ## Tokens -/

/-- One node of a dependency parse. Positions count from zero. -/
structure Token where
  /-- The position of the token in its fragment. -/
  id : Nat
  /-- The word as it stands in the sentence. -/
  form : String
  /-- The dictionary form of the word. -/
  lemmaForm : String
  /-- The part of speech. -/
  pos : String
  /-- The position of the governor; a root has none. -/
  head : Option Nat
  /-- The relation of the token to its governor. -/
  relation : String
  /-- The relations from the token up to its root, joined by `#`, once a tree holds the token. -/
  path : Option String
  deriving DecidableEq, Repr

namespace Token

/-- The lemma of a negation. -/
def negationLemma : String := "no"

/-- The relation that a negation always carries. -/
def negationRelation : String := "neg"

/-- A token as a parser reports it. A token with the lemma `no` is a negation, whatever relation the
parser gave it. -/
def make (id : Nat) (form lemmaForm pos : String) (head : Option Nat) (relation : String) : Token :=
  { id, form, lemmaForm, pos, head, path := none
    relation := if lemmaForm = negationLemma then negationRelation else relation }

/-- Whether the token has no governor. -/
def isRoot (t : Token) : Bool := t.head.isNone

/-- The token with its root path. -/
def withPath (t : Token) (path : String) : Token := { t with path := some path }

/-- The token at a new position, under a new governor. A root path does not survive the move. -/
def moveTo (t : Token) (id : Nat) (head : Option Nat) : Token := { t with id, head, path := none }

/-- The root path as it is shown: `null` if the token has none. -/
def pathText (t : Token) : String := t.path.getD "null"

/-- The governor as it is shown: a signed number, `-1` for a root. -/
def headText (t : Token) : String := toString (t.head.elim (-1) signedWord)

/-- The one-line form of a token: its fields with double underscores between them. -/
def render (t : Token) : String :=
  Text.joinWith "__"
    [toString t.id, t.form, t.lemmaForm, t.pos, t.headText, t.relation, t.pathText]

/-- The lemma `no` makes a negation, whatever the relation was. -/
@[simp] theorem make_relation_of_no (id : Nat) (form pos : String) (head : Option Nat)
    (relation : String) : (make id form "no" pos head relation).relation = "neg" := rfl

/-- A move keeps the relation. -/
@[simp] theorem moveTo_relation (t : Token) (id : Nat) (head : Option Nat) :
    (t.moveTo id head).relation = t.relation := rfl

/-- After a move a token stands where it was sent. -/
@[simp] theorem moveTo_id (t : Token) (id : Nat) (head : Option Nat) :
    (t.moveTo id head).id = id := rfl

/-- After a move a token has the new governor. -/
@[simp] theorem moveTo_head (t : Token) (id : Nat) (head : Option Nat) :
    (t.moveTo id head).head = head := rfl

/-- A root path that was set is there. -/
@[simp] theorem withPath_path (t : Token) (path : String) :
    (t.withPath path).path = some path := rfl

end Token

/-! ## Fragments -/

/-- The tokens of one sentence, in the order of the sentence. -/
abbrev Fragment := List Token

namespace Fragment

/-- The token with a number of the parse file, where counting starts at one. -/
def numbered? (f : Fragment) : Nat → Option Token
  | 0 => none
  | n + 1 => f[n]?

/-- The one-line forms of the tokens, each with a line feed. -/
def render (f : Fragment) : String := String.join (f.map fun t => t.render ++ "\n")

/-! ### Leaving out punctuation -/

/-- The relation of punctuation marks. -/
def punctuationRelation : String := "punct"

/-- Whether some token has the given position as its head. -/
def governs (f : Fragment) (position : Nat) : Bool := f.any fun t => t.head == some position

/-- Whether the token at a position is a punctuation mark that governs nothing. -/
def isPunctuationLeaf (f : Fragment) (t : Token) (position : Nat) : Bool :=
  t.relation == punctuationRelation && !f.governs position

/-- The tokens that stay, with their positions. -/
def kept (f : Fragment) : List (Token × Nat) :=
  f.zipIdx.filter fun p => !f.isPunctuationLeaf p.1 p.2

/-- The new position of a token that stays. -/
def newPosition? (f : Fragment) (position : Nat) : Option Nat :=
  (f.kept.map Prod.snd).idxOf? position

/-- The fragment without its punctuation leaves. The tokens that stay are numbered anew and keep
their governors, none of which is left out. -/
def withoutPunctuation (f : Fragment) : Fragment :=
  f.kept.zipIdx.map fun p => p.1.1.moveTo p.2 (p.1.1.head.bind f.newPosition?)

end Fragment

/-! ### Merging sentences -/

/-- The token of a sentence whose first token comes to stand at `offset`. Without a governor of its
own it gets the anchor, if there is one. -/
def Token.place (offset : Nat) (anchor : Option Nat) (t : Token) : Token :=
  t.moveTo (wrap (offset + t.id))
    (match t.head with
      | some head => some (wrap (offset + head))
      | none => anchor)

namespace Fragment

/-- The new id of the first root of a sentence whose first token comes to stand at `offset`. -/
def anchor? (offset : Nat) (f : Fragment) : Option Nat :=
  (f.find? Token.isRoot).map fun t => wrap (offset + t.id)

/-- The sentences from one that begins at `offset`, after an anchor was found or not. -/
def mergeFrom (offset : Nat) (anchor : Option Nat) : List Fragment → Fragment
  | [] => []
  | f :: rest =>
    -- The roots of the sentence that brings the anchor stay roots.
    f.map (Token.place offset anchor) ++
      mergeFrom (offset + f.length) (anchor.or (f.anchor? offset)) rest

/-- The sentences of one text as a single fragment. The tokens are numbered through; the first root
that is met is the anchor, and it governs the roots of every later sentence. -/
def merge (sentences : List Fragment) : Fragment := mergeFrom 0 none sentences

end Fragment

end Entailment
