/-! # Edit scripts

* **`Side`** — the text or the hypothesis;
* **`Operation`** — an elementary edit;
* **`EditScript`** — edits that turn one tree into another, bottom up and from left to right. -/

namespace Entailment

/-- A side of the pair that is compared. -/
inductive Side where
  /-- The text. -/
  | text
  /-- The hypothesis. -/
  | hypothesis
  deriving DecidableEq, Repr

/-- The name of a side. -/
def Side.name : Side → String
  | .text => "text"
  | .hypothesis => "hypothesis"

/-- An elementary edit of the text tree into the hypothesis tree. -/
inductive Operation where
  /-- A text node becomes a hypothesis node. -/
  | replace (t h : Nat)
  /-- A hypothesis node is new. -/
  | insert (h : Nat)
  /-- A text node is dropped. -/
  | delete (t : Nat)
  deriving DecidableEq, Repr

namespace Operation

/-- The short form of an edit. -/
def render : Operation → String
  | .replace t h => "rep:" ++ toString t ++ "," ++ toString h
  | .insert h => "ins:" ++ toString h
  | .delete t => "del:" ++ toString t

/-- The pair of nodes of a replacement. -/
def pair? : Operation → Option (Nat × Nat)
  | .replace t h => some (t, h)
  | _ => none

/-- The node of an insertion. -/
def inserted? : Operation → Option Nat
  | .insert h => some h
  | _ => none

/-- The node of a deletion. -/
def deleted? : Operation → Option Nat
  | .delete t => some t
  | _ => none

/-- The text node that an edit is about. -/
def textNode? : Operation → Option Nat
  | .replace t _ => some t
  | .insert _ => none
  | .delete t => some t

/-- The hypothesis node that an edit is about. -/
def hypothesisNode? : Operation → Option Nat
  | .replace _ h => some h
  | .insert h => some h
  | .delete _ => none

end Operation

/-- Edits that turn one tree into another, bottom up and from left to right. -/
structure EditScript where
  /-- The edits in order. -/
  operations : List Operation
  deriving DecidableEq, Repr

namespace EditScript

/-- The number of edits. -/
def size (s : EditScript) : Nat := s.operations.length

/-- Whether there is no edit. -/
def isEmpty (s : EditScript) : Bool := s.operations.isEmpty

/-- The short forms of the edits. -/
def sequence (s : EditScript) : List String := s.operations.map Operation.render

/-- The pairs of replaced nodes. -/
def replacements (s : EditScript) : List (Nat × Nat) := s.operations.filterMap Operation.pair?

/-- The inserted hypothesis nodes. -/
def insertions (s : EditScript) : List Nat := s.operations.filterMap Operation.inserted?

/-- The deleted text nodes. -/
def deletions (s : EditScript) : List Nat := s.operations.filterMap Operation.deleted?

/-- The hypothesis node that a text node becomes, unless it is deleted. -/
def hypothesisOf? (s : EditScript) (t : Nat) : Option Nat :=
  (s.replacements.find? fun p => p.1 == t).map Prod.snd

/-- The text node that a hypothesis node comes from, unless it is inserted. -/
def textOf? (s : EditScript) (h : Nat) : Option Nat :=
  (s.replacements.find? fun p => p.2 == h).map Prod.fst

end EditScript

end Entailment
