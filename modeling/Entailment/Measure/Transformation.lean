import Entailment.Align.Judgment
import Entailment.Edit.Script
import Entailment.Kinds
import Entailment.Tree.Basic

/-! # Transformations

An edit read as a step from the text to the hypothesis. The tokens carry their root paths, so a
transformation stands for itself.

* **`Transformation`** — an edit with its tokens and, for a pair, what is known about it;
* **`Transformation.feature?`** — the string that a learner sees;
* **`Transformation.ofOperation?`** — the transformation of an edit. -/

namespace Entailment

/-- An edit with its tokens. -/
inductive Transformation where
  /-- A pair that is judged an entailment. -/
  | matched (info : Option String) (t h : Token)
  /-- Any other pair, with its judgment if there is one. -/
  | replaced (judgment : Option Judgment) (info : Option String) (t h : Token)
  /-- A hypothesis token that is new. -/
  | inserted (h : Token)
  /-- A text token that is dropped. -/
  | deleted (t : Token)
  deriving DecidableEq, Repr

namespace Transformation

/-- The kind of a transformation. -/
def kind : Transformation → Kind
  | .matched .. => .matched
  | .replaced .. => .replaced
  | .inserted .. => .inserted
  | .deleted .. => .deleted

/-- The short name of the kind. -/
def typeName : Transformation → String
  | .matched .. => "match"
  | .replaced .. => "rep"
  | .inserted .. => "ins"
  | .deleted .. => "del"

/-- The description of the link behind a pair. -/
def info? : Transformation → Option String
  | .matched info _ _ => info
  | .replaced _ info _ _ => info
  | .inserted _ => none
  | .deleted _ => none

/-- The text token. -/
def text? : Transformation → Option Token
  | .matched _ t _ => some t
  | .replaced _ _ t _ => some t
  | .inserted _ => none
  | .deleted t => some t

/-- The hypothesis token. -/
def hypothesis? : Transformation → Option Token
  | .matched _ _ h => some h
  | .replaced _ _ _ h => some h
  | .inserted h => some h
  | .deleted _ => none

/-- The feature string of a pair. -/
def pairFeature (typeName : String) (info : Option String) (t h : Token) : String :=
  "Type:" ++ typeName ++ "#Info:" ++ info.getD "null" ++ "#T_DPrelR:" ++ t.pathText ++
    "#H_DPrelR:" ++ h.pathText

/-- The feature string, whatever kinds are enabled. -/
def feature : Transformation → String
  | .matched info t h => pairFeature "match" info t h
  | .replaced _ info t h => pairFeature "rep" info t h
  | .inserted h => "Type:ins#H_DPrelR:" ++ h.pathText
  | .deleted t => "Type:del#T_DPrelR:" ++ t.pathText

/-- The feature string, if the kind is enabled. -/
def feature? (x : Transformation) (enabled : Kinds) : Option String :=
  if enabled.has x.kind then some x.feature else none

/-- The one-line form of a pair. -/
def renderPair (typeName : String) (info : Option String) (t h : Token) : String :=
  "Type: " ++ typeName ++ " Info: " ++ info.getD "null" ++ " token_T: " ++ t.render ++
    " token_H: " ++ h.render

/-- The one-line form. -/
def render : Transformation → String
  | .matched info t h => renderPair "match" info t h
  | .replaced _ info t h => renderPair "rep" info t h
  | .inserted h => "Type: ins token_H: " ++ h.render
  | .deleted t => "Type: del token_T: " ++ t.render

/-- The transformation of a pair, by what is known about it. -/
def ofPair (a : Aligner) (t h : Token) : Transformation :=
  match a.classify t h with
  | some ⟨.entailment, info⟩ => .matched info t h
  -- Any other judgment labels the pair without making it a match.
  | some ⟨judgment, info⟩ => .replaced (some judgment) info t h
  | none => .replaced none none t h

/-- The transformation of an edit of one tree into another. There is none if the edit is about
something that is no node. -/
def ofOperation? (a : Aligner) (t h : Tree) : Operation → Option Transformation
  | .replace i j => (t.token? i).bind fun x => (h.token? j).map fun y => ofPair a x y
  | .insert j => (h.token? j).map .inserted
  | .delete i => (t.token? i).map .deleted

/-- The transformations of the edits of a script, in order. -/
def ofScript (a : Aligner) (t h : Tree) (s : EditScript) : List Transformation :=
  s.operations.filterMap (ofOperation? a t h)

end Transformation

end Entailment
