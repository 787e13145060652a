import Entailment.Error
import Entailment.Text.Basic
import Entailment.Word

/-! # Sets of transformation kinds

The four kinds of edit step, and sets of them as eight flag bits. Bits that stand for no kind are
kept when a set is read and written.

* **`Kind`**, **`Kinds`** — a kind, a set of kinds;
* **`Kinds.ofNames`** — the set that a comma-separated list of names asks for;
* **`Kinds.text`**, **`Kinds.ofText?`** — the written form of a set, and its reading. -/

namespace Entailment

/-- What an edit step does. -/
inductive Kind where
  /-- Two tokens are paired and the pair is entailed. -/
  | matched
  /-- Two tokens are paired otherwise. -/
  | replaced
  /-- A token of the hypothesis is new. -/
  | inserted
  /-- A token of the text is dropped. -/
  | deleted
  deriving DecidableEq, Repr

/-- The flag bit of a kind. -/
def Kind.flag : Kind → UInt8
  | .matched => 1
  | .replaced => 2
  | .inserted => 4
  | .deleted => 8

/-- The name of a kind in the written form of a set. -/
def Kind.name : Kind → String
  | .matched => "MATCH"
  | .replaced => "REPLACE"
  | .inserted => "INSERTION"
  | .deleted => "DELETION"

/-- The kinds in the order of their flag bits. -/
def Kind.list : List Kind := [.matched, .replaced, .inserted, .deleted]

/-- A set of kinds. -/
structure Kinds where
  /-- The flag bits of the members. -/
  bits : UInt8
  deriving DecidableEq, Repr

namespace Kinds

/-- The set without members. -/
def empty : Kinds := ⟨0⟩

/-- The set of all four kinds. -/
def all : Kinds := ⟨15⟩

/-- The set with one member. -/
def only (k : Kind) : Kinds := ⟨k.flag⟩

/-- The members of both sets. -/
def union (s t : Kinds) : Kinds := ⟨s.bits ||| t.bits⟩

/-- Whether a kind is a member. -/
def has (s : Kinds) (k : Kind) : Bool := s.bits &&& k.flag == k.flag

/-- The set with the members that are switched on. -/
def ofSwitches (replaced matched deleted inserted : Bool) : Kinds :=
  let member (on : Bool) (k : Kind) : Kinds := if on then only k else empty
  (member replaced .replaced).union <| (member matched .matched).union <|
    (member deleted .deleted).union (member inserted .inserted)

/-- The set with all four kinds has each. -/
@[simp] theorem all_has (k : Kind) : all.has k = true := by cases k <;> decide

/-- The set without members has no kind. -/
@[simp] theorem empty_has (k : Kind) : empty.has k = false := by cases k <;> decide

/-! ## Lists of names -/

/-- The set that one name asks for, in lower case: a long or a short name of a kind, or `all`. -/
def ofName? (name : List Char) : Option Kinds :=
  match String.ofList name with
  | "match" => some (only .matched)
  | "replace" | "rep" => some (only .replaced)
  | "insertion" | "ins" => some (only .inserted)
  | "deletion" | "del" => some (only .deleted)
  | "all" => some all
  | _ => none

/-- The union of the sets that the names ask for; the first name of no set is refused. -/
def unionOfNames : List (List Char) → Except FormatError Kinds
  | [] => .ok empty
  | name :: rest =>
    match ofName? (Text.asciiLower name) with
    | none => .error (.unknownKind (String.ofList name))
    | some s => (unionOfNames rest).map s.union

/-- The set that a comma-separated list of names asks for. Blanks around a name, empty names and the
case of ASCII letters do not count. -/
def ofNames (s : String) : Except FormatError Kinds :=
  unionOfNames (((s.toList.splitOn ',').map Text.trimmed).filter (· ≠ []))

/-! ## The written form -/

/-- The bits that stand for no kind. -/
def unknownBits (s : Kinds) : Nat := (s.bits &&& 0xF0).toNat

/-- The names of the members, and the other bits as a hexadecimal number, with bars between
them. -/
def text (s : Kinds) : String :=
  Text.joinWith " | " <|
    ((Kind.list.filter s.has).map Kind.name) ++
      (if s.unknownBits = 0 then [] else ["0x" ++ String.ofList (Text.hexText s.unknownBits)])

/-- A number below 256 in hexadecimal digits, after an optional plus sign. -/
def ofHex? (cs : List Char) : Option Kinds :=
  let digits := match cs with
    | '+' :: rest => rest
    | _ => cs
  if digits = [] then none
  else match Text.hexDigitsValue? digits with
    | some n => if n < 256 then some ⟨UInt8.ofNat n⟩ else none
    | none => none

/-- One part of a written set: a name, or `0x` and a hexadecimal number. -/
def ofPart? (cs : List Char) : Option Kinds :=
  match cs with
  | '0' :: 'x' :: digits => ofHex? digits
  | _ => (Kind.list.find? fun k => k.name.toList = cs).map only

/-- The set that a text writes: parts with bars between them, or nothing at all for the set without
members. -/
def ofText? (s : String) : Option Kinds :=
  if Text.allBlank s.toList then some empty
  else (s.toList.splitOn '|').foldl
    (fun acc part => acc.bind fun t => (ofPart? (Text.trimmed part)).map t.union) (some empty)

end Kinds

end Entailment
