import Entailment.Text.CaseTable

/-! # Lower case

The full Unicode lower case of a text. Every character has a lower case of its own, except that a
capital sigma at the end of a word becomes the final form of that letter.

* **`lowerChar`** — the lower case of one character, on its own;
* **`endsWord`** — the rule for a final sigma;
* **`lowercase`** — the lower case of a string. -/

namespace Entailment.Text

/-- Whether a range of the table holds `n`. -/
def LowerRange.has (r : LowerRange) (n : Nat) : Bool :=
  r.first ≤ n && n ≤ r.last && (n - r.first) % r.stride == 0

/-- Whether one of the ranges holds the character. -/
def inRanges (table : List (Nat × Nat)) (c : Char) : Bool :=
  table.any fun r => r.1 ≤ c.toNat && c.toNat ≤ r.2

/-- The capital sigma. -/
def capitalSigma : Char := '\u03a3'

/-- The lower case of one character, on its own. Only the dotted capital I has two characters. -/
def lowerChar (c : Char) : List Char :=
  if c.toNat < 128 then
    [if 'A' ≤ c ∧ c ≤ 'Z' then Char.ofNat (c.toNat + 32) else c]
  else if c = '\u0130' then ['i', '\u0307']
  else
    match lowerRanges.find? (·.has c.toNat) with
    | some r => [Char.ofNat ((c.toNat : Int) + r.shift).toNat]
    | none => [c]

/-- Whether the first character that is not case-ignorable has case. -/
def meetsCased (cs : List Char) : Bool :=
  match cs.dropWhile (inRanges caseIgnorableRanges) with
  | [] => false
  | c :: _ => inRanges casedRanges c

/-- A letter between `before` (nearest character first) and `after` ends a word if, case-ignorable
characters aside, a letter with case stands before it and none after it. -/
def endsWord (before after : List Char) : Bool := meetsCased before && !meetsCased after

/-- The lower case of a text that follows `before` (nearest character first). -/
def lowerFrom (before : List Char) : List Char → List Char
  | [] => []
  | c :: cs =>
    -- The only letter whose lower case depends on its neighbours.
    (if c = capitalSigma then [if endsWord before cs then '\u03c2' else '\u03c3']
      else lowerChar c) ++ lowerFrom (c :: before) cs

/-- The lower case of a string. -/
def lowercase (s : String) : String := String.ofList (lowerFrom [] s.toList)

end Entailment.Text
