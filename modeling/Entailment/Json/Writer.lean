import Entailment.Decimal.Shortest
import Entailment.Json.Value

/-! # Writing JSON

* **`floatText`** — the text of a double: its shortest decimal, positional if it is neither small
  nor large;
* **`quoted`** — a string literal;
* **`compact`**, **`pretty`** — a value on one line, a value with a line for every item. -/

namespace Entailment.Json

open Decimal (Shape Scaled Number)

/-- The smallest exponent of the leading digit that is written positionally. -/
def leastPositional : Int := -5

/-- The largest exponent of the leading digit that is written positionally. -/
def greatestPositional : Int := 15

/-- So many zeros. -/
def zeros (n : Nat) : List Char := List.replicate n '0'

/-- The text of a positive decimal. Positional texts have a digit on both sides of the point; others
have one digit before it, and an exponent with its sign. -/
def decimalText (s : Scaled) : List Char :=
  let digits := Nat.toDigits 10 s.digits
  let top := s.exponent + digits.length - 1
  if leastPositional ≤ top ∧ top ≤ greatestPositional then
    if 0 ≤ s.exponent then digits ++ zeros s.exponent.toNat ++ ['.', '0']
    else if 0 ≤ top then
      digits.take (top.toNat + 1) ++ '.' :: digits.drop (top.toNat + 1)
    else ['0', '.'] ++ zeros (-top - 1).toNat ++ digits
  else
    let point := if digits.length = 1 then [] else '.' :: digits.drop 1
    digits.take 1 ++ point ++ ['e', if 0 ≤ top then '+' else '-'] ++ Nat.toDigits 10 top.natAbs

/-- The text of a double; numbers that JSON does not have are `null`. -/
def floatText (x : Float) : String :=
  match Shape.ofFloat x with
  | .undefined => "null"
  | .infinite _ => "null"
  | .zero negative => if negative then "-0.0" else "0.0"
  | .decimal negative s =>
    String.ofList ((if negative then ['-'] else []) ++ decimalText s)

/-- The text of a number. -/
def numberText : Number → String
  | .natural n => toString n
  | .negative n => "-" ++ toString n
  | .float x => floatText x

/-- One character of a string literal. Quotes, backslashes and control characters are escaped, with
one letter where there is one. -/
def escapedChar (c : Char) : List Char :=
  if c = '"' then ['\\', '"']
  else if c = '\\' then ['\\', '\\']
  else if c = '\n' then ['\\', 'n']
  else if c = '\r' then ['\\', 'r']
  else if c = '\t' then ['\\', 't']
  else if c = '\x08' then ['\\', 'b']
  else if c = '\x0c' then ['\\', 'f']
  else if c < ' ' then
    ['\\', 'u', '0', '0', Nat.digitChar (c.toNat / 16), Nat.digitChar (c.toNat % 16)]
  else [c]

/-- A string literal. -/
def quoted (s : String) : String :=
  String.ofList ('"' :: (s.toList.flatMap escapedChar ++ ['"']))

/-- A line feed and the indentation of the given depth. -/
def newline (depth : Nat) : String := "\n" ++ String.ofList (List.replicate (2 * depth) ' ')

mutual

/-- A value on one line. -/
def compact : Value → String
  | .null => "null"
  | .bool b => if b then "true" else "false"
  | .number n => numberText n
  | .string s => quoted s
  | .array items => "[" ++ compactItems items ++ "]"
  | .object fields => "\x7b" ++ compactFields fields ++ "\x7d"
  | .illFormed => "null"

/-- Items with commas between them. -/
def compactItems : List Value → String
  | [] => ""
  | [v] => compact v
  | v :: rest => compact v ++ "," ++ compactItems rest

/-- Fields with commas between them. -/
def compactFields : List (String × Value) → String
  | [] => ""
  | [f] => quoted f.1 ++ ":" ++ compact f.2
  | f :: rest => quoted f.1 ++ ":" ++ compact f.2 ++ "," ++ compactFields rest

end

mutual

/-- A value with a line for every item and every field, two spaces deeper than what it is part
of. -/
def pretty (depth : Nat) : Value → String
  | .null => "null"
  | .bool b => if b then "true" else "false"
  | .number n => numberText n
  | .string s => quoted s
  | .array [] => "[]"
  | .array items => "[" ++ prettyItems (depth + 1) items ++ newline depth ++ "]"
  | .object [] => "\x7b\x7d"
  | .object fields => "\x7b" ++ prettyFields (depth + 1) fields ++ newline depth ++ "\x7d"
  | .illFormed => "null"

/-- Items on lines of their own, with commas between them. -/
def prettyItems (depth : Nat) : List Value → String
  | [] => ""
  | [v] => newline depth ++ pretty depth v
  | v :: rest => newline depth ++ pretty depth v ++ "," ++ prettyItems depth rest

/-- Fields on lines of their own, with commas between them. -/
def prettyFields (depth : Nat) : List (String × Value) → String
  | [] => ""
  | [f] => newline depth ++ quoted f.1 ++ ": " ++ pretty depth f.2
  | f :: rest =>
    newline depth ++ quoted f.1 ++ ": " ++ pretty depth f.2 ++ "," ++ prettyFields depth rest

end

end Entailment.Json
