/-! # Machine words

Token positions, node counts and the numbers of a parse file are 64-bit words. They are kept as
natural numbers; this module holds the few places where the width shows, and how words are written
in digits.

* **`wordSize`**, **`wrap`** — one more than the largest word, and a sum reduced to a word;
* **`signedWord`** — the two's complement reading of a word;
* **`Text.digitsValue`** — the number that a run of digits denotes;
* **`Text.readWord`** — reading a word, which takes ASCII digits and nothing else. -/

namespace Entailment

/-- One more than the largest 64-bit word. -/
def wordSize : Nat := 0x10000000000000000

/-- A natural number reduced to a word. -/
def wrap (n : Nat) : Nat := n % wordSize

/-- A number that fits in a word is not changed by reduction. -/
theorem wrap_of_lt {n : Nat} (h : n < wordSize) : wrap n = n := Nat.mod_eq_of_lt h

/-- A reduced number is a word. -/
theorem wrap_lt (n : Nat) : wrap n < wordSize := Nat.mod_lt _ (by decide)

/-- The number of words without a sign: half of all words. -/
def signBit : Nat := 0x8000000000000000

/-- The two's complement reading of a word: the upper half of the words stands for negative
numbers. -/
def signedWord (n : Nat) : Int := if n < signBit then n else (n : Int) - wordSize

namespace Text

/-! ## Digits -/

/-- The ten ASCII digits. -/
def isDigit (c : Char) : Bool := '0' ≤ c && c ≤ '9'

/-- The value of one digit. -/
def digitValue (c : Char) : Nat := c.toNat - '0'.toNat

/-- The number that a run of digits denotes, the first digit counting most. -/
def digitsValue (cs : List Char) : Nat := cs.foldl (fun n c => 10 * n + digitValue c) 0

/-- A machine word written in ASCII digits: at least one digit, no other character, and a value
that fits. -/
def readWord (cs : List Char) : Option Nat :=
  if cs ≠ [] ∧ cs.all isDigit ∧ digitsValue cs < wordSize then some (digitsValue cs) else none

/-- Reading succeeds on the non-empty runs of digits whose value fits, and gives that value. -/
theorem readWord_eq_some_iff {cs : List Char} {n : Nat} :
    readWord cs = some n ↔
      cs ≠ [] ∧ cs.all isDigit = true ∧ digitsValue cs < wordSize ∧ digitsValue cs = n := by
  simp only [readWord, Option.ite_none_right_eq_some, Option.some.injEq, and_assoc]

/-- The value of a hexadecimal digit, in either case of letters. -/
def hexValue? (c : Char) : Option Nat :=
  if isDigit c then some (digitValue c)
  else if 'a' ≤ c ∧ c ≤ 'f' then some (c.toNat - 'a'.toNat + 10)
  else if 'A' ≤ c ∧ c ≤ 'F' then some (c.toNat - 'A'.toNat + 10)
  else none

/-- The number that a run of hexadecimal digits denotes. -/
def hexDigitsValue? : List Char → Option Nat
  | cs => cs.foldl (fun n c => n.bind fun m => (hexValue? c).map (16 * m + ·)) (some 0)

/-- A number in hexadecimal digits, letters in lower case. -/
def hexText (n : Nat) : List Char := Nat.toDigits 16 n

end Text

end Entailment
