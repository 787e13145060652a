import Entailment.Word

/-! # Numerals

The decimal numerals of JSON and the numbers they stand for. An integer that fits in 64 bits is that
integer. Any other numeral is a double: as many digits as fit in a 64-bit word are taken as an
integer, which is rounded to a double and then multiplied or divided by a power of ten. That is not
always the double nearest to the numeral, but one next to it at most.

* **`Numeral`**, **`Numeral.read?`** — a numeral by its parts;
* **`Number`**, **`Numeral.number?`** — what it stands for, unless it is out of range. -/

namespace Entailment.Decimal

open Text (isDigit digitValue digitsValue)

/-- A numeral by its parts. -/
structure Numeral where
  /-- Whether it begins with a minus sign. -/
  negative : Bool
  /-- The digits of the integer part. -/
  whole : List Char
  /-- The digits after the point, if there is one. -/
  fraction : Option (List Char)
  /-- The exponent, if there is one: whether it is negative, and its digits. -/
  exponent : Option (Bool × List Char)
  deriving DecidableEq, Repr

/-- A number as numerals denote it. -/
inductive Number where
  /-- A natural number. -/
  | natural (n : Nat)
  /-- The negative of a positive natural number. -/
  | negative (n : Nat)
  /-- A double. -/
  | float (x : Float)

namespace Numeral

/-- The exponent of a numeral from its mark on: the letter, an optional sign, at least one digit and
nothing else. -/
def readExponent? : List Char → Option (Bool × List Char)
  | '-' :: ds => if ds ≠ [] ∧ ds.all isDigit then some (true, ds) else none
  | '+' :: ds => if ds ≠ [] ∧ ds.all isDigit then some (false, ds) else none
  | ds => if ds ≠ [] ∧ ds.all isDigit then some (false, ds) else none

/-- The numeral with the given start and the exponent in the rest of its text, if the rest is not
empty. -/
def withExponent? (start : Numeral) : List Char → Option Numeral
  | [] => some start
  | c :: cs =>
    if c = 'e' ∨ c = 'E' then
      (readExponent? cs).map fun e => { start with exponent := some e }
    else none

/-- The unsigned numeral of a text. The integer part has no superfluous zero in front, and a point
has digits on both sides. -/
def readUnsigned? (negative : Bool) (cs : List Char) : Option Numeral :=
  let whole := cs.takeWhile isDigit
  let rest := cs.dropWhile isDigit
  if whole = [] ∨ (whole.head? = some '0' ∧ whole.length ≠ 1) then none
  else
    match rest with
    | '.' :: rest =>
      let fraction := rest.takeWhile isDigit
      if fraction = [] then none
      else withExponent? ⟨negative, whole, some fraction, none⟩ (rest.dropWhile isDigit)
    | _ => withExponent? ⟨negative, whole, none, none⟩ rest

/-- The numeral of a text. -/
def read? : List Char → Option Numeral
  | '-' :: cs => readUnsigned? true cs
  | cs => readUnsigned? false cs

/-- The word `n` with further digits as long as the result is a word, and the digits that are
left. -/
def fill (n : Nat) : List Char → Nat × List Char
  | [] => (n, [])
  | c :: cs =>
    if 10 * n + digitValue c < wordSize then fill (10 * n + digitValue c) cs else (n, c :: cs)

/-- A double divided by a power of ten, in steps of no more than 308 places. -/
def divided (x : Float) (places : Nat) : Float :=
  if places ≤ 308 then x / Float.ofScientific 1 false places
  else if x == 0.0 then x
  else divided (x / Float.ofScientific 1 false 308) (places - 308)
termination_by places

/-- A double multiplied by a power of ten, unless that is too large. -/
def multiplied? (x : Float) (places : Nat) : Option Float :=
  if places ≤ 308 then
    let y := x * Float.ofScientific 1 false places
    if y.isInf then none else some y
  else if x == 0.0 then some x
  else none

/-- The double of a word and an exponent of ten. -/
def scaled? (n : Nat) (exponent : Int) : Option Float :=
  if 0 ≤ exponent then multiplied? (Float.ofNat n) exponent.toNat
  else some (divided (Float.ofNat n) (-exponent).toNat)

/-- The largest exponent that is looked at; beyond it only its sign counts. -/
def largestExponent : Nat := 0x7fffffff

/-- The magnitude of a numeral as a double, unless it is too large. -/
def magnitude? (s : Numeral) : Option Float :=
  -- A digit left out of the integer part is a place more, one taken from behind the point a place
  -- less.
  let (n, dropped) := fill 0 s.whole
  let fraction := s.fraction.getD []
  let (n, unused) := fill n fraction
  let shift : Int := dropped.length - (fraction.length - unused.length : Nat)
  match s.exponent with
  | none => scaled? n shift
  | some (negative, digits) =>
    let e := digitsValue digits
    -- Too large a number is refused, too small a one is zero.
    if largestExponent < e then if n ≠ 0 ∧ !negative then none else some 0.0
    else scaled? n (if negative then shift - e else shift + e)

/-- Whether a numeral is an integer that fits in a word. -/
def isWord (s : Numeral) : Bool :=
  s.fraction.isNone && s.exponent.isNone && (fill 0 s.whole).2.isEmpty

/-- The number that a numeral stands for; there is none if it is too large. -/
def number? (s : Numeral) : Option Number :=
  if s.isWord then
    let n := digitsValue s.whole
    if !s.negative then some (.natural n)
    else if n = 0 ∨ signBit < n then some (.float (-Float.ofNat n))
    else some (.negative n)
  else s.magnitude?.map fun x => .float (if s.negative then -x else x)

end Numeral

namespace Number

/-- The number as a machine word. -/
def word? : Number → Option Nat
  | .natural n => some n
  | _ => none

/-- The number as a double. -/
def toFloat : Number → Float
  | .natural n => Float.ofNat n
  | .negative n => -Float.ofNat n
  | .float x => x

end Number

end Entailment.Decimal
