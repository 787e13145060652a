import Entailment.Word

/-! # Shortest decimals of binary numbers

A double stands for all reals that round to it. Its shortest decimal is the one with the fewest
digits among these reals, and of those with so few digits the nearest to it.

* **`Binary`** — a positive double as a multiple of a power of two;
* **`Binary.decimal`** — the digits and the exponent of its shortest decimal. -/

namespace Entailment.Decimal

/-- A positive number `mantissa * 2 ^ exponent` with the room around it: in quarters of
`2 ^ exponent`, everything up to `below` under it and two over it rounds to it. -/
structure Binary where
  /-- The factor of the power of two. -/
  mantissa : Nat
  /-- The exponent of two. -/
  exponent : Int
  /-- The quarters down to the lower neighbour's half: one at the bottom of a binade, else two. -/
  below : Nat
  deriving DecidableEq, Repr

/-- The number of fractions that a double can have: it has 52 bits for them. -/
def fractionSize : Nat := 0x10000000000000

/-- The positive double with the given biased exponent and fraction. -/
def Binary.ofFields (biased fraction : Nat) : Binary :=
  if biased = 0 then ⟨fraction, -1074, 2⟩
  else ⟨fractionSize + fraction, (biased : Int) - 1075, if fraction = 0 ∧ 1 < biased then 1 else 2⟩

/-- The number of decimal digits of a natural number. -/
def digitCount (n : Nat) : Nat := (Nat.toDigits 10 n).length

/-- A decimal `digits * 10 ^ exponent`. -/
structure Scaled where
  /-- The digits, as a number. -/
  digits : Nat
  /-- The exponent of ten. -/
  exponent : Int
  deriving DecidableEq, Repr

namespace Binary

/-- What the quarters of the number are multiplied by when it is compared with multiples of
`10 ^ k`. -/
def quarterScale (b : Binary) (k : Int) : Nat :=
  Nat.pow 2 (b.exponent - 2).toNat * Nat.pow 10 (-k).toNat

/-- What multiples of `10 ^ k` are multiplied by when they are compared with the number. -/
def gridScale (b : Binary) (k : Int) : Nat :=
  Nat.pow 2 (2 - b.exponent).toNat * Nat.pow 10 k.toNat

/-- Whether `d * 10 ^ k` rounds to the number. The ends of the room belong to it if the mantissa is
even. -/
def holds (b : Binary) (k : Int) (d : Nat) : Bool :=
  let low := (4 * b.mantissa - b.below) * b.quarterScale k
  let high := (4 * b.mantissa + 2) * b.quarterScale k
  let point := d * b.gridScale k
  if b.mantissa % 2 = 0 then low ≤ point && point ≤ high else low < point && point < high

/-- The multiple of `10 ^ k` that rounds to the number and is nearest to it, an even one if two are
equally near. Only the two neighbours of the number need to be looked at. -/
def onGrid? (b : Binary) (k : Int) : Option Scaled :=
  let value := 4 * b.mantissa * b.quarterScale k
  -- The number lies from `d` steps of the grid up to `d + 1`.
  let d := value / b.gridScale k
  let toLow := value - d * b.gridScale k
  let toHigh := (d + 1) * b.gridScale k - value
  match b.holds k d, b.holds k (d + 1) with
  | true, true =>
    some ⟨if toLow < toHigh ∨ (toLow = toHigh ∧ d % 2 = 0) then d else d + 1, k⟩
  | true, false => some ⟨d, k⟩
  | false, true => some ⟨d + 1, k⟩
  | false, false => none

/-- The exponent of ten of the leading digit. -/
def magnitude (b : Binary) : Int :=
  let num := b.mantissa * Nat.pow 2 b.exponent.toNat
  let den := Nat.pow 2 (-b.exponent).toNat
  if den ≤ num then (digitCount (num / den) : Int) - 1
  else
    let n := digitCount (den / num)
    if den ≤ num * Nat.pow 10 (n - 1) then 1 - (n : Int) else -(n : Int)

/-- The shortest decimal. Seventeen digits are enough for every double. -/
def decimal (b : Binary) : Scaled :=
  let top := b.magnitude
  ((List.range 17).findSome? fun (n : Nat) => b.onGrid? (top - (n : Int))).getD
    ⟨4 * b.mantissa * b.quarterScale (top - 16) / b.gridScale (top - 16), top - 16⟩

end Binary

/-- A decimal without zeros at the end of its digits, within so many steps. -/
def Scaled.trim : Nat → Scaled → Scaled
  | 0, s => s
  | steps + 1, s =>
    if s.digits % 10 = 0 ∧ s.digits ≠ 0 then trim steps ⟨s.digits / 10, s.exponent + 1⟩ else s

/-- A double by what its decimal form depends on. -/
inductive Shape where
  /-- Not a number. -/
  | undefined
  /-- An infinity. -/
  | infinite (negative : Bool)
  /-- A zero. -/
  | zero (negative : Bool)
  /-- Any other number: its sign, and its shortest decimal. -/
  | decimal (negative : Bool) (value : Scaled)
  deriving DecidableEq, Repr

/-- The shape of the double with the given bits. -/
def Shape.ofBits (bits : Nat) : Shape :=
  let negative := decide (signBit ≤ bits)
  let biased := bits / fractionSize % 2048
  let fraction := bits % fractionSize
  -- The largest exponent marks what is no finite number.
  if biased = 2047 then if fraction = 0 then .infinite negative else .undefined
  else if biased = 0 ∧ fraction = 0 then .zero negative
  else .decimal negative ((Binary.ofFields biased fraction).decimal.trim 17)

/-- The shape of a double. -/
def Shape.ofFloat (x : Float) : Shape := .ofBits x.toBits.toNat

end Entailment.Decimal
