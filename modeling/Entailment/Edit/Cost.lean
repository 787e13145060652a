import Entailment.Tree.Basic

/-! # Edit costs

What an edit costs, and the arithmetic that costs need.

* **`Cost`** — the arithmetic: sums, a minimum, a tolerant comparison, and a normalising quotient;
* **`CostModel`** — what it costs to replace, insert and delete a node;
* **`CostModel.byForm`** — unit costs, with a free replacement between equal words.

The arithmetic is a parameter, so that one definition of the distance serves measured costs
(`Float`) and exact ones (`Rat`). -/

namespace Entailment

/-- The arithmetic of edit costs. -/
class Cost (α : Type) where
  /-- The cost of doing nothing. -/
  zero : α
  /-- The unit cost. -/
  one : α
  /-- The cost of two edits. -/
  add : α → α → α
  /-- The smaller cost. -/
  least : α → α → α
  /-- Whether two costs are equal up to the tolerance. -/
  near : α → α → Bool
  /-- A cost of `n` equal edits. -/
  times : Nat → α → α
  /-- The quotient of two costs. -/
  quotient : α → α → α
  /-- Whether a cost is zero. -/
  isZero : α → Bool

namespace Cost

/-- The smaller of two measured costs. An undefined cost loses against every other, and of equal
costs the first is taken. -/
def leastFloat (a b : Float) : Float := if a.isNaN then b else if b < a then b else a

/-- The larger of two measured costs, where an undefined cost loses too. -/
def greatestFloat (a b : Float) : Float := if a.isNaN then b else if a < b then b else a

/-- Whether two measured costs differ by at most a billionth of one more than the larger of their
magnitudes. -/
def nearFloat (a b : Float) : Bool :=
  (a - b).abs ≤ 1e-9 * (1.0 + greatestFloat a.abs b.abs)

/-- Measured costs. -/
instance : Cost Float where
  zero := 0.0
  one := 1.0
  -- Sums are taken in the order in which the tables give them: measured costs round.
  add a b := a + b
  least := leastFloat
  near := nearFloat
  times n a := Float.ofNat n * a
  quotient a b := a / b
  isZero a := a == 0.0

/-- The tolerance of comparisons: a billionth. -/
def tolerance : Rat := 1 / 1000000000

/-- Whether two exact costs differ by at most a billionth of one more than the larger of their
magnitudes. -/
def nearRat (a b : Rat) : Bool :=
  decide ((a - b).abs ≤ tolerance * (1 + Rat.instMax.max a.abs b.abs))

/-- Exact costs. -/
instance : Cost Rat where
  zero := 0
  one := 1
  add a b := a + b
  least := Rat.instMin.min
  near := nearRat
  times n a := (n : Rat) * a
  quotient a b := a / b
  isZero a := decide (a = 0)

end Cost

/-- What the three elementary edits cost. Nodes of the text tree come first. -/
structure CostModel (α : Type) where
  /-- Replacing a text node by a hypothesis node. -/
  replace : Nat → Nat → α
  /-- Inserting a hypothesis node. -/
  insert : Nat → α
  /-- Deleting a text node. -/
  delete : Nat → α

/-- Unit costs, with a free replacement between nodes of the same word. -/
def CostModel.byForm {α : Type} [Cost α] (t h : Tree) : CostModel α where
  replace i j :=
    if t.given[i]?.map Token.form = h.given[j]?.map Token.form then Cost.zero else Cost.one
  insert _ := Cost.one
  delete _ := Cost.one

end Entailment
