import Entailment.Edit.Cost
import Entailment.Tree.PostOrder

/-! # Tables of forest distances

The tables of the ordered tree edit distance. A forest table holds, for two runs of post-order
positions, the distances between all pairs of their initial parts; a subtree table holds the
distances between whole subtrees.

* **`Comparison`** — two trees in post-order, and a cost model;
* **`Table`**, **`SubtreeTable`** — the two kinds of table;
* **`Comparison.forestTable`** — the forest table of two runs, given the subtrees inside them;
* **`Comparison.subtreeTable`** — the distances of all pairs of subtrees. -/

namespace Entailment

/-- Two trees in post-order, and what edits of one into the other cost. -/
structure Comparison (α : Type) where
  /-- The text tree. -/
  t : PostOrder
  /-- The hypothesis tree. -/
  h : PostOrder
  /-- The costs, by nodes. -/
  costs : CostModel α

/-- Distances between initial parts of two forests: the row counts text positions, the column
hypothesis positions. -/
abbrev Table (α : Type) := Array (Array α)

/-- Distances between pairs of subtrees, where they are known. -/
structure SubtreeTable (α : Type) where
  /-- The entries by text position and hypothesis position. -/
  rows : Array (Array (Option α))

variable {α : Type} [Cost α]

/-- An entry of a table. -/
def Table.get (table : Table α) (a b : Nat) : α :=
  ((table[a]?.getD #[])[b]?).getD Cost.zero

namespace SubtreeTable

/-- The table of the given size in which nothing is known. -/
def unknown (rows columns : Nat) : SubtreeTable α :=
  ⟨Array.replicate rows (Array.replicate columns none)⟩

/-- The distance of a pair of subtrees, if it is known. -/
def get? (d : SubtreeTable α) (x y : Nat) : Option α := (d.rows[x]?.getD #[])[y]?.join

/-- The distance of a pair of subtrees, zero as long as it is not known. -/
def get (d : SubtreeTable α) (x y : Nat) : α := (d.get? x y).getD Cost.zero

/-- The table with the distance of one pair of subtrees. -/
def set (d : SubtreeTable α) (x y : Nat) (value : α) : SubtreeTable α :=
  ⟨d.rows.modify x fun row => row.modify y fun _ => some value⟩

end SubtreeTable

namespace Comparison

/-- The cost of deleting the text node at a position. -/
def deleteCost (c : Comparison α) (x : Nat) : α := c.costs.delete (c.t.node x)

/-- The cost of inserting the hypothesis node at a position. -/
def insertCost (c : Comparison α) (y : Nat) : α := c.costs.insert (c.h.node y)

/-- The cost of replacing the node at one position by the node at another. -/
def replaceCost (c : Comparison α) (x y : Nat) : α := c.costs.replace (c.t.node x) (c.h.node y)

/-! ## Forest tables

Text positions run from `l₁` and hypothesis positions from `l₂`. Row `a` and column `b` of the table
belong to the first `a` and the first `b` of them. -/

/-- The entry of row `a + 1` and column `b + 1`: the least of deleting the last text node, inserting
the last hypothesis node, and pairing the subtrees of the two. If both subtrees are all of their
forests, pairing them means replacing their roots. -/
def cell (c : Comparison α) (d : SubtreeTable α) (l₁ l₂ : Nat) (above : Table α) (row : Array α)
    (a b : Nat) : α :=
  let x := l₁ + a
  let y := l₂ + b
  let deleting := Cost.add (above.get a (b + 1)) (c.deleteCost x)
  let inserting := Cost.add (row[b]?.getD Cost.zero) (c.insertCost y)
  let pairing :=
    if c.t.leftmost x = l₁ ∧ c.h.leftmost y = l₂ then
      Cost.add (above.get a b) (c.replaceCost x y)
    else
      -- The forests to the left of the two subtrees, and the subtrees by themselves.
      Cost.add (above.get (c.t.leftmost x - l₁) (c.h.leftmost y - l₂)) (d.get x y)
  Cost.least (Cost.least deleting inserting) pairing

/-- Row `0` up to column `b`: every hypothesis node is inserted. -/
def topRow (c : Comparison α) (l₂ : Nat) : Nat → Array α
  | 0 => #[Cost.zero]
  | b + 1 =>
    let row := topRow c l₂ b
    row.push (Cost.add (row[b]?.getD Cost.zero) (c.insertCost (l₂ + b)))

/-- Row `a + 1` up to column `b`, below the rows `above`. -/
def nextRow (c : Comparison α) (d : SubtreeTable α) (l₁ l₂ : Nat) (above : Table α) (a : Nat) :
    Nat → Array α
  | 0 => #[Cost.add (above.get a 0) (c.deleteCost (l₁ + a))]
  | b + 1 =>
    let row := nextRow c d l₁ l₂ above a b
    row.push (c.cell d l₁ l₂ above row a b)

/-- The forest table of `m` text positions from `l₁` on and `n` hypothesis positions from `l₂`
on. -/
def forestTable (c : Comparison α) (d : SubtreeTable α) (l₁ l₂ n : Nat) : (m : Nat) → Table α
  | 0 => #[c.topRow l₂ n]
  | a + 1 =>
    let above := forestTable c d l₁ l₂ n a
    above.push (c.nextRow d l₁ l₂ above a n)

/-! ## The subtree table -/

/-- The subtree table with the pairs of whole subtrees that a forest table is about: both subtrees
begin where the forests begin. -/
def record (c : Comparison α) (l₁ l₂ m n : Nat) (table : Table α) (d : SubtreeTable α) :
    SubtreeTable α :=
  (c.t.spine l₁ m).foldl (fun d x =>
    (c.h.spine l₂ n).foldl (fun d y => d.set x y (table.get (x + 1 - l₁) (y + 1 - l₂))) d) d

/-- The subtree table with all that the forest table of one pair of keyroots tells. -/
def recordKeyroots (c : Comparison α) (d : SubtreeTable α) (x y : Nat) : SubtreeTable α :=
  let l₁ := c.t.leftmost x
  let l₂ := c.h.leftmost y
  let m := c.t.width x
  let n := c.h.width y
  c.record l₁ l₂ m n (c.forestTable d l₁ l₂ n m) d

/-- The pairs of keyroots in the order in which they are recorded. -/
def keyrootPairs (c : Comparison α) : List (Nat × Nat) :=
  c.t.keyroots.flatMap fun x => c.h.keyroots.map fun y => (x, y)

/-- The distances of all pairs of subtrees, from the pairs of keyroots in increasing order. -/
def subtreeTable (c : Comparison α) : SubtreeTable α :=
  c.keyrootPairs.foldl (fun d p => c.recordKeyroots d p.1 p.2)
    (SubtreeTable.unknown c.t.size c.h.size)

end Comparison

end Entailment
