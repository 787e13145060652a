import Entailment.Edit.Distance
import Entailment.Proofs.Edit.Walk
import Entailment.Proofs.Tree.Numbering

/-! # The distance computed in place

The distance and its script as they are computed entry by entry. Nodes have numbers from one on,
so that row and column zero of a table belong to the empty forest. The tables have their full size
from the start, and all forest tables share one table of subtree distances, to which each of them
writes.

There is no answer where an index is out of range or a difference is below zero. How long a chain of
nested rounds backtracking may take is a number of its own; there is no answer if that runs out.

* **`Guarded.Tables`** — two numbered trees with the prices of their nodes;
* **`Guarded.Tables.forestTable`** — the forest table of two runs of numbers;
* **`Guarded.Tables.subtrees`** — the subtree distances from all pairs of keyroots;
* **`Guarded.Tables.replay`**, **`Guarded.Tables.backtrack`** — the edits behind a forest table;
* **`Guarded.distance`**, **`Guarded.distanceAndScript`** — the answers. -/

namespace Entailment.Guarded

/-- Two numbered trees, and what edits of one into the other cost, by numbers. -/
structure Tables (α : Type) where
  /-- The text tree. -/
  t : Numbering
  /-- The hypothesis tree. -/
  h : Numbering
  /-- What it costs to delete a text node. -/
  delete : Array α
  /-- What it costs to insert a hypothesis node. -/
  insert : Array α
  /-- What it costs to replace a text node by a hypothesis node. -/
  replace : Table α

variable {α : Type} [Cost α]

/-- The prices of the nodes with numbers up to `n`. -/
def priceEach (price : Nat → α) (d : Numbering) (n : Nat) : Option (Array α) :=
  fill (fun _ i => do some (price (← d.nodes[i]?))) n Cost.zero

/-- The prices of the pairs of nodes with numbers up to `m` and `n`. -/
def pricePairs (price : Nat → Nat → α) (t h : Numbering) (m n : Nat) : Option (Table α) :=
  Table.fillPairs (fun i j => do some (price (← t.nodes[i]?) (← h.nodes[j]?))) m n Cost.zero

namespace Tables

/-- The tables of two trees under a cost model. -/
def ofTrees (t h : Tree) (costs : CostModel α) : Option (Tables α) := do
  let t ← Numbering.ofTree t
  let h ← Numbering.ofTree h
  let m ← t.size
  let n ← h.size
  some ⟨t, h, ← priceEach costs.delete t m, ← priceEach costs.insert h n,
    ← pricePairs costs.replace t h m n⟩

/-! ## Forest tables

Text numbers run from `l₁` and hypothesis numbers from `l₂`. Row `a` and column `b` of a forest
table belong to the first `a` and the first `b` of them. -/

/-- The cost of deleting the last text node. -/
def deleting (T : Tables α) (forests : Table α) (x a b : Nat) : Option α := do
  some (Cost.add (← forests.read (← a.psub 1) b) (← T.delete[x]?))

/-- The cost of inserting the last hypothesis node. -/
def inserting (T : Tables α) (forests : Table α) (y a b : Nat) : Option α := do
  some (Cost.add (← forests.read a (← b.psub 1)) (← T.insert[y]?))

/-- Row `a` of column zero: every text node is deleted. -/
def columnStep (T : Tables α) (l₁ a : Nat) (forests : Table α) : Option (Table α) := do
  forests.write a 0 (← T.deleting forests ((← l₁.psub 1) + a) a 0)

/-- Column `b` of row zero: every hypothesis node is inserted. -/
def rowStep (T : Tables α) (l₂ b : Nat) (forests : Table α) : Option (Table α) := do
  forests.write 0 b (← T.inserting forests ((← l₂.psub 1) + b) 0 b)

/-- The other entries: the least of deleting the last text node, inserting the last hypothesis
node, and pairing the last subtrees. If these are all of their forests, their distance is recorded
among the subtrees, otherwise it is read there. -/
def cellStep (T : Tables α) (l₁ l₂ a b : Nat) (s : Table α × Table α) :
    Option (Table α × Table α) := do
  let (forests, subtrees) := s
  let x := (← l₁.psub 1) + a
  let y := (← l₂.psub 1) + b
  let least := Cost.least (← T.deleting forests x a b) (← T.inserting forests y a b)
  let k₁ ← T.t.leftmost[x]?
  let k₂ ← T.h.leftmost[y]?
  if k₁ = l₁ ∧ k₂ = l₂ then
    let replacing := Cost.add (← forests.read (← a.psub 1) (← b.psub 1)) (← T.replace.read x y)
    let best := Cost.least least replacing
    some (← forests.write a b best, ← subtrees.write x y best)
  else
    let pairing := Cost.add (← forests.read (← k₁.psub l₁) (← k₂.psub l₂)) (← subtrees.read x y)
    some (← forests.write a b (Cost.least least pairing), subtrees)

/-- The forest table of the text numbers from `l₁` to `i` and the hypothesis numbers from `l₂` to
`j`, and the subtree distances with what it tells about them. -/
def forestTable (T : Tables α) (i l₁ j l₂ : Nat) (subtrees : Table α) :
    Option (Table α × Table α) := do
  let rows ← (i + 2).psub l₁
  let columns ← (j + 2).psub l₂
  let forests ← countUp (T.columnStep l₁) (rows - 1) (Table.blank rows columns Cost.zero)
  let forests ← countUp (T.rowStep l₂) (columns - 1) forests
  countPairs (T.cellStep l₁ l₂) (rows - 1) (columns - 1) (forests, subtrees)

/-- The subtree distances with what one pair of keyroots tells about them. -/
def keyrootStep (T : Tables α) (subtrees : Table α) (i j : Nat) : Option (Table α) := do
  let tables ← T.forestTable i (← T.t.leftmost[i]?) j (← T.h.leftmost[j]?) subtrees
  some tables.2

/-- The subtree distances from all pairs of keyroots. -/
def subtrees (T : Tables α) (blank : Table α) : Option (Table α) :=
  T.t.keyroots.foldlM
    (fun subtrees i => T.h.keyroots.foldlM (fun subtrees j => T.keyrootStep subtrees i j) subtrees)
    blank

/-- The distance of the whole forests, and the subtree distances. -/
def whole (T : Tables α) : Option (α × Table α) := do
  let m ← T.t.size
  let n ← T.h.size
  let subtrees ← T.subtrees (Table.blank (m + 1) (n + 1) Cost.zero)
  let (forests, subtrees) ← T.forestTable m 1 n 1 subtrees
  some (← forests.read m n, subtrees)

/-! ## Backtracking

A round takes one last edit, and all that is left to do comes in rounds inside it: what remains of
the same table, and the table of two subtrees. -/

/-- What is taken for the last edit of the first `a` and `b` numbers, which end with `x` and `y`. -/
def lastEdit (T : Tables α) (forests : Table α) (x y a b : Nat) : Option LastEdit := do
  let here ← forests.read a b
  if b = 0 then some .delete
  else if ← deletes here then some .delete
  else if a = 0 then some .insert
  else if Cost.near (← T.inserting forests y a b) here then some .insert
  else some .pair
where
  /-- Whether deleting the last text node comes near the entry. -/
  deletes (here : α) : Option Bool :=
    if a = 0 then some false else (T.deleting forests x a b).map (Cost.near · here)

/-- The edits behind the entry of a forest table for the numbers up to `x` and `y`, in front of
those found so far. Subtrees that are not all of their forests have a forest table of their own, in
which the backtracking goes on; after it, the outer table is taken up again to the left of them. -/
def replay (T : Tables α) (rounds : Nat) (forests : Table α) (l₁ l₂ x y : Nat)
    (s : Table α × List Operation) : Option (Table α × List Operation) :=
  match rounds with
  | 0 => none
  | rounds + 1 => do
    if l₁ < x + 1 ∨ l₂ < y + 1 then
      let a ← (x + 1).psub l₁
      let b ← (y + 1).psub l₂
      match ← T.lastEdit forests x y a b with
      | .delete =>
        T.replay rounds forests l₁ l₂ (← x.psub 1) y (s.1, .delete (← T.t.nodes[x]?) :: s.2)
      | .insert =>
        T.replay rounds forests l₁ l₂ x (← y.psub 1) (s.1, .insert (← T.h.nodes[y]?) :: s.2)
      | .pair =>
        let k₁ ← T.t.leftmost[x]?
        let k₂ ← T.h.leftmost[y]?
        if k₁ = l₁ ∧ k₂ = l₂ then
          T.replay rounds forests l₁ l₂ (← x.psub 1) (← y.psub 1)
            (s.1, .replace (← T.t.nodes[x]?) (← T.h.nodes[y]?) :: s.2)
        else
          let (inside, subtrees) ← T.forestTable x k₁ y k₂ s.1
          let s ← T.replay rounds inside k₁ k₂ x y (subtrees, s.2)
          T.replay rounds forests l₁ l₂ (← k₁.psub 1) (← k₂.psub 1) s
    else some s

/-- The edits behind the last entry of the forest table of the numbers from `l₁` to `i` and from
`l₂` to `j`, in front of those found so far. -/
def backtrack (T : Tables α) (rounds i l₁ j l₂ : Nat) (s : Table α × List Operation) :
    Option (Table α × List Operation) := do
  let (forests, subtrees) ← T.forestTable i l₁ j l₂ s.1
  T.replay rounds forests l₁ l₂ i j (subtrees, s.2)

end Tables

/-- The least cost of turning one tree into another. -/
def distance (t h : Tree) (costs : CostModel α) : Option α := do
  let T ← Tables.ofTrees t h costs
  some (← T.whole).1

/-- The least cost of turning one tree into another, with the edits behind it, if no more than the
given number of rounds of backtracking stand inside one another. -/
def distanceAndScript (rounds : Nat) (t h : Tree) (costs : CostModel α) :
    Option (α × EditScript) := do
  let T ← Tables.ofTrees t h costs
  let (distance, subtrees) ← T.whole
  let (_, operations) ← T.backtrack rounds (← T.t.size) 1 (← T.h.size) 1 (subtrees, [])
  some (distance, ⟨operations⟩)

end Entailment.Guarded
