import Entailment.Edit.Script
import Entailment.Edit.Table

/-! # The tree edit distance

* **`Comparison.distance`** — the least cost of turning the text tree into the hypothesis tree;
* **`Comparison.trace`** — the edits behind an entry of a forest table;
* **`Comparison.script`** — the edits behind the distance. -/

namespace Entailment

variable {α : Type} [Cost α]

namespace Comparison

/-- The forest table of the two whole trees. -/
def wholeTable (c : Comparison α) : Table α :=
  c.forestTable c.subtreeTable 0 0 c.h.size c.t.size

/-- The least cost of turning the text tree into the hypothesis tree. -/
def distance (c : Comparison α) : α := c.wholeTable.get c.t.size c.h.size

/-- The edits behind the entry of row `a` and column `b` of a forest table, in order. Deleting the
last text node is tried first, then inserting the last hypothesis node; each is taken if it comes
near the entry. Otherwise the last subtrees are paired: by replacing their roots if they are all of
the forests, else by the edits behind a table of their own. -/
def trace (c : Comparison α) (d : SubtreeTable α) (l₁ l₂ : Nat) (table : Table α) (a b : Nat)
    (closed₁ : c.t.Closed l₁ (l₁ + a)) (closed₂ : c.h.Closed l₂ (l₂ + b)) : List Operation :=
  match a, b with
  | 0, 0 => []
  | a + 1, 0 =>
    c.trace d l₁ l₂ table a 0 closed₁.init closed₂ ++ [.delete (c.t.node (l₁ + a))]
  | 0, b + 1 =>
    c.trace d l₁ l₂ table 0 b closed₁ closed₂.init ++ [.insert (c.h.node (l₂ + b))]
  | a + 1, b + 1 =>
    let x := l₁ + a
    let y := l₂ + b
    let here := table.get (a + 1) (b + 1)
    if Cost.near (Cost.add (table.get a (b + 1)) (c.deleteCost x)) here then
      c.trace d l₁ l₂ table a (b + 1) closed₁.init closed₂ ++
        [.delete (c.t.node x)]
    else if Cost.near (Cost.add (table.get (a + 1) b) (c.insertCost y)) here then
      c.trace d l₁ l₂ table (a + 1) b closed₁ closed₂.init ++
        [.insert (c.h.node y)]
    else if c.t.leftmost x = l₁ ∧ c.h.leftmost y = l₂ then
      c.trace d l₁ l₂ table a b closed₁.init closed₂.init ++
        [.replace (c.t.node x) (c.h.node y)]
    else
      let k₁ := c.t.leftmost x
      let k₂ := c.h.leftmost y
      let m := c.t.width x
      let n := c.h.width y
      -- What stands to the left of both subtrees comes first, then what is inside them.
      c.trace d l₁ l₂ table (k₁ - l₁) (k₂ - l₂) closed₁.before closed₂.before ++
        c.trace d k₁ k₂ (c.forestTable d k₁ k₂ n m) m n (c.t.closed_subtree x)
          (c.h.closed_subtree y)
termination_by a + b
decreasing_by
  all_goals try omega
  -- To the left of the subtrees there are fewer positions, as the subtrees are not empty.
  · have h₁ := c.t.leftmost_le_self (l₁ + a)
    have h₂ := c.h.leftmost_le_self (l₂ + b)
    omega
  -- Inside them there are fewer, as one of them is not all of its forest.
  · have h₁ := closed₁ (l₁ + a) (by omega) (by omega)
    have h₂ := closed₂ (l₂ + b) (by omega) (by omega)
    have apart : ¬(c.t.leftmost (l₁ + a) = l₁ ∧ c.h.leftmost (l₂ + b) = l₂) := by assumption
    simp only [PostOrder.width]
    omega

/-- The edits behind the distance. -/
def script (c : Comparison α) : EditScript :=
  ⟨c.trace c.subtreeTable 0 0 c.wholeTable c.t.size c.h.size (c.t.closed_zero _)
    (c.h.closed_zero _)⟩

end Comparison

/-- The comparison of two trees under a cost model. -/
def Tree.compare (t h : Tree) (costs : CostModel α) : Comparison α :=
  ⟨t.positions, h.positions, costs⟩

end Entailment
