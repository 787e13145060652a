import Entailment.Proofs.Edit.Mapping

/-! # Exchanging the two trees

Turning the hypothesis tree into the text tree deletes what the other direction inserts, and inserts
what it deletes. With the costs exchanged accordingly the distance stays, although the tables of the
two directions are filled in different orders.

* **`CostModel.transpose`**, **`Comparison.transpose`** — the other direction;
* **`Comparison.forestCost_transpose`** — forests cost the same in both directions;
* **`distance_compare_transpose`** — and so do trees. -/

namespace Entailment

/-- The costs of the other direction. -/
def CostModel.transpose {α : Type} (costs : CostModel α) : CostModel α where
  replace j i := costs.replace i j
  insert := costs.delete
  delete := costs.insert

namespace Comparison

/-- The comparison in the other direction. -/
def transpose {α : Type} (c : Comparison α) : Comparison α := ⟨c.h, c.t, c.costs.transpose⟩

variable {c : Comparison Rat} {l₁ l₂ a b : Nat}

/-- A deletion of one direction costs what the insertion of the other costs. -/
theorem deleting_transpose
    (h : c.transpose.forestCost l₂ l₁ b (a + 1) = c.forestCost l₁ l₂ (a + 1) b) :
    c.transpose.deleting l₂ l₁ b a = c.inserting l₁ l₂ a b := by
  rw [deleting, h]
  rfl

/-- An insertion of one direction costs what the deletion of the other costs. -/
theorem inserting_transpose
    (h : c.transpose.forestCost l₂ l₁ (b + 1) a = c.forestCost l₁ l₂ a (b + 1)) :
    c.transpose.inserting l₂ l₁ b a = c.deleting l₁ l₂ a b := by
  rw [inserting, h]
  rfl

/-- Forests cost the same in both directions. -/
theorem forestCost_transpose (c : Comparison Rat) (l₁ l₂ a b : Nat) :
    c.transpose.forestCost l₂ l₁ b a = c.forestCost l₁ l₂ a b := by
  induction l₁, l₂, a, b using PostOrder.runs_induction c.t c.h with
  | nil l₁ l₂ => rw [forestCost_zero_zero, forestCost_zero_zero]
  | text l₁ l₂ a ih =>
      rw [forestCost_zero_succ, forestCost_succ_zero, ih]
      rfl
  | hypothesis l₁ l₂ b ih =>
      rw [forestCost_succ_zero, forestCost_zero_succ, ih]
      rfl
  | both l₁ l₂ a b ihDelete ihInsert ihReplace ihBefore ihInside =>
      have hpair : c.transpose.pairing l₂ l₁ b a = c.pairing l₁ l₂ a b := by
        by_cases whole : c.t.leftmost (l₁ + a) = l₁ ∧ c.h.leftmost (l₂ + b) = l₂
        · rw [pairing_of_whole (c := c.transpose) whole.2 whole.1, ihReplace,
            pairing_of_whole whole.1 whole.2]
          rfl
        · rw [pairing_of_apart (c := c.transpose) fun whole' => whole whole'.symm,
            pairing_of_apart whole, ← ihBefore, subtreeCost, subtreeCost, ← ihInside whole]
          rfl
      rw [forestCost_succ_succ, forestCost_succ_succ, deleting_transpose ihInsert,
        inserting_transpose ihDelete, hpair]
      -- The branches are the same; only the first two are tried in the other order.
      simp only [Cost.least_rat, min_comm (c.inserting l₁ l₂ a b)]

end Comparison

/-- Two trees are at the same distance in both directions, if the costs are exchanged with them. -/
theorem distance_compare_transpose (t h : Tree) (costs : CostModel Rat) :
    (h.compare t costs.transpose).distance = (t.compare h costs).distance := by
  rw [distance_compare, distance_compare]
  exact (t.compare h costs).forestCost_transpose 0 0 t.size h.size

end Entailment
