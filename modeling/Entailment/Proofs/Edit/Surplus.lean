import Entailment.Proofs.Edit.Tolerance
import Entailment.Proofs.Edit.Transposition

/-! # What surplus nodes cost

A script deletes at least as many nodes as the text has more than the hypothesis, and inserts at
least as many as the hypothesis has more. So forests of different sizes cost something, whatever
their shapes are and however cheap it is to pair their nodes.

* **`mul_surplus_le_sum`** — the deletions of a script;
* **`CostModel.All.deletions_le_forestCost`** — what the surplus of the text costs at least;
* **`CostModel.All.insertions_le_forestCost`** — and that of the hypothesis. -/

namespace Entailment

/-- Where every deletion costs at least `u` and no edit is rewarded, a script costs at least `u` for
each node that it edits in the text more than in the hypothesis. -/
theorem mul_surplus_le_sum {price : Operation → Rat} {u : Rat} (hu : 0 ≤ u) {s : List Operation}
    (hprice : ∀ e ∈ s, 0 ≤ price e) (hdelete : ∀ i, .delete i ∈ s → u ≤ price (.delete i)) :
    u * ((s.filterMap Operation.textNode?).length -
        (s.filterMap Operation.hypothesisNode?).length) ≤
      (s.map price).sum := by
  induction s with
  | nil => simp
  | cons e s ih =>
      obtain ⟨hfirst, hrest⟩ := List.forall_mem_cons.1 hprice
      have hstep := ih hrest fun i hi => hdelete i (List.mem_cons_of_mem _ hi)
      rw [List.map_cons, List.sum_cons]
      cases e with
      | replace i j =>
          simp only [List.filterMap_cons, Operation.textNode?, Operation.hypothesisNode?,
            List.length_cons, Nat.cast_add, Nat.cast_one]
          linarith
      | insert j =>
          simp only [List.filterMap_cons, Operation.textNode?, Operation.hypothesisNode?,
            List.length_cons, Nat.cast_add, Nat.cast_one]
          linarith
      | delete i =>
          have hlast := hdelete i List.mem_cons_self
          simp only [List.filterMap_cons, Operation.textNode?, Operation.hypothesisNode?,
            List.length_cons, Nat.cast_add, Nat.cast_one]
          linarith

namespace CostModel

variable {t h : Tree} {costs : CostModel Rat} {P : Rat → Prop} {u : Rat} {l₁ l₂ a b : Nat}
  {s : List Operation} {e : Operation}

/-- What holds of all costs holds of the edits between two forests. -/
theorem All.priceAt (hcosts : costs.All P t h)
    (hs : Edits t.positions h.positions l₁ l₂ a b s) (hm : l₁ + a ≤ t.size) (hn : l₂ + b ≤ h.size)
    (he : e ∈ s) : P ((t.compare h costs).priceAt e) := by
  cases e with
  | replace x y =>
      have hx := hs.textNode_mem he rfl
      have hy := hs.hypothesisNode_mem he rfl
      exact hcosts.replace _ (Tree.node_lt (by omega)) _ (Tree.node_lt (by omega))
  | insert y =>
      have hy := hs.hypothesisNode_mem he rfl
      exact hcosts.insert _ (Tree.node_lt (by omega))
  | delete x =>
      have hx := hs.textNode_mem he rfl
      exact hcosts.delete _ (Tree.node_lt (by omega))

/-- What holds of all costs holds of those of the other direction. -/
theorem All.transpose (hcosts : costs.All P t h) : costs.transpose.All P h t where
  replace j hj i hi := hcosts.replace i hi j hj
  insert := hcosts.delete
  delete := hcosts.insert

section

variable (hcosts : costs.All (0 ≤ ·) t h) (hu : 0 ≤ u) (hm : l₁ + a ≤ t.size) (hn : l₂ + b ≤ h.size)
  (closed₁ : t.positions.Closed l₁ (l₁ + a)) (closed₂ : h.positions.Closed l₂ (l₂ + b))

include hcosts hu hm hn closed₁ closed₂

/-- Forests cost at least the deletions that the surplus of the first needs. -/
theorem All.deletions_le_forestCost (hdelete : ∀ i < t.size, u ≤ costs.delete i) :
    u * (a - b) ≤ (t.compare h costs).forestCost l₁ l₂ a b := by
  obtain ⟨s, hs, hcost⟩ :=
    (t.compare h costs).exists_edits_cost_eq l₁ l₂ a b closed₁ closed₂
  have hsum := mul_surplus_le_sum hu (fun e he => hcosts.priceAt hs hm hn he) fun x hx =>
    hdelete _ (Tree.node_lt (by have := hs.textNode_mem hx rfl; omega))
  have htext : s.filterMap Operation.textNode? = List.range' l₁ a := hs.textNodes
  have hhypothesis : s.filterMap Operation.hypothesisNode? = List.range' l₂ b := hs.hypothesisNodes
  rwa [htext, hhypothesis, List.length_range', List.length_range', hcost] at hsum

/-- Forests cost at least the insertions that the surplus of the second needs. -/
theorem All.insertions_le_forestCost (hinsert : ∀ j < h.size, u ≤ costs.insert j) :
    u * (b - a) ≤ (t.compare h costs).forestCost l₁ l₂ a b := by
  rw [← Comparison.forestCost_transpose]
  exact hcosts.transpose.deletions_le_forestCost hu hn hm closed₂ closed₁ hinsert

end

end CostModel

end Entailment
