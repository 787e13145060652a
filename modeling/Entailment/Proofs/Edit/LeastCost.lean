import Entailment.Proofs.Edit.Edits
import Entailment.Proofs.Edit.ForestCost
import Mathlib.Algebra.Order.BigOperators.Group.List
import Mathlib.Algebra.Order.Field.Rat
import Mathlib.Tactic.Linarith

/-! # The least cost of a script

With exact costs, the cost of two forests is the least cost of a script between them.

* **`CostModel.price`**, **`Comparison.priceAt`** — what an edit costs, by nodes and by positions;
* **`Comparison.forestCost_le_of_edits`** — no script is cheaper;
* **`Comparison.exists_edits_cost_eq`** — some script is that cheap;
* **`Comparison.forestCost_le_of_price_le`** — cheaper edits make no forests dearer. -/

namespace Entailment

/-! ## Exact arithmetic -/

namespace Cost

/-- The exact cost of nothing is zero. -/
@[simp] theorem zero_rat : (Cost.zero : Rat) = 0 := rfl

/-- Exact costs are added as numbers. -/
@[simp] theorem add_rat (a b : Rat) : Cost.add a b = a + b := rfl

/-- The lesser of two exact costs is their minimum. -/
@[simp] theorem least_rat (a b : Rat) : Cost.least a b = min a b := rfl

end Cost

/-- What an edit costs. -/
def CostModel.price {α : Type} (costs : CostModel α) : Operation → α
  | .replace i j => costs.replace i j
  | .insert j => costs.insert j
  | .delete i => costs.delete i

namespace Comparison

/-- What an edit of positions costs. -/
def priceAt {α : Type} (c : Comparison α) : Operation → α
  | .replace x y => c.replaceCost x y
  | .insert y => c.insertCost y
  | .delete x => c.deleteCost x

/-- The edit of positions costs what the edit of their nodes costs. -/
theorem price_relabel {α : Type} (c : Comparison α) (e : Operation) :
    c.costs.price (e.relabel c.t.node c.h.node) = c.priceAt e := by
  cases e <;> rfl

variable {c : Comparison Rat} {l₁ l₂ a b : Nat}

/-! ## The recursion with exact costs -/

/-- Two forests cost at most what deleting the last text node leaves. -/
theorem forestCost_le_delete (c : Comparison Rat) (l₁ l₂ a b : Nat) :
    c.forestCost l₁ l₂ (a + 1) b ≤ c.forestCost l₁ l₂ a b + c.deleteCost (l₁ + a) := by
  cases b with
  | zero => rw [forestCost_succ_zero, Cost.add_rat]
  | succ b =>
      rw [forestCost_succ_succ, Cost.least_rat, Cost.least_rat]
      exact (min_le_left _ _).trans (min_le_left _ _)

/-- Two forests cost at most what inserting the last hypothesis node leaves. -/
theorem forestCost_le_insert (c : Comparison Rat) (l₁ l₂ a b : Nat) :
    c.forestCost l₁ l₂ a (b + 1) ≤ c.forestCost l₁ l₂ a b + c.insertCost (l₂ + b) := by
  cases a with
  | zero => rw [forestCost_zero_succ, Cost.add_rat]
  | succ a =>
      rw [forestCost_succ_succ, Cost.least_rat, Cost.least_rat]
      exact (min_le_left _ _).trans (min_le_right _ _)

/-- Two forests cost at most what pairing their last subtrees costs. -/
theorem forestCost_le_pairing (c : Comparison Rat) (l₁ l₂ a b : Nat) :
    c.forestCost l₁ l₂ (a + 1) (b + 1) ≤ c.pairing l₁ l₂ a b := by
  rw [forestCost_succ_succ, Cost.least_rat]
  exact min_le_right _ _

/-- The cost is that of one of the three last edits. -/
theorem forestCost_cases (c : Comparison Rat) (l₁ l₂ a b : Nat) :
    c.forestCost l₁ l₂ (a + 1) (b + 1) = c.deleting l₁ l₂ a b ∨
      c.forestCost l₁ l₂ (a + 1) (b + 1) = c.inserting l₁ l₂ a b ∨
        c.forestCost l₁ l₂ (a + 1) (b + 1) = c.pairing l₁ l₂ a b := by
  rw [forestCost_succ_succ, Cost.least_rat, Cost.least_rat]
  rcases min_choice (min (c.deleting l₁ l₂ a b) (c.inserting l₁ l₂ a b)) (c.pairing l₁ l₂ a b)
    with h | h
  · rw [h]
    rcases min_choice (c.deleting l₁ l₂ a b) (c.inserting l₁ l₂ a b) with h | h
    · exact .inl h
    · exact .inr (.inl h)
  · exact .inr (.inr h)

/-- Where the last nodes are the roots of all of both forests, pairing replaces them. -/
theorem pairing_of_whole (ht : c.t.leftmost (l₁ + a) = l₁) (hh : c.h.leftmost (l₂ + b) = l₂) :
    c.pairing l₁ l₂ a b = c.forestCost l₁ l₂ a b + c.replaceCost (l₁ + a) (l₂ + b) := by
  rw [pairing, if_pos ⟨ht, hh⟩, Cost.add_rat]

/-- Elsewhere, pairing adds the cost of the last subtrees to that of what stands before them. -/
theorem pairing_of_apart
    (apart : ¬(c.t.leftmost (l₁ + a) = l₁ ∧ c.h.leftmost (l₂ + b) = l₂)) :
    c.pairing l₁ l₂ a b =
      c.forestCost l₁ l₂ (c.t.leftmost (l₁ + a) - l₁) (c.h.leftmost (l₂ + b) - l₂) +
        c.subtreeCost (l₁ + a) (l₂ + b) := by
  rw [pairing, if_neg apart, Cost.add_rat]

/-! ## Scripts -/

/-- No script costs less than the forests do. -/
theorem forestCost_le_of_edits {s : List Operation} (hs : Edits c.t c.h l₁ l₂ a b s) :
    c.forestCost l₁ l₂ a b ≤ (s.map c.priceAt).sum := by
  induction hs with
  | nil => simp [forestCost_zero_zero]
  | @delete l₁ l₂ a b s _ ih =>
      have := c.forestCost_le_delete l₁ l₂ a b
      rw [List.map_append, List.sum_append, List.map_singleton, List.sum_singleton, priceAt]
      linarith
  | @insert l₁ l₂ a b s _ ih =>
      have := c.forestCost_le_insert l₁ l₂ a b
      rw [List.map_append, List.sum_append, List.map_singleton, List.sum_singleton, priceAt]
      linarith
  | @replace l₁ l₂ a b s ht hh _ ih =>
      have := c.forestCost_le_pairing l₁ l₂ a b
      rw [pairing_of_whole ht hh] at this
      rw [List.map_append, List.sum_append, List.map_singleton, List.sum_singleton, priceAt]
      linarith
  | @nested l₁ l₂ a b s u _ _ apart _ _ ihs ihu =>
      have := c.forestCost_le_pairing l₁ l₂ a b
      rw [pairing_of_apart apart, subtreeCost] at this
      rw [List.map_append, List.sum_append]
      linarith

/-- Some script costs what the forests do. -/
theorem exists_edits_cost_eq (c : Comparison Rat) (l₁ l₂ a b : Nat)
    (closed₁ : c.t.Closed l₁ (l₁ + a)) (closed₂ : c.h.Closed l₂ (l₂ + b)) :
    ∃ s, Edits c.t c.h l₁ l₂ a b s ∧ (s.map c.priceAt).sum = c.forestCost l₁ l₂ a b := by
  induction l₁, l₂, a, b using PostOrder.runs_induction c.t c.h with
  | nil l₁ l₂ => exact ⟨[], .nil, by simp [forestCost_zero_zero]⟩
  | text l₁ l₂ a ih =>
      obtain ⟨s, hs, hcost⟩ := ih (closed₁.mono (by omega)) closed₂
      exact ⟨_, hs.delete, by simp [hcost, forestCost_succ_zero, priceAt]⟩
  | hypothesis l₁ l₂ b ih =>
      obtain ⟨s, hs, hcost⟩ := ih closed₁ (closed₂.mono (by omega))
      exact ⟨_, hs.insert, by simp [hcost, forestCost_zero_succ, priceAt]⟩
  | both l₁ l₂ a b ihDelete ihInsert ihReplace ihBefore ihInside =>
      rcases c.forestCost_cases l₁ l₂ a b with hmin | hmin | hmin
      · obtain ⟨s, hs, hcost⟩ := ihDelete (closed₁.mono (by omega)) closed₂
        exact ⟨_, hs.delete, by simp [hcost, hmin, deleting, priceAt]⟩
      · obtain ⟨s, hs, hcost⟩ := ihInsert closed₁ (closed₂.mono (by omega))
        exact ⟨_, hs.insert, by simp [hcost, hmin, inserting, priceAt]⟩
      · by_cases whole : c.t.leftmost (l₁ + a) = l₁ ∧ c.h.leftmost (l₂ + b) = l₂
        · obtain ⟨s, hs, hcost⟩ := ihReplace (closed₁.mono (by omega)) (closed₂.mono (by omega))
          refine ⟨_, hs.replace whole.1 whole.2, ?_⟩
          simp [hcost, hmin, pairing_of_whole whole.1 whole.2, priceAt]
        · obtain ⟨s, hs, hcost⟩ := ihBefore closed₁.before closed₂.before
          obtain ⟨u, hu, hcost'⟩ := ihInside whole (c.t.closed_subtree _) (c.h.closed_subtree _)
          refine ⟨_, .nested closed₁.le_leftmost closed₂.le_leftmost whole hs hu, ?_⟩
          rw [List.map_append, List.sum_append, hcost, hcost', hmin, pairing_of_apart whole]
          rfl

/-- Where no edit costs more, the forests do not. -/
theorem forestCost_le_of_price_le {t h : PostOrder} {costs costs' : CostModel Rat}
    (hle : ∀ e, costs.price e ≤ costs'.price e) (closed₁ : t.Closed l₁ (l₁ + a))
    (closed₂ : h.Closed l₂ (l₂ + b)) :
    (⟨t, h, costs⟩ : Comparison Rat).forestCost l₁ l₂ a b ≤
      (⟨t, h, costs'⟩ : Comparison Rat).forestCost l₁ l₂ a b := by
  let c : Comparison Rat := ⟨t, h, costs⟩
  let c' : Comparison Rat := ⟨t, h, costs'⟩
  obtain ⟨s, hs, hcost⟩ := c'.exists_edits_cost_eq l₁ l₂ a b closed₁ closed₂
  -- The cheapest script under the dearer costs is a script under the others too.
  calc c.forestCost l₁ l₂ a b
      ≤ (s.map c.priceAt).sum := forestCost_le_of_edits hs
    _ ≤ (s.map c'.priceAt).sum := List.sum_le_sum fun e _ => by
        rw [← price_relabel, ← price_relabel]
        exact hle _
    _ = c'.forestCost l₁ l₂ a b := hcost

end Comparison

end Entailment
