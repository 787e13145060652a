import Entailment.Edit.Distance
import Entailment.Proofs.Edit.Edits
import Entailment.Proofs.Edit.SubtreeTable

/-! # Walking back from a forest cost

Backtracking by the costs of the forests, without tables. How costs are compared is a parameter: no
comparison leads out of the scripts between the two forests.

* **`Comparison.lastEdit`** — what is taken for the last edit of two forests;
* **`Comparison.walk`** — the script that repeated choices of a last edit lead to;
* **`Comparison.edits_walk`** — it is a script between the two forests;
* **`Comparison.trace_eq_walk`** — backtracking through tables leads to the same script;
* **`Comparison.operations_script`** — so the script of a comparison is a walk. -/

namespace Entailment

/-- The ways in which a script between two forests can end. -/
inductive LastEdit where
  /-- The last text node is deleted. -/
  | delete
  /-- The last hypothesis node is inserted. -/
  | insert
  /-- The last subtrees are paired. -/
  | pair
  deriving DecidableEq

namespace Comparison

variable {α : Type} [Cost α]

/-- What is taken for the last edit: a deletion if it comes near the cost of the forests, else an
insertion if that comes near it, else a pair. -/
def lastEdit (c : Comparison α) (near : α → α → Bool) (l₁ l₂ a b : Nat) : LastEdit :=
  if near (c.deleting l₁ l₂ a b) (c.forestCost l₁ l₂ (a + 1) (b + 1)) then .delete
  else if near (c.inserting l₁ l₂ a b) (c.forestCost l₁ l₂ (a + 1) (b + 1)) then .insert
  else .pair

/-- The script, by positions, that is found by taking last edits until no node is left. -/
def walk (c : Comparison α) (near : α → α → Bool) (l₁ l₂ a b : Nat) : List Operation :=
  match a, b with
  | 0, 0 => []
  | a + 1, 0 => c.walk near l₁ l₂ a 0 ++ [.delete (l₁ + a)]
  | 0, b + 1 => c.walk near l₁ l₂ 0 b ++ [.insert (l₂ + b)]
  | a + 1, b + 1 =>
    match c.lastEdit near l₁ l₂ a b with
    | .delete => c.walk near l₁ l₂ a (b + 1) ++ [.delete (l₁ + a)]
    | .insert => c.walk near l₁ l₂ (a + 1) b ++ [.insert (l₂ + b)]
    | .pair =>
      if c.t.leftmost (l₁ + a) = l₁ ∧ c.h.leftmost (l₂ + b) = l₂ then
        c.walk near l₁ l₂ a b ++ [.replace (l₁ + a) (l₂ + b)]
      else
        c.walk near l₁ l₂ (c.t.leftmost (l₁ + a) - l₁) (c.h.leftmost (l₂ + b) - l₂) ++
          c.walk near (c.t.leftmost (l₁ + a)) (c.h.leftmost (l₂ + b)) (c.t.width (l₁ + a))
            (c.h.width (l₂ + b))
termination_by PostOrder.rank c.t c.h l₁ l₂ a b
decreasing_by
  all_goals try (apply PostOrder.rank_lt; omega)
  · exact PostOrder.rank_before_lt
  · apply PostOrder.rank_subtrees_lt
    assumption

variable {c : Comparison α} {near : α → α → Bool} {l₁ l₂ a b : Nat}

/-! ## One step of the walk -/

/-- The last edit is a deletion if deleting comes near the cost of the forests. -/
theorem lastEdit_eq_delete_iff : c.lastEdit near l₁ l₂ a b = .delete ↔
    near (c.deleting l₁ l₂ a b) (c.forestCost l₁ l₂ (a + 1) (b + 1)) := by
  rw [lastEdit]
  split_ifs <;> simp_all

/-- The last edit is an insertion if deleting does not come near the cost of the forests and
inserting does. -/
theorem lastEdit_eq_insert_iff : c.lastEdit near l₁ l₂ a b = .insert ↔
    ¬near (c.deleting l₁ l₂ a b) (c.forestCost l₁ l₂ (a + 1) (b + 1)) ∧
      near (c.inserting l₁ l₂ a b) (c.forestCost l₁ l₂ (a + 1) (b + 1)) := by
  rw [lastEdit]
  split_ifs <;> simp_all

/-- The last subtrees are paired if neither deleting nor inserting comes near the cost of the
forests. -/
theorem lastEdit_eq_pair_iff : c.lastEdit near l₁ l₂ a b = .pair ↔
    ¬near (c.deleting l₁ l₂ a b) (c.forestCost l₁ l₂ (a + 1) (b + 1)) ∧
      ¬near (c.inserting l₁ l₂ a b) (c.forestCost l₁ l₂ (a + 1) (b + 1)) := by
  rw [lastEdit]
  split_ifs <;> simp_all

/-- Nothing is edited where there are no nodes. -/
@[simp] theorem walk_zero_zero : c.walk near l₁ l₂ 0 0 = [] := by rw [walk]

/-- Text nodes against nothing are deleted. -/
@[simp] theorem walk_succ_zero :
    c.walk near l₁ l₂ (a + 1) 0 = c.walk near l₁ l₂ a 0 ++ [.delete (l₁ + a)] := by
  rw [walk]

/-- Hypothesis nodes against nothing are inserted. -/
@[simp] theorem walk_zero_succ :
    c.walk near l₁ l₂ 0 (b + 1) = c.walk near l₁ l₂ 0 b ++ [.insert (l₂ + b)] := by
  rw [walk]

/-- A walk whose last edit is a deletion ends with it. -/
theorem walk_of_delete (h : c.lastEdit near l₁ l₂ a b = .delete) :
    c.walk near l₁ l₂ (a + 1) (b + 1) = c.walk near l₁ l₂ a (b + 1) ++ [.delete (l₁ + a)] := by
  rw [walk, h]

/-- A walk whose last edit is an insertion ends with it. -/
theorem walk_of_insert (h : c.lastEdit near l₁ l₂ a b = .insert) :
    c.walk near l₁ l₂ (a + 1) (b + 1) = c.walk near l₁ l₂ (a + 1) b ++ [.insert (l₂ + b)] := by
  rw [walk, h]

/-- A walk that pairs two whole forests ends with the replacement of their last nodes. -/
theorem walk_of_whole (h : c.lastEdit near l₁ l₂ a b = .pair)
    (whole : c.t.leftmost (l₁ + a) = l₁ ∧ c.h.leftmost (l₂ + b) = l₂) :
    c.walk near l₁ l₂ (a + 1) (b + 1) =
      c.walk near l₁ l₂ a b ++ [.replace (l₁ + a) (l₂ + b)] := by
  rw [walk, h]
  exact if_pos whole

/-- A walk that pairs two subtrees ends with the walk through them. -/
theorem walk_of_apart (h : c.lastEdit near l₁ l₂ a b = .pair)
    (apart : ¬(c.t.leftmost (l₁ + a) = l₁ ∧ c.h.leftmost (l₂ + b) = l₂)) :
    c.walk near l₁ l₂ (a + 1) (b + 1) =
      c.walk near l₁ l₂ (c.t.leftmost (l₁ + a) - l₁) (c.h.leftmost (l₂ + b) - l₂) ++
        c.walk near (c.t.leftmost (l₁ + a)) (c.h.leftmost (l₂ + b)) (c.t.width (l₁ + a))
          (c.h.width (l₂ + b)) := by
  rw [walk, h]
  exact if_neg apart

/-! ## The whole walk -/

/-- Whatever the comparison says, the walk is a script between the two forests. -/
theorem edits_walk (c : Comparison α) (near : α → α → Bool)
    (closed₁ : c.t.Closed l₁ (l₁ + a)) (closed₂ : c.h.Closed l₂ (l₂ + b)) :
    Edits c.t c.h l₁ l₂ a b (c.walk near l₁ l₂ a b) := by
  induction l₁, l₂, a, b using PostOrder.runs_induction c.t c.h with
  | nil l₁ l₂ =>
      rw [walk_zero_zero]
      exact .nil
  | text l₁ l₂ a ih =>
      rw [walk_succ_zero]
      exact (ih (closed₁.mono (by omega)) closed₂).delete
  | hypothesis l₁ l₂ b ih =>
      rw [walk_zero_succ]
      exact (ih closed₁ (closed₂.mono (by omega))).insert
  | both l₁ l₂ a b ihDelete ihInsert ihReplace ihBefore ihInside =>
      cases hlast : c.lastEdit near l₁ l₂ a b with
      | delete =>
          rw [walk_of_delete hlast]
          exact (ihDelete (closed₁.mono (by omega)) closed₂).delete
      | insert =>
          rw [walk_of_insert hlast]
          exact (ihInsert closed₁ (closed₂.mono (by omega))).insert
      | pair =>
          by_cases whole : c.t.leftmost (l₁ + a) = l₁ ∧ c.h.leftmost (l₂ + b) = l₂
          · rw [walk_of_whole hlast whole]
            exact (ihReplace (closed₁.mono (by omega)) (closed₂.mono (by omega))).replace
              whole.1 whole.2
          · rw [walk_of_apart hlast whole]
            exact .nested closed₁.le_leftmost closed₂.le_leftmost whole
              (ihBefore closed₁.before closed₂.before)
              (ihInside whole (c.t.closed_subtree _) (c.h.closed_subtree _))

/-- Backtracking through tables that hold the costs of the forests is the walk. -/
theorem trace_eq_walk {table : Table α} (hm : l₁ + a ≤ c.t.size) (hn : l₂ + b ≤ c.h.size)
    (hold : c.Holds l₁ l₂ a b table) (closed₁ : c.t.Closed l₁ (l₁ + a))
    (closed₂ : c.h.Closed l₂ (l₂ + b)) :
    c.trace c.subtreeTable l₁ l₂ table a b closed₁ closed₂ =
      (c.walk Cost.near l₁ l₂ a b).map (Operation.relabel c.t.node c.h.node) := by
  induction l₁, l₂, a, b using PostOrder.runs_induction c.t c.h generalizing table with
  | nil l₁ l₂ =>
      rw [trace, walk_zero_zero]
      rfl
  | text l₁ l₂ a ih =>
      rw [trace, walk_succ_zero, List.map_append,
        ih (by omega) hn (hold.mono (by omega) (Nat.le_refl _))]
      rfl
  | hypothesis l₁ l₂ b ih =>
      rw [trace, walk_zero_succ, List.map_append,
        ih hm (by omega) (hold.mono (Nat.le_refl _) (by omega))]
      rfl
  | both l₁ l₂ a b ihDelete ihInsert ihReplace ihBefore ihInside =>
      have hx := c.t.leftmost_le_self (l₁ + a)
      have hy := c.h.leftmost_le_self (l₂ + b)
      have hwx := c.t.leftmost_add_width (l₁ + a)
      have hwy := c.h.leftmost_add_width (l₂ + b)
      -- The entries that are compared are the costs that the last edit is chosen by.
      have hdelete : Cost.add (table.get a (b + 1)) (c.deleteCost (l₁ + a)) =
          c.deleting l₁ l₂ a b := by
        rw [hold a (by omega) (b + 1) (by omega), deleting]
      have hinsert : Cost.add (table.get (a + 1) b) (c.insertCost (l₂ + b)) =
          c.inserting l₁ l₂ a b := by
        rw [hold (a + 1) (by omega) b (by omega), inserting]
      rw [trace]
      simp only [hdelete, hinsert, hold (a + 1) (Nat.le_refl _) (b + 1) (Nat.le_refl _)]
      by_cases near₁ : Cost.near (c.deleting l₁ l₂ a b) (c.forestCost l₁ l₂ (a + 1) (b + 1))
      · rw [if_pos near₁, walk_of_delete (lastEdit_eq_delete_iff.2 near₁), List.map_append,
          ihDelete (by omega) hn (hold.mono (by omega) (Nat.le_refl _))]
        rfl
      by_cases near₂ : Cost.near (c.inserting l₁ l₂ a b) (c.forestCost l₁ l₂ (a + 1) (b + 1))
      · rw [if_neg near₁, if_pos near₂,
          walk_of_insert (lastEdit_eq_insert_iff.2 ⟨near₁, near₂⟩), List.map_append,
          ihInsert hm (by omega) (hold.mono (Nat.le_refl _) (by omega))]
        rfl
      have hlast := lastEdit_eq_pair_iff.2 ⟨near₁, near₂⟩
      by_cases whole : c.t.leftmost (l₁ + a) = l₁ ∧ c.h.leftmost (l₂ + b) = l₂
      · rw [if_neg near₁, if_neg near₂, if_pos whole, walk_of_whole hlast whole, List.map_append,
          ihReplace (by omega) (by omega) (hold.mono (by omega) (by omega))]
        rfl
      · rw [if_neg near₁, if_neg near₂, if_neg whole, walk_of_apart hlast whole, List.map_append,
          ihBefore (by omega) (by omega) (hold.mono (by omega) (by omega)),
          ihInside whole (by omega) (by omega)
            (forestTable_holds (c.subtreeTable_supplies (by omega) (by omega)))]

/-- The script of a comparison is the walk from the whole forests. -/
theorem operations_script (c : Comparison α) :
    c.script.operations =
      (c.walk Cost.near 0 0 c.t.size c.h.size).map (Operation.relabel c.t.node c.h.node) :=
  trace_eq_walk (by omega) (by omega) c.wholeTable_holds _ _

end Comparison

end Entailment
