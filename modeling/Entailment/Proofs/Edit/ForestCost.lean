import Entailment.Edit.Table

/-! # What the tables hold

The recursion that the tables of forest distances fill in, without any table. It needs no law of the
arithmetic: costs may round, overflow or be undefined.

* **`PostOrder.runs_induction`** — induction on two runs of positions;
* **`Comparison.forestCost`** — the cost of one forest turned into another, by recursion;
* **`Comparison.subtreeCost`** — the cost of one subtree turned into another;
* **`Comparison.forestTable_holds`** — a forest table holds the costs of its forests, if the subtree
  table that it reads holds the costs of the subtrees inside them. -/

namespace Entailment

namespace PostOrder

variable {t h : PostOrder} {l₁ l₂ a b : Nat}

/-! ## Runs of positions

Two runs are the `a` positions of `t` from `l₁` on and the `b` positions of `h` from `l₂` on. -/

/-- Whether the last positions of two runs are the roots of all of them. -/
def Whole (t h : PostOrder) (l₁ l₂ a b : Nat) : Prop :=
  t.leftmost (l₁ + a - 1) = l₁ ∧ h.leftmost (l₂ + b - 1) = l₂

instance (l₁ l₂ a b : Nat) : Decidable (Whole t h l₁ l₂ a b) := inferInstanceAs (Decidable (_ ∧ _))

/-- The order of pairs of runs: by where they end, and of those that end alike, first the pair of
subtrees. -/
def rank (t h : PostOrder) (l₁ l₂ a b : Nat) : Nat :=
  2 * (l₁ + a + (l₂ + b)) + if Whole t h l₁ l₂ a b then 0 else 1

/-- Runs that end earlier rank lower. -/
theorem rank_lt {k₁ k₂ m n : Nat} (hlt : k₁ + m + (k₂ + n) < l₁ + a + (l₂ + b)) :
    rank t h k₁ k₂ m n < rank t h l₁ l₂ a b := by
  simp only [rank]
  split <;> split <;> omega

/-- What stands before the last subtrees ranks below the runs that end with them. -/
theorem rank_before_lt :
    rank t h l₁ l₂ (t.leftmost (l₁ + a) - l₁) (h.leftmost (l₂ + b) - l₂) <
      rank t h l₁ l₂ (a + 1) (b + 1) := by
  have h₁ := t.leftmost_le_self (l₁ + a)
  have h₂ := h.leftmost_le_self (l₂ + b)
  apply rank_lt
  omega

/-- The last positions of two subtrees are the roots of all of them. -/
theorem whole_subtrees (x y : Nat) :
    Whole t h (t.leftmost x) (h.leftmost y) (t.width x) (h.width y) := by
  rw [Whole, t.leftmost_add_width, h.leftmost_add_width]
  exact ⟨rfl, rfl⟩

/-- Two subtrees rank below longer runs that end with them. -/
theorem rank_subtrees_lt (apart : ¬(t.leftmost (l₁ + a) = l₁ ∧ h.leftmost (l₂ + b) = l₂)) :
    rank t h (t.leftmost (l₁ + a)) (h.leftmost (l₂ + b)) (t.width (l₁ + a)) (h.width (l₂ + b)) <
      rank t h l₁ l₂ (a + 1) (b + 1) := by
  have notWhole : ¬Whole t h l₁ l₂ (a + 1) (b + 1) := apart
  rw [rank, rank, if_pos (whole_subtrees _ _), if_neg notWhole, t.leftmost_add_width,
    h.leftmost_add_width]
  omega

/-- What holds of two runs if it holds of all runs that rank lower, holds of all. -/
@[elab_as_elim]
theorem runs_induction (t h : PostOrder) {motive : Nat → Nat → Nat → Nat → Prop}
    (nil : ∀ l₁ l₂, motive l₁ l₂ 0 0)
    (text : ∀ l₁ l₂ a, motive l₁ l₂ a 0 → motive l₁ l₂ (a + 1) 0)
    (hypothesis : ∀ l₁ l₂ b, motive l₁ l₂ 0 b → motive l₁ l₂ 0 (b + 1))
    (both : ∀ l₁ l₂ a b, motive l₁ l₂ a (b + 1) → motive l₁ l₂ (a + 1) b → motive l₁ l₂ a b →
      motive l₁ l₂ (t.leftmost (l₁ + a) - l₁) (h.leftmost (l₂ + b) - l₂) →
      (¬(t.leftmost (l₁ + a) = l₁ ∧ h.leftmost (l₂ + b) = l₂) →
        motive (t.leftmost (l₁ + a)) (h.leftmost (l₂ + b)) (t.width (l₁ + a)) (h.width (l₂ + b))) →
      motive l₁ l₂ (a + 1) (b + 1))
    (l₁ l₂ a b : Nat) : motive l₁ l₂ a b := by
  induction hr : rank t h l₁ l₂ a b using Nat.strongRecOn generalizing l₁ l₂ a b with
  | ind r ih =>
      subst hr
      match a, b with
      | 0, 0 => exact nil l₁ l₂
      | a + 1, 0 => exact text _ _ _ (ih _ (rank_lt (by omega)) _ _ _ _ rfl)
      | 0, b + 1 => exact hypothesis _ _ _ (ih _ (rank_lt (by omega)) _ _ _ _ rfl)
      | a + 1, b + 1 =>
          exact both _ _ _ _ (ih _ (rank_lt (by omega)) _ _ _ _ rfl)
            (ih _ (rank_lt (by omega)) _ _ _ _ rfl) (ih _ (rank_lt (by omega)) _ _ _ _ rfl)
            (ih _ rank_before_lt _ _ _ _ rfl)
            (fun apart => ih _ (rank_subtrees_lt apart) _ _ _ _ rfl)

end PostOrder

namespace Comparison

/-! ## The recursion -/

variable {α : Type} {c : Comparison α} {l₁ l₂ a b : Nat}

variable [Cost α]

/-- The cost of turning the `a` text positions from `l₁` on into the `b` hypothesis positions from
`l₂` on: the least of deleting the last text node, inserting the last hypothesis node, and pairing
the subtrees of the two. -/
def forestCost (c : Comparison α) (l₁ l₂ a b : Nat) : α :=
  match a, b with
  | 0, 0 => Cost.zero
  | a + 1, 0 => Cost.add (c.forestCost l₁ l₂ a 0) (c.deleteCost (l₁ + a))
  | 0, b + 1 => Cost.add (c.forestCost l₁ l₂ 0 b) (c.insertCost (l₂ + b))
  | a + 1, b + 1 =>
    let x := l₁ + a
    let y := l₂ + b
    let k₁ := c.t.leftmost x
    let k₂ := c.h.leftmost y
    let deleting := Cost.add (c.forestCost l₁ l₂ a (b + 1)) (c.deleteCost x)
    let inserting := Cost.add (c.forestCost l₁ l₂ (a + 1) b) (c.insertCost y)
    let pairing :=
      if k₁ = l₁ ∧ k₂ = l₂ then Cost.add (c.forestCost l₁ l₂ a b) (c.replaceCost x y)
      else
        Cost.add (c.forestCost l₁ l₂ (k₁ - l₁) (k₂ - l₂))
          (c.forestCost k₁ k₂ (c.t.width x) (c.h.width y))
    Cost.least (Cost.least deleting inserting) pairing
termination_by PostOrder.rank c.t c.h l₁ l₂ a b
decreasing_by
  all_goals try (apply PostOrder.rank_lt; omega)
  · exact PostOrder.rank_before_lt
  · apply PostOrder.rank_subtrees_lt
    assumption

/-- The cost of turning the subtree of a text position into that of a hypothesis position. -/
def subtreeCost (c : Comparison α) (x y : Nat) : α :=
  c.forestCost (c.t.leftmost x) (c.h.leftmost y) (c.t.width x) (c.h.width y)

/-- Two forests that are whole subtrees cost what these subtrees cost. -/
theorem subtreeCost_of_whole (h₁ : c.t.leftmost (l₁ + a) = l₁) (h₂ : c.h.leftmost (l₂ + b) = l₂) :
    c.subtreeCost (l₁ + a) (l₂ + b) = c.forestCost l₁ l₂ (a + 1) (b + 1) := by
  rw [subtreeCost, PostOrder.width, PostOrder.width, h₁, h₂, show l₁ + a + 1 - l₁ = a + 1 by omega,
    show l₂ + b + 1 - l₂ = b + 1 by omega]

/-- Nothing is turned into nothing for nothing. -/
theorem forestCost_zero_zero : c.forestCost l₁ l₂ 0 0 = Cost.zero := by rw [forestCost]

/-- Text nodes against nothing are deleted, the last one last. -/
theorem forestCost_succ_zero :
    c.forestCost l₁ l₂ (a + 1) 0 = Cost.add (c.forestCost l₁ l₂ a 0) (c.deleteCost (l₁ + a)) := by
  rw [forestCost]

/-- Hypothesis nodes against nothing are inserted, the last one last. -/
theorem forestCost_zero_succ :
    c.forestCost l₁ l₂ 0 (b + 1) = Cost.add (c.forestCost l₁ l₂ 0 b) (c.insertCost (l₂ + b)) := by
  rw [forestCost]

/-- The cost of deleting the last text node. -/
def deleting (c : Comparison α) (l₁ l₂ a b : Nat) : α :=
  Cost.add (c.forestCost l₁ l₂ a (b + 1)) (c.deleteCost (l₁ + a))

/-- The cost of inserting the last hypothesis node. -/
def inserting (c : Comparison α) (l₁ l₂ a b : Nat) : α :=
  Cost.add (c.forestCost l₁ l₂ (a + 1) b) (c.insertCost (l₂ + b))

/-- The cost of pairing the last subtrees. -/
def pairing (c : Comparison α) (l₁ l₂ a b : Nat) : α :=
  if c.t.leftmost (l₁ + a) = l₁ ∧ c.h.leftmost (l₂ + b) = l₂ then
    Cost.add (c.forestCost l₁ l₂ a b) (c.replaceCost (l₁ + a) (l₂ + b))
  else
    Cost.add (c.forestCost l₁ l₂ (c.t.leftmost (l₁ + a) - l₁) (c.h.leftmost (l₂ + b) - l₂))
      (c.subtreeCost (l₁ + a) (l₂ + b))

/-- Two forests cost the least of deleting, inserting and pairing what they end with. -/
theorem forestCost_succ_succ :
    c.forestCost l₁ l₂ (a + 1) (b + 1) =
      Cost.least (Cost.least (c.deleting l₁ l₂ a b) (c.inserting l₁ l₂ a b))
        (c.pairing l₁ l₂ a b) := by
  rw [forestCost]
  rfl

/-! ## Forest tables -/

/-- The table holds the costs of the forests of up to `m` and `n` positions. -/
def Holds (c : Comparison α) (l₁ l₂ m n : Nat) (table : Table α) : Prop :=
  ∀ a ≤ m, ∀ b ≤ n, table.get a b = c.forestCost l₁ l₂ a b

/-- The subtree table holds the costs of the subtrees inside two forests, but for those that begin
where the forests begin. -/
def Supplies (c : Comparison α) (l₁ l₂ m n : Nat) (d : SubtreeTable α) : Prop :=
  ∀ x < l₁ + m, ∀ y < l₂ + n, l₁ ≤ x → l₂ ≤ y →
    ¬(c.t.leftmost x = l₁ ∧ c.h.leftmost y = l₂) → d.get x y = c.subtreeCost x y

/-- What holds up to some row and column holds up to earlier ones. -/
theorem Holds.mono {m n m' n' : Nat} {table : Table α} (h : c.Holds l₁ l₂ m n table) (hm : m' ≤ m)
    (hn : n' ≤ n) : c.Holds l₁ l₂ m' n' table :=
  fun a ha b hb => h a (Nat.le_trans ha hm) b (Nat.le_trans hb hn)

/-- What supplies a forest supplies a shorter one. -/
theorem Supplies.mono {m n m' : Nat} {d : SubtreeTable α} (h : c.Supplies l₁ l₂ m n d)
    (hm : m' ≤ m) : c.Supplies l₁ l₂ m' n d :=
  fun x hx y hy => h x (by omega) y hy

/-- The top row holds the costs of inserting. -/
theorem topRow_holds (c : Comparison α) (l₁ l₂ n : Nat) :
    (c.topRow l₂ n).size = n + 1 ∧
      ∀ b ≤ n, (c.topRow l₂ n)[b]?.getD Cost.zero = c.forestCost l₁ l₂ 0 b := by
  induction n with
  | zero =>
      refine ⟨rfl, fun b hb => ?_⟩
      obtain rfl : b = 0 := by omega
      exact forestCost_zero_zero.symm
  | succ n ih =>
      obtain ⟨hsize, hget⟩ := ih
      refine ⟨by rw [topRow, Array.size_push, hsize], fun b hb => ?_⟩
      rw [topRow, Array.getElem?_push, hsize]
      split
      next h =>
        subst h
        rw [forestCost_zero_succ, ← hget n (Nat.le_refl _)]
        rfl
      next h => exact hget b (by omega)

/-- A cell holds the cost of its forests, if what it is computed from does. -/
theorem cell_eq {d : SubtreeTable α} {above : Table α} {row : Array α} {n : Nat}
    (habove : c.Holds l₁ l₂ a n above) (hb : b + 1 ≤ n)
    (hrow : row[b]?.getD Cost.zero = c.forestCost l₁ l₂ (a + 1) b)
    (hd : c.Supplies l₁ l₂ (a + 1) n d) :
    c.cell d l₁ l₂ above row a b = c.forestCost l₁ l₂ (a + 1) (b + 1) := by
  have h₁ := c.t.leftmost_le_self (l₁ + a)
  have h₂ := c.h.leftmost_le_self (l₂ + b)
  rw [forestCost_succ_succ, cell, deleting, inserting, pairing, hrow,
    habove a (Nat.le_refl _) (b + 1) hb, habove a (Nat.le_refl _) b (by omega),
    habove (c.t.leftmost (l₁ + a) - l₁) (by omega) (c.h.leftmost (l₂ + b) - l₂) (by omega)]
  by_cases whole : c.t.leftmost (l₁ + a) = l₁ ∧ c.h.leftmost (l₂ + b) = l₂
  · rw [if_pos whole, if_pos whole]
  · rw [if_neg whole, if_neg whole,
      hd (l₁ + a) (by omega) (l₂ + b) (by omega) (by omega) (by omega) whole]

/-- A further row holds the costs of its forests. -/
theorem nextRow_holds {d : SubtreeTable α} {above : Table α} {n : Nat}
    (habove : c.Holds l₁ l₂ a n above) (hd : c.Supplies l₁ l₂ (a + 1) n d) {j : Nat} (hj : j ≤ n) :
    (c.nextRow d l₁ l₂ above a j).size = j + 1 ∧
      ∀ b ≤ j, (c.nextRow d l₁ l₂ above a j)[b]?.getD Cost.zero = c.forestCost l₁ l₂ (a + 1) b := by
  induction j with
  | zero =>
      refine ⟨rfl, fun b hb => ?_⟩
      obtain rfl : b = 0 := by omega
      rw [forestCost_succ_zero, ← habove a (Nat.le_refl _) 0 hj]
      rfl
  | succ j ih =>
      obtain ⟨hsize, hget⟩ := ih (by omega)
      refine ⟨by rw [nextRow, Array.size_push, hsize], fun b hb => ?_⟩
      rw [nextRow, Array.getElem?_push, hsize]
      split
      next h =>
        subst h
        exact cell_eq habove hj (hget j (Nat.le_refl _)) hd
      next h => exact hget b (by omega)

/-- A forest table holds the costs of its forests, if the subtree table supplies what is inside. -/
theorem forestTable_holds {d : SubtreeTable α} {m n : Nat} (hd : c.Supplies l₁ l₂ m n d) :
    c.Holds l₁ l₂ m n (c.forestTable d l₁ l₂ n m) := by
  suffices h : (c.forestTable d l₁ l₂ n m).size = m + 1 ∧
      c.Holds l₁ l₂ m n (c.forestTable d l₁ l₂ n m) from h.2
  induction m with
  | zero =>
      refine ⟨rfl, fun a ha b hb => ?_⟩
      obtain rfl : a = 0 := by omega
      exact (c.topRow_holds l₁ l₂ n).2 b hb
  | succ m ih =>
      obtain ⟨hsize, hget⟩ := ih (hd.mono (by omega))
      refine ⟨by rw [forestTable, Array.size_push, hsize], fun a ha b hb => ?_⟩
      rw [forestTable, Table.get, Array.getElem?_push, hsize]
      split
      next h =>
        subst h
        exact (nextRow_holds hget hd (Nat.le_refl _)).2 b hb
      next h => exact hget a (by omega) b hb

end Comparison

end Entailment
