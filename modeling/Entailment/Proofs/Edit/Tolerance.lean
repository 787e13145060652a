import Entailment.Proofs.Edit.Script
import Mathlib.Algebra.BigOperators.Intervals
import Mathlib.Algebra.Order.BigOperators.Group.Finset

/-! # What the script costs

Backtracking takes an edit that comes near the cost of the forests. So the script may cost more than
the distance, but by no more than one tolerance for each edit.

* **`Cost.nearFrom`** — the comparison of costs, with any absolute tolerance;
* **`Comparison.Slack`** — how far a chosen edit may exceed the cost of the forests;
* **`Comparison.overrun_walk_le`** — it adds up along a walk and does not compound;
* **`CostModel.All`** — a property of all costs of two trees;
* **`script_cost_within_tolerance`** — the script realises the distance up to the tolerance. -/

namespace Entailment

namespace Cost

/-- The absolute value of an exact cost is that of the ordered field. -/
theorem rat_abs (u : Rat) : u.abs = |u| := by
  rw [Rat.abs]
  split_ifs with hu
  · exact (abs_of_nonneg hu).symm
  · exact (abs_of_neg (not_le.1 hu)).symm

/-- The tolerance is positive. -/
theorem tolerance_pos : 0 < tolerance := by
  norm_num [tolerance]

/-- The tolerance is less than one. -/
theorem tolerance_lt_one : tolerance < 1 := by
  norm_num [tolerance]

/-- Whether two exact costs differ by at most a billionth of `floor` more than the larger of their
magnitudes. -/
def nearFrom (floor u v : Rat) : Bool := decide (|u - v| ≤ tolerance * (floor + max |u| |v|))

/-- Costs are compared with a floor of one unit. -/
theorem near_eq_nearFrom : (Cost.near : Rat → Rat → Bool) = nearFrom 1 := by
  funext u v
  rw [nearFrom, ← rat_abs, ← rat_abs, ← rat_abs]
  rfl

variable {floor u v : Rat}

/-- A cost is near itself, with any floor that is not negative. -/
theorem nearFrom_self (hfloor : 0 ≤ floor) (u : Rat) : nearFrom floor u u = true := by
  rw [nearFrom, decide_eq_true_iff, sub_self, abs_zero, max_self]
  exact mul_nonneg tolerance_pos.le (add_nonneg hfloor (abs_nonneg u))

/-- A cost above another is near it if it exceeds it by at most the tolerance for the larger. -/
theorem nearFrom_iff_of_le (hv : 0 ≤ v) (hvu : v ≤ u) :
    nearFrom floor u v = true ↔ u - v ≤ tolerance * (floor + u) := by
  rw [nearFrom, decide_eq_true_iff, abs_of_nonneg (sub_nonneg.2 hvu), abs_of_nonneg hv,
    abs_of_nonneg (hv.trans hvu), max_eq_left hvu]

/-- A cost near another is larger by no more than the tolerance for costs of its size. -/
theorem le_of_nearFrom {bound : Rat} (hv : 0 ≤ v) (hvu : v ≤ u) (hu : u ≤ bound)
    (h : nearFrom floor u v = true) : u ≤ v + tolerance * (floor + bound) := by
  rw [nearFrom_iff_of_le hv hvu] at h
  have hmono : tolerance * (floor + u) ≤ tolerance * (floor + bound) :=
    mul_le_mul_of_nonneg_left (by linarith) tolerance_pos.le
  linarith

end Cost

/-! ## The error of a walk -/

namespace Comparison

variable {c : Comparison Rat} {near : Rat → Rat → Bool} {ε : Rat} {l₁ l₂ a b : Nat}

/-- An edit that comes near the cost of the forests exceeds it by at most `ε`, and one that reaches
it does come near. -/
structure Slack (c : Comparison Rat) (near : Rat → Rat → Bool) (ε : Rat) : Prop where
  /-- What reaches the cost comes near it. -/
  refl : ∀ u, near u u
  /-- What comes near may exceed the cost. -/
  nonneg : 0 ≤ ε
  /-- A deletion that comes near exceeds the cost by at most `ε`. -/
  delete : ∀ l₁ l₂ a b, l₁ + a < c.t.size → l₂ + b < c.h.size →
    near (c.deleting l₁ l₂ a b) (c.forestCost l₁ l₂ (a + 1) (b + 1)) →
      c.deleting l₁ l₂ a b ≤ c.forestCost l₁ l₂ (a + 1) (b + 1) + ε
  /-- An insertion that comes near exceeds the cost by at most `ε`. -/
  insert : ∀ l₁ l₂ a b, l₁ + a < c.t.size → l₂ + b < c.h.size →
    near (c.inserting l₁ l₂ a b) (c.forestCost l₁ l₂ (a + 1) (b + 1)) →
      c.inserting l₁ l₂ a b ≤ c.forestCost l₁ l₂ (a + 1) (b + 1) + ε

/-- No forests cost less than nothing. -/
def Nonneg (c : Comparison Rat) : Prop :=
  ∀ l₁ l₂ a b, l₁ + a ≤ c.t.size → l₂ + b ≤ c.h.size → 0 ≤ c.forestCost l₁ l₂ a b

/-- A pair is taken only if it reaches the cost of the forests. -/
theorem forestCost_eq_pairing (hrefl : ∀ u, near u u) (hlast : c.lastEdit near l₁ l₂ a b = .pair) :
    c.forestCost l₁ l₂ (a + 1) (b + 1) = c.pairing l₁ l₂ a b := by
  obtain ⟨hdelete, hinsert⟩ := lastEdit_eq_pair_iff.1 hlast
  rcases c.forestCost_cases l₁ l₂ a b with h | h | h
  · exact absurd (h ▸ hrefl _) hdelete
  · exact absurd (h ▸ hrefl _) hinsert
  · exact h

/-- What a script costs beyond an allowance of `ε` for each of its edits. -/
def overrun (c : Comparison Rat) (ε : Rat) (s : List Operation) : Rat :=
  (s.map c.priceAt).sum - s.length * ε

/-- A script without edits overruns by nothing. -/
@[simp] theorem overrun_nil : c.overrun ε [] = 0 := by
  simp [overrun]

/-- Overruns add up along a script. -/
@[simp] theorem overrun_append (s u : List Operation) :
    c.overrun ε (s ++ u) = c.overrun ε s + c.overrun ε u := by
  rw [overrun, overrun, overrun, List.map_append, List.sum_append, List.length_append,
    Nat.cast_add]
  ring

/-- One edit overruns by its price, less its allowance. -/
@[simp] theorem overrun_singleton (e : Operation) : c.overrun ε [e] = c.priceAt e - ε := by
  simp [overrun]

/-- With an allowance of `ε` for each of its edits, a walk costs no more than its forests. -/
theorem overrun_walk_le (hc : c.Slack near ε) (hm : l₁ + a ≤ c.t.size) (hn : l₂ + b ≤ c.h.size) :
    c.overrun ε (c.walk near l₁ l₂ a b) ≤ c.forestCost l₁ l₂ a b := by
  have hε := hc.nonneg
  induction l₁, l₂, a, b using PostOrder.runs_induction c.t c.h with
  | nil l₁ l₂ => simp [forestCost_zero_zero]
  | text l₁ l₂ a ih =>
      have hstep := ih (by omega) hn
      rw [walk_succ_zero, forestCost_succ_zero, overrun_append, overrun_singleton, priceAt,
        Cost.add_rat]
      linarith
  | hypothesis l₁ l₂ b ih =>
      have hstep := ih hm (by omega)
      rw [walk_zero_succ, forestCost_zero_succ, overrun_append, overrun_singleton, priceAt,
        Cost.add_rat]
      linarith
  | both l₁ l₂ a b ihDelete ihInsert ihReplace ihBefore ihInside =>
      have hx := c.t.leftmost_le_self (l₁ + a)
      have hy := c.h.leftmost_le_self (l₂ + b)
      have hwx := c.t.leftmost_add_width (l₁ + a)
      have hwy := c.h.leftmost_add_width (l₂ + b)
      cases hlast : c.lastEdit near l₁ l₂ a b with
      | delete =>
          have hstep := ihDelete (by omega) hn
          have hslack := hc.delete l₁ l₂ a b (by omega) (by omega)
            (lastEdit_eq_delete_iff.1 hlast)
          rw [deleting, Cost.add_rat] at hslack
          rw [walk_of_delete hlast, overrun_append, overrun_singleton, priceAt]
          linarith
      | insert =>
          have hstep := ihInsert hm (by omega)
          have hslack := hc.insert l₁ l₂ a b (by omega) (by omega)
            (lastEdit_eq_insert_iff.1 hlast).2
          rw [inserting, Cost.add_rat] at hslack
          rw [walk_of_insert hlast, overrun_append, overrun_singleton, priceAt]
          linarith
      | pair =>
          rw [forestCost_eq_pairing hc.refl hlast]
          by_cases whole : c.t.leftmost (l₁ + a) = l₁ ∧ c.h.leftmost (l₂ + b) = l₂
          · have hstep := ihReplace (by omega) (by omega)
            rw [walk_of_whole hlast whole, pairing_of_whole whole.1 whole.2, overrun_append,
              overrun_singleton, priceAt]
            linarith
          · -- The nested walk starts from the very cost that the pair is taken at.
            have hbefore := ihBefore (by omega) (by omega)
            have hinside := ihInside whole (by omega) (by omega)
            rw [walk_of_apart hlast whole, pairing_of_apart whole, subtreeCost, overrun_append]
            exact add_le_add hbefore hinside

/-- Deleting and inserting everything is one way to turn one forest into another. -/
theorem forestCost_le_sums (c : Comparison Rat) (l₁ l₂ a b : Nat) :
    c.forestCost l₁ l₂ a b ≤
      ∑ x ∈ Finset.Ico l₁ (l₁ + a), c.deleteCost x +
        ∑ y ∈ Finset.Ico l₂ (l₂ + b), c.insertCost y := by
  induction a with
  | zero =>
      induction b with
      | zero => simp [forestCost_zero_zero]
      | succ b ih =>
          have := c.forestCost_le_insert l₁ l₂ 0 b
          rw [← Nat.add_assoc, Finset.sum_Ico_succ_top (by omega)]
          linarith
  | succ a ih =>
      have := c.forestCost_le_delete l₁ l₂ a b
      rw [← Nat.add_assoc, Finset.sum_Ico_succ_top (by omega)]
      linarith

/-- Deleting last costs at most the deletion and insertion of everything. -/
theorem deleting_le_sums (c : Comparison Rat) (l₁ l₂ a b : Nat) :
    c.deleting l₁ l₂ a b ≤
      ∑ x ∈ Finset.Ico l₁ (l₁ + a + 1), c.deleteCost x +
        ∑ y ∈ Finset.Ico l₂ (l₂ + b + 1), c.insertCost y := by
  have := c.forestCost_le_sums l₁ l₂ a (b + 1)
  rw [deleting, Cost.add_rat, Finset.sum_Ico_succ_top (by omega)]
  rw [← Nat.add_assoc] at this
  linarith

/-- Inserting last costs at most the deletion and insertion of everything. -/
theorem inserting_le_sums (c : Comparison Rat) (l₁ l₂ a b : Nat) :
    c.inserting l₁ l₂ a b ≤
      ∑ x ∈ Finset.Ico l₁ (l₁ + a + 1), c.deleteCost x +
        ∑ y ∈ Finset.Ico l₂ (l₂ + b + 1), c.insertCost y := by
  have := c.forestCost_le_sums l₁ l₂ (a + 1) b
  rw [inserting, Cost.add_rat, Finset.sum_Ico_succ_top (a := l₂) (by omega)]
  rw [← Nat.add_assoc] at this
  linarith

end Comparison

/-! ## Costs of a kind -/

/-- All costs of editing nodes of the two trees have the property `P`. -/
structure CostModel.All (P : Rat → Prop) (costs : CostModel Rat) (t h : Tree) : Prop where
  /-- Replacements of nodes have it. -/
  replace : ∀ i < t.size, ∀ j < h.size, P (costs.replace i j)
  /-- Insertions of nodes have it. -/
  insert : ∀ j < h.size, P (costs.insert j)
  /-- Deletions of nodes have it. -/
  delete : ∀ i < t.size, P (costs.delete i)

/-- The rational number is a natural number. -/
def IsNatural (u : Rat) : Prop := ∃ n : Nat, u = n

/-- A natural number is not negative. -/
theorem IsNatural.nonneg {u : Rat} (hu : IsNatural u) : 0 ≤ u := by
  obtain ⟨n, rfl⟩ := hu
  exact Nat.cast_nonneg n

/-- The sum of natural numbers is a natural number. -/
theorem IsNatural.add {u v : Rat} (hu : IsNatural u) (hv : IsNatural v) : IsNatural (u + v) := by
  obtain ⟨m, rfl⟩ := hu
  obtain ⟨n, rfl⟩ := hv
  exact ⟨m + n, (Nat.cast_add m n).symm⟩

/-- Natural numbers less than one apart are the same. -/
theorem IsNatural.le_of_le_add {u v ε : Rat} (hu : IsNatural u) (hv : IsNatural v) (hε : ε < 1)
    (hle : u ≤ v + ε) : u ≤ v := by
  obtain ⟨m, rfl⟩ := hu
  obtain ⟨n, rfl⟩ := hv
  have hlt : (m : Rat) < (n + 1 : Nat) := by
    rw [Nat.cast_add, Nat.cast_one]
    linarith
  exact Nat.cast_le.2 (Nat.lt_succ_iff.1 (Nat.cast_lt.1 hlt))

variable {t h : Tree} {costs : CostModel Rat} {P Q : Rat → Prop} {floor : Rat}
  {l₁ l₂ a b : Nat}

/-- Costs with a property have every weaker one. -/
theorem CostModel.All.mono (hcosts : costs.All P t h) (himp : ∀ u, P u → Q u) :
    costs.All Q t h where
  replace i hi j hj := himp _ (hcosts.replace i hi j hj)
  insert j hj := himp _ (hcosts.insert j hj)
  delete i hi := himp _ (hcosts.delete i hi)

/-- What holds of all costs and of sums holds of the cost of forests. -/
theorem CostModel.All.forestCost (hcosts : costs.All P t h) (zero : P 0)
    (add : ∀ u v, P u → P v → P (u + v)) (hm : l₁ + a ≤ t.size) (hn : l₂ + b ≤ h.size) :
    P ((t.compare h costs).forestCost l₁ l₂ a b) := by
  have hdelete : ∀ x < t.size, P ((t.compare h costs).deleteCost x) := by
    intro x hx
    exact hcosts.delete _ (Tree.node_lt hx)
  have hinsert : ∀ y < h.size, P ((t.compare h costs).insertCost y) := by
    intro y hy
    exact hcosts.insert _ (Tree.node_lt hy)
  have hreplace : ∀ x < t.size, ∀ y < h.size, P ((t.compare h costs).replaceCost x y) := by
    intro x hx y hy
    exact hcosts.replace _ (Tree.node_lt hx) _ (Tree.node_lt hy)
  induction l₁, l₂, a, b using PostOrder.runs_induction t.positions h.positions with
  | nil l₁ l₂ =>
      rw [Comparison.forestCost_zero_zero]
      exact zero
  | text l₁ l₂ a ih =>
      rw [Comparison.forestCost_succ_zero]
      exact add _ _ (ih (by omega) hn) (hdelete _ (by omega))
  | hypothesis l₁ l₂ b ih =>
      rw [Comparison.forestCost_zero_succ]
      exact add _ _ (ih hm (by omega)) (hinsert _ (by omega))
  | both l₁ l₂ a b ihDelete ihInsert ihReplace ihBefore ihInside =>
      have hx := t.positions.leftmost_le_self (l₁ + a)
      have hy := h.positions.leftmost_le_self (l₂ + b)
      have hwx := t.positions.leftmost_add_width (l₁ + a)
      have hwy := h.positions.leftmost_add_width (l₂ + b)
      rcases (t.compare h costs).forestCost_cases l₁ l₂ a b with hmin | hmin | hmin <;> rw [hmin]
      · exact add _ _ (ihDelete (by omega) hn) (hdelete _ (by omega))
      · exact add _ _ (ihInsert hm (by omega)) (hinsert _ (by omega))
      · rw [Comparison.pairing]
        split_ifs with whole
        · exact add _ _ (ihReplace (by omega) (by omega)) (hreplace _ (by omega) _ (by omega))
        · exact add _ _ (ihBefore (by omega) (by omega)) (ihInside whole (by omega) (by omega))

/-! ## The cost of the script -/

/-- What deleting the whole text tree and inserting the whole hypothesis tree cost. -/
def CostModel.total (costs : CostModel Rat) (t h : Tree) : Rat :=
  ∑ i ∈ Finset.range t.size, costs.delete i + ∑ j ∈ Finset.range h.size, costs.insert j

/-- The nodes of all positions are all nodes. -/
theorem Tree.sum_node (t : Tree) (f : Nat → Rat) :
    ∑ x ∈ Finset.range t.size, f (t.positions.node x) = ∑ i ∈ Finset.range t.size, f i := by
  refine Finset.sum_nbij' t.positions.node t.position ?_ ?_ ?_ ?_ fun _ _ => rfl <;>
    simp only [Finset.mem_range] <;> intro x hx
  · exact Tree.node_lt hx
  · exact Tree.position_lt hx
  · exact Tree.position_node hx
  · exact Tree.node_position hx

namespace CostModel.All

/-- Where no edit has a negative cost, no forests have. -/
theorem nonneg (hcosts : costs.All (0 ≤ ·) t h) : (t.compare h costs).Nonneg := by
  intro l₁ l₂ a b hm hn
  rw [text_size_compare] at hm
  rw [hypothesis_size_compare] at hn
  exact hcosts.forestCost le_rfl (fun _ _ => add_nonneg) hm hn

/-- Where no edit has a negative cost, neither has deleting and inserting everything. -/
theorem total_nonneg (hcosts : costs.All (0 ≤ ·) t h) : 0 ≤ costs.total t h :=
  add_nonneg (Finset.sum_nonneg fun i hi => hcosts.delete i (Finset.mem_range.1 hi))
    (Finset.sum_nonneg fun j hj => hcosts.insert j (Finset.mem_range.1 hj))

/-- Deleting and inserting some nodes costs no more than deleting and inserting all. -/
theorem sums_le_total (hcosts : costs.All (0 ≤ ·) t h) (hm : l₁ + a ≤ t.size)
    (hn : l₂ + b ≤ h.size) :
    ∑ x ∈ Finset.Ico l₁ (l₁ + a), (t.compare h costs).deleteCost x +
      ∑ y ∈ Finset.Ico l₂ (l₂ + b), (t.compare h costs).insertCost y ≤ costs.total t h := by
  rw [CostModel.total, ← t.sum_node costs.delete, ← h.sum_node costs.insert]
  refine add_le_add ?_ ?_
  · refine Finset.sum_le_sum_of_subset_of_nonneg (fun x hx => ?_) fun x hx _ => ?_
    · have := Finset.mem_Ico.1 hx
      exact Finset.mem_range.2 (by omega)
    · exact hcosts.delete _ (Tree.node_lt (Finset.mem_range.1 hx))
  · refine Finset.sum_le_sum_of_subset_of_nonneg (fun y hy => ?_) fun y hy _ => ?_
    · have := Finset.mem_Ico.1 hy
      exact Finset.mem_range.2 (by omega)
    · exact hcosts.insert _ (Tree.node_lt (Finset.mem_range.1 hy))

/-- With costs that are not negative, an edit that is taken exceeds the cost of the forests by at
most the tolerance for costs of the size of the total. -/
theorem slack (hcosts : costs.All (0 ≤ ·) t h) (hfloor : 0 ≤ floor) :
    (t.compare h costs).Slack (Cost.nearFrom floor)
      (Cost.tolerance * (floor + costs.total t h)) := by
  have hsize₁ := text_size_compare t h costs
  have hsize₂ := hypothesis_size_compare t h costs
  have htotal := hcosts.total_nonneg
  have hnonneg := hcosts.nonneg
  refine ⟨Cost.nearFrom_self hfloor, mul_nonneg Cost.tolerance_pos.le (by linarith), ?_, ?_⟩
  · intro l₁ l₂ a b hx hy hnear
    have hbound := (Comparison.deleting_le_sums _ l₁ l₂ a b).trans
      (hcosts.sums_le_total (a := a + 1) (b := b + 1) (by omega) (by omega))
    exact Cost.le_of_nearFrom (hnonneg l₁ l₂ (a + 1) (b + 1) (by omega) (by omega))
      (Comparison.forestCost_le_delete _ l₁ l₂ a (b + 1)) hbound hnear
  · intro l₁ l₂ a b hx hy hnear
    have hbound := (Comparison.inserting_le_sums _ l₁ l₂ a b).trans
      (hcosts.sums_le_total (a := a + 1) (b := b + 1) (by omega) (by omega))
    exact Cost.le_of_nearFrom (hnonneg l₁ l₂ (a + 1) (b + 1) (by omega) (by omega))
      (Comparison.forestCost_le_insert _ l₁ l₂ (a + 1) b) hbound hnear

/-- With natural costs that the tolerance does not blur, an edit that is taken reaches the cost of
the forests. -/
theorem slack_natural (hcosts : costs.All IsNatural t h) (hfloor : 0 ≤ floor)
    (hblur : Cost.tolerance * (floor + costs.total t h) < 1) :
    (t.compare h costs).Slack (Cost.nearFrom floor) 0 := by
  have hsize₁ := text_size_compare t h costs
  have hsize₂ := hypothesis_size_compare t h costs
  have hslack := (hcosts.mono fun _ => IsNatural.nonneg).slack hfloor
  have hnatural : ∀ l₁ l₂ a b, l₁ + a ≤ t.size → l₂ + b ≤ h.size →
      IsNatural ((t.compare h costs).forestCost l₁ l₂ a b) := by
    intro l₁ l₂ a b hm hn
    exact hcosts.forestCost ⟨0, Nat.cast_zero.symm⟩ (fun _ _ => IsNatural.add) hm hn
  refine ⟨Cost.nearFrom_self hfloor, le_rfl, ?_, ?_⟩
  · intro l₁ l₂ a b hx hy hnear
    have hcost := hnatural l₁ l₂ (a + 1) (b + 1) (by omega) (by omega)
    have hdelete := hcosts.delete _ (Tree.node_lt (show l₁ + a < t.size by omega))
    have hdeleting := (hnatural l₁ l₂ a (b + 1) (by omega) (by omega)).add hdelete
    rw [add_zero]
    exact hdeleting.le_of_le_add hcost hblur (hslack.delete l₁ l₂ a b hx hy hnear)
  · intro l₁ l₂ a b hx hy hnear
    have hcost := hnatural l₁ l₂ (a + 1) (b + 1) (by omega) (by omega)
    have hinsert := hcosts.insert _ (Tree.node_lt (show l₂ + b < h.size by omega))
    have hinserting := (hnatural l₁ l₂ (a + 1) b (by omega) (by omega)).add hinsert
    rw [add_zero]
    exact hinserting.le_of_le_add hcost hblur (hslack.insert l₁ l₂ a b hx hy hnear)

end CostModel.All

/-- Under an allowance for each edit that covers what comes near, the script costs no more than the
distance. -/
theorem sum_script_le {ε : Rat} (hslack : (t.compare h costs).Slack (Cost.nearFrom 1) ε) :
    ((t.compare h costs).script.operations.map costs.price).sum ≤
      (t.compare h costs).distance + (t.compare h costs).script.size * ε := by
  have hsize₁ := text_size_compare t h costs
  have hsize₂ := hypothesis_size_compare t h costs
  have hwalk : (t.compare h costs).overrun ε
      ((t.compare h costs).walk (Cost.nearFrom 1) 0 0 t.size h.size) ≤
        (t.compare h costs).forestCost 0 0 t.size h.size :=
    Comparison.overrun_walk_le hslack (by omega) (by omega)
  rw [Comparison.overrun, sum_priceAt] at hwalk
  rw [distance_compare, EditScript.size, operations_script_compare, Cost.near_eq_nearFrom,
    Tree.atNodes, List.length_map]
  rw [Tree.atNodes] at hwalk
  linarith

/-- No script costs less than the distance. -/
theorem distance_le_sum_script (t h : Tree) (costs : CostModel Rat) :
    (t.compare h costs).distance ≤
      ((t.compare h costs).script.operations.map costs.price).sum := by
  rw [distance_compare, operations_script_compare, ← sum_priceAt]
  exact Comparison.forestCost_le_of_edits (edits_walk_compare t h costs _)

/-- With natural costs that the tolerance does not blur, the script costs the distance. -/
theorem sum_script_of_natural (hcosts : costs.All IsNatural t h)
    (hblur : Cost.tolerance * (1 + costs.total t h) < 1) :
    ((t.compare h costs).script.operations.map costs.price).sum =
      (t.compare h costs).distance := by
  have hle := sum_script_le (hcosts.slack_natural zero_le_one hblur)
  rw [mul_zero, add_zero] at hle
  exact le_antisymm hle (distance_le_sum_script t h costs)

/-- Unit costs are natural numbers. -/
theorem byForm_natural (t h : Tree) : (CostModel.byForm t h).All IsNatural t h where
  replace i _ j _ := by
    simp only [CostModel.byForm]
    split_ifs
    · exact ⟨0, Nat.cast_zero.symm⟩
    · exact ⟨1, Nat.cast_one.symm⟩
  insert _ _ := ⟨1, Nat.cast_one.symm⟩
  delete _ _ := ⟨1, Nat.cast_one.symm⟩

/-- At unit costs, deleting and inserting everything costs the number of nodes. -/
theorem total_byForm (t h : Tree) :
    (CostModel.byForm t h : CostModel Rat).total t h = t.size + h.size := by
  rw [CostModel.total]
  show ∑ _ ∈ Finset.range t.size, (1 : Rat) + ∑ _ ∈ Finset.range h.size, (1 : Rat) = _
  simp

/-- Under unit costs the script of two sentences of fewer than a billion words costs the
distance. -/
theorem sum_script_byForm (hsize : 1 + (t.size + h.size) < 1000000000) :
    let costs : CostModel Rat := .byForm t h
    ((t.compare h costs).script.operations.map costs.price).sum = (t.compare h costs).distance := by
  refine sum_script_of_natural (byForm_natural t h) ?_
  have hcast : (1 + (t.size + h.size : Nat) : Rat) < 1000000000 := by exact_mod_cast hsize
  rw [Nat.cast_add] at hcast
  rw [total_byForm, Cost.tolerance, one_div, inv_mul_lt_iff₀ (by norm_num), mul_one]
  exact hcast

/-- With costs that are not negative, the script costs no less than the distance, and no more than
the distance and one tolerance for each of its edits; with natural costs of which the total is too
small to blur a unit, it costs the distance. -/
theorem script_cost_within_tolerance (t h : Tree) (costs : CostModel Rat)
    (hcosts : costs.All (0 ≤ ·) t h) :
    let c := t.compare h costs
    let cost := (c.script.operations.map costs.price).sum
    let blur := Cost.tolerance * (1 + (∑ i ∈ Finset.range t.size, costs.delete i +
      ∑ j ∈ Finset.range h.size, costs.insert j))
    c.distance ≤ cost ∧ cost ≤ c.distance + c.script.size * blur ∧
      (costs.All IsNatural t h → blur < 1 → cost = c.distance) := by
  refine ⟨distance_le_sum_script t h costs, sum_script_le (hcosts.slack zero_le_one), ?_⟩
  intro hnatural hblur
  exact sum_script_of_natural hnatural hblur

namespace Tree

/-- The parse of `Tigers run`. -/
def tigersRun : Fragment :=
  [.make 0 "Tigers" "tiger" "NNS" (some 1) "nsubj", .make 1 "run" "run" "VBP" none "ROOT"]

/-- `Tigers run` is a tree of two nodes. -/
theorem exists_tigersRun : ∃ t, ofFragment tigersRun = .ok t ∧ t.size = 2 := ⟨_, rfl, rfl⟩

/-- The parse of `Cats run fast`. -/
def catsRunFast : Fragment :=
  [.make 0 "Cats" "cat" "NNS" (some 1) "nsubj", .make 1 "run" "run" "VBP" none "ROOT",
    .make 2 "fast" "fast" "RB" (some 1) "advmod"]

/-- `Cats run fast` is a tree of three nodes. -/
theorem exists_catsRunFast : ∃ t, ofFragment catsRunFast = .ok t ∧ t.size = 3 := ⟨_, rfl, rfl⟩

end Tree

/-- The bounds for two short sentences under unit costs. -/
theorem script_cost_within_tolerance_sentences :
    ∃ t h, Tree.ofFragment Tree.tigersRun = .ok t ∧ Tree.ofFragment Tree.catsRunFast = .ok h ∧
      let costs : CostModel Rat := .byForm t h
      let c := t.compare h costs
      let cost := (c.script.operations.map costs.price).sum
      costs.All (0 ≤ ·) t h ∧ c.distance ≤ cost ∧
        cost ≤ c.distance + c.script.size * (Cost.tolerance * 6) ∧ cost = c.distance := by
  obtain ⟨t, ht, hsize₁⟩ := Tree.exists_tigersRun
  obtain ⟨h, hh, hsize₂⟩ := Tree.exists_catsRunFast
  refine ⟨t, h, ht, hh, ?_⟩
  intro costs c cost
  have hnatural : costs.All IsNatural t h := byForm_natural t h
  have hnonneg := hnatural.mono fun _ => IsNatural.nonneg
  obtain ⟨hle, hge, heq⟩ := script_cost_within_tolerance t h costs hnonneg
  have hsums : 1 + (∑ i ∈ Finset.range t.size, costs.delete i +
      ∑ j ∈ Finset.range h.size, costs.insert j) = 6 := by
    have htotal := total_byForm t h
    rw [CostModel.total, hsize₁, hsize₂] at htotal
    rw [hsize₁, hsize₂, htotal]
    norm_num
  rw [hsums] at hge heq
  exact ⟨hnonneg, hle, hge, heq hnatural (by norm_num [Cost.tolerance])⟩

end Entailment
