import Entailment.Proofs.Edit.Choices
import Entailment.Proofs.Edit.Surplus

/-! # A tree against itself

Where it costs nothing to replace a node by itself, forests cost nothing against themselves. Off the
diagonal of the tables there is always a deletion or an insertion too many; as soon as the two
together are more than the tolerance, backtracking stays on the diagonal, also inside the subtrees
that it descends into.

* **`replaceEach`** — the script that replaces each position by itself;
* **`CostModel.All.forestCost_self`** — forests cost nothing against themselves;
* **`CostModel.All.lastEdit_self`** — on the diagonal no deletion and no insertion comes near;
* **`CostModel.All.operations_script_self`** — the script of a tree against itself. -/

namespace Entailment

/-- The script that replaces each of the `a` positions from `l` on by itself. -/
def replaceEach (l a : Nat) : List Operation := (List.range' l a).map fun x => .replace x x

/-- One position more is replaced last. -/
theorem replaceEach_succ (l a : Nat) :
    replaceEach l (a + 1) = replaceEach l a ++ [.replace (l + a) (l + a)] := by
  rw [replaceEach, replaceEach, List.range'_1_concat, List.map_append, List.map_singleton]

/-- What stands before a subtree and what is in it are replaced one after the other. -/
theorem replaceEach_append_subtree {o : PostOrder} {l a : Nat} (hl : l ≤ o.leftmost (l + a)) :
    replaceEach l (o.leftmost (l + a) - l) ++
      replaceEach (o.leftmost (l + a)) (o.width (l + a)) = replaceEach l (a + 1) := by
  rw [replaceEach, replaceEach, replaceEach, ← List.map_append, Edits.range'_append_subtree hl]

/-- A forest is turned into itself by replacing each node by itself. -/
theorem Edits.self {o : PostOrder} {l a : Nat} (closed : o.Closed l (l + a)) :
    Edits o o l l a a (replaceEach l a) := by
  induction a using Nat.strongRecOn generalizing l with
  | ind a ih =>
      cases a with
      | zero => exact .nil
      | succ a =>
          have hleft := closed.le_leftmost
          by_cases whole : o.leftmost (l + a) = l
          · rw [replaceEach_succ]
            exact (ih a (by omega) closed.init).replace whole whole
          · -- Both the forest before the subtree and the subtree are smaller than the forest.
            have hle := o.leftmost_le_self (l + a)
            have hwidth := o.leftmost_add_width (l + a)
            rw [← replaceEach_append_subtree hleft]
            exact .nested hleft hleft (fun h => whole h.1) (ih _ (by omega) closed.before)
              (ih _ (by omega) (o.closed_subtree _))

namespace CostModel

variable {t : Tree} {costs : CostModel Rat} {u v : Rat} {l a : Nat}

section

variable (hcosts : costs.All (0 ≤ ·) t t) (hself : ∀ i < t.size, costs.replace i i = 0)

include hcosts hself

/-- Where replacing a node by itself costs nothing and no edit is rewarded, forests cost nothing
against themselves. -/
theorem All.forestCost_self (hm : l + a ≤ t.size) (closed : t.positions.Closed l (l + a)) :
    (t.compare t costs).forestCost l l a a = 0 := by
  refine le_antisymm ?_ (hcosts.nonneg l l a a (by rwa [text_size_compare])
    (by rwa [hypothesis_size_compare]))
  refine (Comparison.forestCost_le_of_edits (Edits.self closed)).trans_eq
    (List.sum_eq_zero fun price hprice => ?_)
  obtain ⟨e, he, rfl⟩ := List.mem_map.1 hprice
  obtain ⟨x, hx, rfl⟩ := List.mem_map.1 he
  rw [List.mem_range'_1] at hx
  exact hself _ (Tree.node_lt (by omega))

variable (hu : 0 ≤ u) (hv : 0 ≤ v) (hdelete : ∀ i < t.size, u ≤ costs.delete i)
  (hinsert : ∀ i < t.size, v ≤ costs.insert i) (hfar : Cost.tolerance * (1 + (u + v)) < u + v)

include hu hv hdelete hinsert hfar

/-- On the diagonal neither a deletion nor an insertion comes near the cost of the forests, if the
two together are more than the tolerance. -/
theorem All.lastEdit_self (hm : l + (a + 1) ≤ t.size)
    (closed : t.positions.Closed l (l + (a + 1))) :
    (t.compare t costs).lastEdit (Cost.nearFrom 1) l l a a = .pair := by
  have hcost := hcosts.forestCost_self hself hm closed
  -- One node too many on either side costs its insertion or its deletion, on top of the other one.
  have hlonger := hcosts.insertions_le_forestCost hv (by omega) hm closed.init closed hinsert
  have hshorter := hcosts.deletions_le_forestCost hu hm (by omega) closed closed.init hdelete
  rw [Nat.cast_succ] at hlonger hshorter
  have hdeleting : u + v ≤ (t.compare t costs).deleting l l a a := by
    have hlast : u ≤ (t.compare t costs).deleteCost (l + a) := hdelete _ (Tree.node_lt (by omega))
    rw [Comparison.deleting, Cost.add_rat]
    linarith
  have hinserting : u + v ≤ (t.compare t costs).inserting l l a a := by
    have hlast : v ≤ (t.compare t costs).insertCost (l + a) := hinsert _ (Tree.node_lt (by omega))
    rw [Comparison.inserting, Cost.add_rat]
    linarith
  have hnear : ∀ x, u + v ≤ x → ¬Cost.nearFrom 1 x 0 := by
    intro x hx
    rw [Cost.nearFrom_iff_of_le le_rfl (by linarith), not_le, sub_zero]
    -- What is more than its tolerance stays so when it grows.
    have hgrow := mul_le_mul_of_nonneg_right Cost.tolerance_lt_one.le (sub_nonneg.2 hx)
    linarith
  rw [Comparison.lastEdit_eq_pair_iff, hcost]
  exact ⟨hnear _ hdeleting, hnear _ hinserting⟩

/-- The walk stays on the diagonal. -/
theorem All.walk_self (hm : l + a ≤ t.size) (closed : t.positions.Closed l (l + a)) :
    (t.compare t costs).walk (Cost.nearFrom 1) l l a a = replaceEach l a := by
  induction a using Nat.strongRecOn generalizing l with
  | ind a ih =>
      cases a with
      | zero =>
          rw [Comparison.walk_zero_zero]
          rfl
      | succ a =>
          have hlast :=
            hcosts.lastEdit_self hself hu hv hdelete hinsert hfar hm closed
          have hleft := closed.le_leftmost
          by_cases whole : t.positions.leftmost (l + a) = l
          · rw [Comparison.walk_of_whole hlast ⟨whole, whole⟩, replaceEach_succ,
              ih a (by omega) (by omega) closed.init]
          · have hle := t.positions.leftmost_le_self (l + a)
            have hwidth := t.positions.leftmost_add_width (l + a)
            have hbefore := ih (t.positions.leftmost (l + a) - l) (by omega) (by omega)
              closed.before
            have hinside := ih (t.positions.width (l + a)) (by omega) (by omega)
              (t.positions.closed_subtree (l + a))
            rw [Comparison.walk_of_apart hlast fun h => whole h.1,
              ← replaceEach_append_subtree hleft]
            exact congrArg₂ (· ++ ·) hbefore hinside

/-- The script of a tree against itself replaces each node by itself, in post-order. -/
theorem All.operations_script_self :
    (t.compare t costs).script.operations = t.postorder.map fun i => .replace i i := by
  rw [operations_script_compare, Cost.near_eq_nearFrom,
    hcosts.walk_self hself hu hv hdelete hinsert hfar (by omega) (t.positions.closed_zero _),
    Tree.atNodes, replaceEach, ← t.map_node_range, List.range_eq_range', List.map_map, List.map_map]
  rfl

end

end CostModel

end Entailment
