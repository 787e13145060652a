import Entailment.Proofs.Edit.LeastCost
import Entailment.Proofs.Edit.SubtreeTable
import Mathlib.Algebra.BigOperators.Group.Finset.Basic
import Mathlib.Data.Finset.Image
import Mathlib.Data.List.Perm.Basic
import Mathlib.Tactic.Ring

/-! # Mappings between trees

A mapping pairs nodes of two trees so that pairs keep which node is above which and which comes
first. Mappings and scripts correspond, and their costs agree.

* **`IsMapping`** — the valid mappings;
* **`mappingCost`** — what a mapping costs;
* **`Edits.isMapping`** — the pairs of a script are a mapping;
* **`IsMapping.exists_edits`** — every mapping is the pairs of a script;
* **`sum_price_eq_mappingCost`** — a script costs what its mapping costs;
* **`distance_isLeast`** — the distance is the least cost of a mapping. -/

namespace Entailment

/-- The node `i` comes before the node `j` in post-order. -/
def Tree.Before (t : Tree) (i j : Nat) : Prop := t.position i < t.position j

/-- The pairs `m` are a one-to-one correspondence between some nodes of the text tree and some nodes
of the hypothesis tree that keeps, in both directions, ancestors and the order from left to
right. -/
structure IsMapping (t h : Tree) (m : Finset (Nat × Nat)) : Prop where
  /-- The first nodes are nodes of the text tree. -/
  text_lt : ∀ p ∈ m, p.1 < t.size
  /-- The second nodes are nodes of the hypothesis tree. -/
  hypothesis_lt : ∀ p ∈ m, p.2 < h.size
  /-- No node is in two pairs. -/
  eq_iff : ∀ p ∈ m, ∀ q ∈ m, p.1 = q.1 ↔ p.2 = q.2
  /-- Ancestors are paired with ancestors. -/
  ancestor_iff : ∀ p ∈ m, ∀ q ∈ m, t.Ancestor p.1 q.1 ↔ h.Ancestor p.2 q.2
  /-- The order from left to right is kept. -/
  before_iff : ∀ p ∈ m, ∀ q ∈ m, t.Before p.1 q.1 ↔ h.Before p.2 q.2

/-- What a mapping costs: its pairs are replaced, the other text nodes deleted and the other
hypothesis nodes inserted. -/
def mappingCost (costs : CostModel Rat) (t h : Tree) (m : Finset (Nat × Nat)) : Rat :=
  ∑ p ∈ m, costs.replace p.1 p.2 +
    ∑ i ∈ Finset.range t.size \ m.image Prod.fst, costs.delete i +
    ∑ j ∈ Finset.range h.size \ m.image Prod.snd, costs.insert j

/-! ## Mappings between runs of positions -/

/-- The pairs `m` are a mapping between the `a` text positions from `l₁` on and the `b` hypothesis
positions from `l₂` on. -/
structure IsRunMapping (t h : PostOrder) (l₁ l₂ a b : Nat) (m : Finset (Nat × Nat)) : Prop where
  /-- The first positions are in the text run. -/
  text_mem : ∀ p ∈ m, l₁ ≤ p.1 ∧ p.1 < l₁ + a
  /-- The second positions are in the hypothesis run. -/
  hypothesis_mem : ∀ p ∈ m, l₂ ≤ p.2 ∧ p.2 < l₂ + b
  /-- The order is kept. -/
  lt_iff : ∀ p ∈ m, ∀ q ∈ m, p.1 < q.1 ↔ p.2 < q.2
  /-- What is above what is kept. -/
  above_iff : ∀ p ∈ m, ∀ q ∈ m, t.Above p.1 q.1 ↔ h.Above p.2 q.2

namespace IsRunMapping

variable {t h : PostOrder} {l₁ l₂ a b : Nat} {m : Finset (Nat × Nat)}

/-- Fewer pairs are a mapping between all runs that they fit in. -/
theorem subset {k₁ k₂ a' b' : Nat} {m' : Finset (Nat × Nat)} (hm : IsRunMapping t h l₁ l₂ a b m)
    (hsub : m' ⊆ m) (ht : ∀ p ∈ m', k₁ ≤ p.1 ∧ p.1 < k₁ + a')
    (hh : ∀ p ∈ m', k₂ ≤ p.2 ∧ p.2 < k₂ + b') : IsRunMapping t h k₁ k₂ a' b' m' where
  text_mem := ht
  hypothesis_mem := hh
  lt_iff p hp q hq := hm.lt_iff p (hsub hp) q (hsub hq)
  above_iff p hp q hq := hm.above_iff p (hsub hp) q (hsub hq)

/-- A last text position without a partner can be left out. -/
theorem of_ne_text (hm : IsRunMapping t h l₁ l₂ (a + 1) b m) (hne : ∀ p ∈ m, p.1 ≠ l₁ + a) :
    IsRunMapping t h l₁ l₂ a b m :=
  hm.subset (fun _ hp => hp)
    (fun p hp => by have := hm.text_mem p hp; have := hne p hp; omega) hm.hypothesis_mem

/-- A last hypothesis position without a partner can be left out. -/
theorem of_ne_hypothesis (hm : IsRunMapping t h l₁ l₂ a (b + 1) m)
    (hne : ∀ p ∈ m, p.2 ≠ l₂ + b) : IsRunMapping t h l₁ l₂ a b m :=
  hm.subset (fun _ hp => hp) hm.text_mem
    (fun p hp => by have := hm.hypothesis_mem p hp; have := hne p hp; omega)

/-- If both last positions have partners, they are partners. -/
theorem last_mem (hm : IsRunMapping t h l₁ l₂ (a + 1) (b + 1) m) {p q : Nat × Nat} (hp : p ∈ m)
    (hq : q ∈ m) (hp₁ : p.1 = l₁ + a) (hq₂ : q.2 = l₂ + b) : (l₁ + a, l₂ + b) ∈ m := by
  have hlt := (hm.lt_iff p hp q hq).not
  have hq₁ := hm.text_mem q hq
  have hp₂ := hm.hypothesis_mem p hp
  have heq : p.2 = l₂ + b := by omega
  rwa [← hp₁, ← heq]

/-- Every other pair is to the left of the last one on both sides. -/
theorem lt_last (hm : IsRunMapping t h l₁ l₂ (a + 1) (b + 1) m) (hlast : (l₁ + a, l₂ + b) ∈ m)
    {p : Nat × Nat} (hp : p ∈ m) (hne : p ≠ (l₁ + a, l₂ + b)) :
    p.1 < l₁ + a ∧ p.2 < l₂ + b := by
  have hlt := hm.lt_iff p hp _ hlast
  have hp₁ := hm.text_mem p hp
  have hp₂ := hm.hypothesis_mem p hp
  have hor : p.1 ≠ l₁ + a ∨ p.2 ≠ l₂ + b := by
    by_contra hand
    rw [not_or, not_not, not_not] at hand
    exact hne (Prod.ext hand.1 hand.2)
  simp only at hlt
  omega

/-- The last pair splits the others into those inside its two subtrees and those to the left of
both. -/
theorem lt_leftmost_iff (hm : IsRunMapping t h l₁ l₂ (a + 1) (b + 1) m)
    (hlast : (l₁ + a, l₂ + b) ∈ m) {p : Nat × Nat} (hp : p ∈ m) :
    p.1 < t.leftmost (l₁ + a) ↔ p.2 < h.leftmost (l₂ + b) := by
  by_cases heq : p = (l₁ + a, l₂ + b)
  · subst heq
    have h₁ := t.leftmost_le_self (l₁ + a)
    have h₂ := h.leftmost_le_self (l₂ + b)
    exact iff_of_false (by simp only; omega) (by simp only; omega)
  · obtain ⟨h₁, h₂⟩ := hm.lt_last hlast hp heq
    have habove := hm.above_iff _ hlast p hp
    simp only [PostOrder.Above, h₁, h₂, and_true] at habove
    rw [← not_le, habove, not_le]

/-- What is left of a mapping without its last pair. -/
theorem erase_last (hm : IsRunMapping t h l₁ l₂ (a + 1) (b + 1) m)
    (hlast : (l₁ + a, l₂ + b) ∈ m) : IsRunMapping t h l₁ l₂ a b (m.erase (l₁ + a, l₂ + b)) := by
  refine hm.subset (Finset.erase_subset _ _) (fun p hp => ?_) (fun p hp => ?_) <;>
    obtain ⟨hne, hpm⟩ := Finset.mem_erase.1 hp
  · exact ⟨(hm.text_mem p hpm).1, (hm.lt_last hlast hpm hne).1⟩
  · exact ⟨(hm.hypothesis_mem p hpm).1, (hm.lt_last hlast hpm hne).2⟩

/-- The pairs to the left of the last subtrees. -/
theorem before_last (hm : IsRunMapping t h l₁ l₂ (a + 1) (b + 1) m)
    (hlast : (l₁ + a, l₂ + b) ∈ m) :
    IsRunMapping t h l₁ l₂ (t.leftmost (l₁ + a) - l₁) (h.leftmost (l₂ + b) - l₂)
      (m.filter fun p => p.1 < t.leftmost (l₁ + a)) := by
  refine hm.subset (Finset.filter_subset _ _) (fun p hp => ?_) (fun p hp => ?_) <;>
    obtain ⟨hpm, hpk⟩ := Finset.mem_filter.1 hp
  · have := hm.text_mem p hpm
    omega
  · have := hm.hypothesis_mem p hpm
    have := (hm.lt_leftmost_iff hlast hpm).1 hpk
    omega

/-- The pairs inside the last subtrees. -/
theorem inside_last (hm : IsRunMapping t h l₁ l₂ (a + 1) (b + 1) m)
    (hlast : (l₁ + a, l₂ + b) ∈ m) :
    IsRunMapping t h (t.leftmost (l₁ + a)) (h.leftmost (l₂ + b)) (t.width (l₁ + a))
      (h.width (l₂ + b)) (m.filter fun p => ¬p.1 < t.leftmost (l₁ + a)) := by
  have hwx := t.leftmost_add_width (l₁ + a)
  have hwy := h.leftmost_add_width (l₂ + b)
  refine hm.subset (Finset.filter_subset _ _) (fun p hp => ?_) (fun p hp => ?_) <;>
    obtain ⟨hpm, hpk⟩ := Finset.mem_filter.1 hp
  · have := hm.text_mem p hpm
    omega
  · have := hm.hypothesis_mem p hpm
    have := (hm.lt_leftmost_iff hlast hpm).not.1 hpk
    omega

/-- Every mapping between closed runs is the pairs of a script. -/
theorem exists_edits (closed₁ : t.Closed l₁ (l₁ + a)) (closed₂ : h.Closed l₂ (l₂ + b))
    (hm : IsRunMapping t h l₁ l₂ a b m) :
    ∃ s, Edits t h l₁ l₂ a b s ∧ (s.filterMap Operation.pair?).toFinset = m := by
  induction l₁, l₂, a, b using PostOrder.runs_induction t h generalizing m with
  | nil l₁ l₂ =>
      refine ⟨[], .nil, Eq.symm (Finset.eq_empty_of_forall_notMem fun p hp => ?_)⟩
      have := hm.text_mem p hp
      omega
  | text l₁ l₂ a ih =>
      have hne : ∀ p ∈ m, p.1 ≠ l₁ + a := fun p hp => by
        have := hm.hypothesis_mem p hp
        omega
      obtain ⟨s, hs, hpairs⟩ := ih (closed₁.mono (by omega)) closed₂ (hm.of_ne_text hne)
      exact ⟨_, hs.delete, by rwa [Operation.filterMap_pair?_concat_delete]⟩
  | hypothesis l₁ l₂ b ih =>
      have hne : ∀ p ∈ m, p.2 ≠ l₂ + b := fun p hp => by
        have := hm.text_mem p hp
        omega
      obtain ⟨s, hs, hpairs⟩ := ih closed₁ (closed₂.mono (by omega)) (hm.of_ne_hypothesis hne)
      exact ⟨_, hs.insert, by rwa [Operation.filterMap_pair?_concat_insert]⟩
  | both l₁ l₂ a b ihDelete ihInsert ihReplace ihBefore ihInside =>
      by_cases hx : ∀ p ∈ m, p.1 ≠ l₁ + a
      · obtain ⟨s, hs, hpairs⟩ := ihDelete (closed₁.mono (by omega)) closed₂ (hm.of_ne_text hx)
        exact ⟨_, hs.delete, by rwa [Operation.filterMap_pair?_concat_delete]⟩
      by_cases hy : ∀ p ∈ m, p.2 ≠ l₂ + b
      · obtain ⟨s, hs, hpairs⟩ :=
          ihInsert closed₁ (closed₂.mono (by omega)) (hm.of_ne_hypothesis hy)
        exact ⟨_, hs.insert, by rwa [Operation.filterMap_pair?_concat_insert]⟩
      -- Both last positions have partners: the last pair is one of the mapping.
      push Not at hx hy
      obtain ⟨p, hp, hpx⟩ := hx
      obtain ⟨q, hq, hqy⟩ := hy
      have hlast := hm.last_mem hp hq hpx hqy
      by_cases whole : t.leftmost (l₁ + a) = l₁ ∧ h.leftmost (l₂ + b) = l₂
      · obtain ⟨s, hs, hpairs⟩ :=
          ihReplace (closed₁.mono (by omega)) (closed₂.mono (by omega)) (hm.erase_last hlast)
        refine ⟨_, hs.replace whole.1 whole.2, ?_⟩
        rw [Operation.filterMap_pair?_concat_replace, List.toFinset_append, hpairs,
          List.toFinset_cons, List.toFinset_nil, Finset.union_comm, Finset.insert_union,
          Finset.empty_union, Finset.insert_erase hlast]
      · obtain ⟨s, hs, hpairs⟩ := ihBefore closed₁.before closed₂.before (hm.before_last hlast)
        obtain ⟨u, hu, hpairs'⟩ :=
          ihInside whole (t.closed_subtree _) (h.closed_subtree _) (hm.inside_last hlast)
        refine ⟨_, .nested closed₁.le_leftmost closed₂.le_leftmost whole hs hu, ?_⟩
        rw [List.filterMap_append, List.toFinset_append, hpairs, hpairs',
          Finset.filter_union_filter_not_eq]

end IsRunMapping

/-! ## Mappings and scripts -/

variable {t h : Tree} {s : List Operation}

/-- The same edits of the nodes at the given positions. -/
def Tree.atNodes (t h : Tree) (s : List Operation) : List Operation :=
  s.map (Operation.relabel t.positions.node h.positions.node)

/-- The edits of the nodes tell the edits of their positions. -/
theorem Edits.map_position_atNodes (hs : Edits t.positions h.positions 0 0 t.size h.size s) :
    (t.atNodes h s).map (Operation.relabel t.position h.position) = s := by
  rw [Tree.atNodes, List.map_map]
  refine (List.map_congr_left fun e he => ?_).trans (List.map_id s)
  have htext : ∀ x, e.textNode? = some x → t.position (t.positions.node x) = x := fun x hx =>
    Tree.position_node (by have := hs.textNode_mem he hx; omega)
  have hhyp : ∀ y, e.hypothesisNode? = some y → h.position (h.positions.node y) = y := fun y hy =>
    Tree.position_node (by have := hs.hypothesisNode_mem he hy; omega)
  cases e with
  | replace x y => exact congrArg₂ Operation.replace (htext x rfl) (hhyp y rfl)
  | insert y => exact congrArg Operation.insert (hhyp y rfl)
  | delete x => exact congrArg Operation.delete (htext x rfl)

/-- The pairs of a script are a mapping. -/
theorem Edits.isMapping (hs : Edits t.positions h.positions 0 0 t.size h.size s) :
    IsMapping t h ((t.atNodes h s).filterMap Operation.pair?).toFinset := by
  have hpair : ∀ p ∈ ((t.atNodes h s).filterMap Operation.pair?).toFinset,
      ∃ q ∈ s.filterMap Operation.pair?, q.1 < t.size ∧ q.2 < h.size ∧
        (t.positions.node q.1, h.positions.node q.2) = p := by
    intro p hp
    rw [List.mem_toFinset, Tree.atNodes, Operation.filterMap_pair?_relabel, List.mem_map] at hp
    obtain ⟨q, hq, rfl⟩ := hp
    have := hs.mem_pairs hq
    exact ⟨q, hq, by omega, by omega, rfl⟩
  constructor
  · intro p hp
    obtain ⟨p', -, h₁, -, rfl⟩ := hpair p hp
    exact Tree.node_lt h₁
  · intro p hp
    obtain ⟨p', -, -, h₂, rfl⟩ := hpair p hp
    exact Tree.node_lt h₂
  · intro p hp q hq
    obtain ⟨p', hp', hp₁, hp₂, rfl⟩ := hpair p hp
    obtain ⟨q', hq', hq₁, hq₂, rfl⟩ := hpair q hq
    simp only [Tree.node_eq_iff hp₁ hq₁, Tree.node_eq_iff hp₂ hq₂]
    rcases hs.pairs_ordered hp' hq' with rfl | hlt | hlt <;> omega
  · intro p hp q hq
    obtain ⟨p', hp', hp₁, hp₂, rfl⟩ := hpair p hp
    obtain ⟨q', hq', hq₁, hq₂, rfl⟩ := hpair q hq
    rw [← Tree.above_positions hp₁ hq₁, ← Tree.above_positions hp₂ hq₂]
    exact hs.above _ hp' _ hq'
  · intro p hp q hq
    obtain ⟨p', hp', hp₁, hp₂, rfl⟩ := hpair p hp
    obtain ⟨q', hq', hq₁, hq₂, rfl⟩ := hpair q hq
    simp only [Tree.Before, Tree.position_node hp₁, Tree.position_node hq₁,
      Tree.position_node hp₂, Tree.position_node hq₂]
    rcases hs.pairs_ordered hp' hq' with rfl | hlt | hlt <;> omega

/-- The positions of a mapping are a mapping between the runs of all positions. -/
theorem IsMapping.atPositions {m : Finset (Nat × Nat)} (hm : IsMapping t h m) :
    IsRunMapping t.positions h.positions 0 0 t.size h.size
      (m.image (Prod.map t.position h.position)) := by
  constructor
  · intro p hp
    obtain ⟨p', hp', rfl⟩ := Finset.mem_image.1 hp
    have := Tree.position_lt (hm.text_lt p' hp')
    simp only [Prod.map_fst]
    omega
  · intro p hp
    obtain ⟨p', hp', rfl⟩ := Finset.mem_image.1 hp
    have := Tree.position_lt (hm.hypothesis_lt p' hp')
    simp only [Prod.map_snd]
    omega
  · intro p hp q hq
    obtain ⟨p', hp', rfl⟩ := Finset.mem_image.1 hp
    obtain ⟨q', hq', rfl⟩ := Finset.mem_image.1 hq
    exact hm.before_iff p' hp' q' hq'
  · intro p hp q hq
    obtain ⟨p', hp', rfl⟩ := Finset.mem_image.1 hp
    obtain ⟨q', hq', rfl⟩ := Finset.mem_image.1 hq
    have hp₁ := hm.text_lt p' hp'
    have hp₂ := hm.hypothesis_lt p' hp'
    have hq₁ := hm.text_lt q' hq'
    have hq₂ := hm.hypothesis_lt q' hq'
    simp only [Prod.map_fst, Prod.map_snd]
    rw [Tree.above_positions (Tree.position_lt hp₁) (Tree.position_lt hq₁),
      Tree.above_positions (Tree.position_lt hp₂) (Tree.position_lt hq₂), Tree.node_position hp₁,
      Tree.node_position hq₁, Tree.node_position hp₂, Tree.node_position hq₂]
    exact hm.ancestor_iff p' hp' q' hq'

/-- Every mapping is the pairs of a script. -/
theorem IsMapping.exists_edits {m : Finset (Nat × Nat)} (hm : IsMapping t h m) :
    ∃ s, Edits t.positions h.positions 0 0 t.size h.size s ∧
      ((t.atNodes h s).filterMap Operation.pair?).toFinset = m := by
  obtain ⟨s, hs, hpairs⟩ :=
    hm.atPositions.exists_edits (t.positions.closed_zero _) (h.positions.closed_zero _)
  refine ⟨s, hs, ?_⟩
  rw [Tree.atNodes, Operation.filterMap_pair?_relabel]
  ext p
  rw [List.mem_toFinset, List.mem_map]
  simp only [← List.mem_toFinset (l := s.filterMap Operation.pair?), hpairs, Finset.mem_image]
  have hback : ∀ p ∈ m, Prod.map t.positions.node h.positions.node
      (Prod.map t.position h.position p) = p := fun p hp =>
    Prod.ext (Tree.node_position (hm.text_lt p hp)) (Tree.node_position (hm.hypothesis_lt p hp))
  constructor
  · rintro ⟨-, ⟨p, hp, rfl⟩, rfl⟩
    rwa [hback p hp]
  · intro hp
    exact ⟨_, ⟨p, hp, rfl⟩, hback p hp⟩

/-! ## Costs -/

/-- A node of a side is edited alone or in a pair. -/
theorem perm_nodes (side : Side) (s : List Operation) :
    (s.filterMap (Operation.node? side)).Perm
      (s.filterMap (Operation.lone? side) ++ (s.filterMap Operation.pair?).map side.of) := by
  induction s with
  | nil => rfl
  | cons e s ih =>
      cases hp : e.pair? with
      | some p =>
          obtain ⟨hnode, hlone⟩ := Operation.nodes_of_pair? hp side
          rw [List.filterMap_cons_some hnode, List.filterMap_cons_none hlone,
            List.filterMap_cons_some hp]
          exact (ih.cons _).trans List.perm_middle.symm
      | none =>
          have hnode := Operation.node?_of_pair?_eq_none hp side
          rw [List.filterMap_cons_none hp]
          cases hlone : e.lone? side with
          | none =>
              rw [List.filterMap_cons_none hlone, List.filterMap_cons_none (hnode.trans hlone)]
              exact ih
          | some i =>
              rw [List.filterMap_cons_some hlone, List.filterMap_cons_some (hnode.trans hlone)]
              exact ih.cons i

/-- A script costs what its pairs, its insertions and its deletions cost. -/
theorem sum_price (costs : CostModel Rat) (s : List Operation) :
    (s.map costs.price).sum =
      ((s.filterMap Operation.pair?).map fun p => costs.replace p.1 p.2).sum +
        ((s.filterMap Operation.deleted?).map costs.delete).sum +
        ((s.filterMap Operation.inserted?).map costs.insert).sum := by
  induction s with
  | nil => simp
  | cons e s ih =>
      rw [List.map_cons, List.sum_cons, ih]
      cases e <;>
        simp only [CostModel.price, List.filterMap_cons, Operation.pair?, Operation.deleted?,
          Operation.inserted?, List.map_cons, List.sum_cons] <;>
        ring

/-- Where a list holds the numbers below `n`, each once, and falls into two parts, the first part
holds what the second does not. -/
theorem sum_eq_sum_sdiff {nodes left right : List Nat} {n : Nat}
    (hperm : nodes.Perm (left ++ right)) (hrange : nodes.Perm (List.range n)) (f : Nat → Rat) :
    (left.map f).sum = ∑ i ∈ Finset.range n \ right.toFinset, f i := by
  have hnodup : (left ++ right).Nodup := (hperm.symm.trans hrange).nodup_iff.2 List.nodup_range
  obtain ⟨hleft, -, hapart⟩ := List.nodup_append.1 hnodup
  rw [← List.sum_toFinset f hleft]
  refine Finset.sum_congr (Finset.ext fun i => ?_) fun _ _ => rfl
  have hmem : i < n ↔ i ∈ left ∨ i ∈ right := by
    rw [← List.mem_range, ← List.mem_append, (hrange.symm.trans hperm).mem_iff]
  rw [Finset.mem_sdiff, Finset.mem_range, List.mem_toFinset, List.mem_toFinset, hmem]
  constructor
  · intro hi
    exact ⟨.inl hi, fun hr => hapart i hi i hr rfl⟩
  · rintro ⟨hi | hi, hr⟩
    · exact hi
    · exact absurd hi hr

/-- A script that edits every node once costs what its mapping costs. -/
theorem sum_price_eq_mappingCost (costs : CostModel Rat)
    (ht : (s.filterMap Operation.textNode?).Perm (List.range t.size))
    (hh : (s.filterMap Operation.hypothesisNode?).Perm (List.range h.size)) :
    (s.map costs.price).sum = mappingCost costs t h (s.filterMap Operation.pair?).toFinset := by
  have htext : (s.filterMap Operation.textNode?).Perm
      (s.filterMap Operation.deleted? ++ (s.filterMap Operation.pair?).map Prod.fst) :=
    perm_nodes .text s
  have hhyp : (s.filterMap Operation.hypothesisNode?).Perm
      (s.filterMap Operation.inserted? ++ (s.filterMap Operation.pair?).map Prod.snd) :=
    perm_nodes .hypothesis s
  have hnodup : ((s.filterMap Operation.pair?).map Prod.fst).Nodup :=
    (List.nodup_append.1 ((htext.symm.trans ht).nodup_iff.2 List.nodup_range)).2.1
  rw [sum_price, mappingCost, sum_eq_sum_sdiff htext ht, sum_eq_sum_sdiff hhyp hh,
    List.sum_toFinset _ hnodup.of_map]
  congr 3 <;> ext <;> simp

/-- A script of positions edits the nodes of either tree in post-order. -/
theorem Edits.nodes_atNodes (hs : Edits t.positions h.positions 0 0 t.size h.size s) (side : Side) :
    (t.atNodes h s).filterMap (Operation.node? side) = (side.of (t, h)).postorder := by
  rw [Tree.atNodes, Operation.filterMap_node?_relabel, hs.nodes]
  cases side <;> exact List.range_eq_range' ▸ Tree.map_node_range _

/-- What a script of positions costs is what the edits of the nodes cost. -/
theorem sum_priceAt (costs : CostModel Rat) (s : List Operation) :
    (s.map (t.compare h costs).priceAt).sum = ((t.atNodes h s).map costs.price).sum := by
  rw [Tree.atNodes, List.map_map]
  exact congrArg List.sum
    (List.map_congr_left fun e _ => ((t.compare h costs).price_relabel e).symm)

/-- A script of positions costs what its mapping costs. -/
theorem Edits.sum_priceAt_eq_mappingCost (costs : CostModel Rat)
    (hs : Edits t.positions h.positions 0 0 t.size h.size s) :
    (s.map (t.compare h costs).priceAt).sum =
      mappingCost costs t h ((t.atNodes h s).filterMap Operation.pair?).toFinset := by
  have hnodes (side : Side) : ((t.atNodes h s).filterMap (Operation.node? side)).Perm
      (List.range (side.of (t, h)).size) := by
    rw [hs.nodes_atNodes]
    exact (side.of (t, h)).postorder_perm_range
  rw [sum_priceAt]
  exact sum_price_eq_mappingCost costs (hnodes .text) (hnodes .hypothesis)

/-! ## The distance -/

/-- The comparison of two trees has the positions of the text tree. -/
theorem text_size_compare {α : Type} (t h : Tree) (costs : CostModel α) :
    (t.compare h costs).t.size = t.size :=
  t.size_positions

/-- The comparison of two trees has the positions of the hypothesis tree. -/
theorem hypothesis_size_compare {α : Type} (t h : Tree) (costs : CostModel α) :
    (t.compare h costs).h.size = h.size :=
  h.size_positions

/-- The distance of two trees is the cost of turning all of one into all of the other. -/
theorem distance_compare {α : Type} [Cost α] (t h : Tree) (costs : CostModel α) :
    (t.compare h costs).distance = (t.compare h costs).forestCost 0 0 t.size h.size := by
  rw [Comparison.distance_eq, text_size_compare, hypothesis_size_compare]

/-- The distance in exact arithmetic is the least cost of a mapping: no mapping is cheaper, and some
mapping is that cheap. -/
theorem distance_isLeast (t h : Tree) (costs : CostModel Rat) :
    IsLeast {cost | ∃ m, IsMapping t h m ∧ mappingCost costs t h m = cost}
      (t.compare h costs).distance := by
  rw [distance_compare]
  constructor
  · obtain ⟨s, hs, hcost⟩ := (t.compare h costs).exists_edits_cost_eq 0 0 t.size h.size
      (t.positions.closed_zero _) (h.positions.closed_zero _)
    exact ⟨_, hs.isMapping, (hs.sum_priceAt_eq_mappingCost costs).symm.trans hcost⟩
  · rintro _ ⟨m, hm, rfl⟩
    obtain ⟨s, hs, rfl⟩ := hm.exists_edits
    rw [← hs.sum_priceAt_eq_mappingCost costs]
    exact Comparison.forestCost_le_of_edits hs

end Entailment
