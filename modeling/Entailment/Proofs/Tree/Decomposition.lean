import Entailment.Proofs.Tree.Numbering
import Entailment.Proofs.Tree.Traversal
import Mathlib.Order.Bounds.Defs

/-! # The post-order decomposition

In post-order, what is below a node comes before it and stands together, and what comes first in the
sentence comes first among the roots and among the children of a node. So the numbers of a subtree
are those from its leftmost leaf up to its root.

* **`Tree.PostOrdered`** — an order of the nodes is a post-order;
* **`Tree.position_lt_of_siblings`** — subtrees of siblings stand apart, in the order of the
  sentence;
* **`Guarded.Numbering.Decomposes`** — leftmost leaves tell subtrees, and keyroots the last of each
  leftmost leaf;
* **`postorder_decomposition`** — the loops list the nodes in post-order and decompose the tree. -/

namespace Entailment

namespace Parents

variable {ps : Parents} {n x y d : Nat}

/-- The nodes with the given parent, or the roots where none is given, in order. -/
def generation (ps : Parents) : Option Nat → List Nat
  | none => ps.roots
  | some head => ps.children head

/-- The nodes with one parent are listed in order. -/
theorem pairwise_generation (ps : Parents) (parent : Option Nat) :
    (ps.generation parent).Pairwise (· < ·) := by
  cases parent <;> exact pairwise_filter_zipIdx _

/-- A node is among those with its parent. -/
theorem mem_generation (hx : x < ps.length) : x ∈ ps.generation (ps.governor x) := by
  cases hg : ps.governor x with
  | none => exact mem_roots.2 ⟨hx, hg⟩
  | some head => exact mem_children.2 hg

/-- Nodes with the same parent, and roots, stand equally deep. -/
theorem AtDepth.of_governor_eq (hd : ps.AtDepth d x) (h : ps.governor x = ps.governor y) :
    ps.AtDepth d y := by
  cases d with
  | zero => exact atDepth_zero.2 (h ▸ atDepth_zero.1 hd)
  | succ d => exact atDepth_succ.2 (h ▸ atDepth_succ.1 hd)

end Parents

namespace Forest

variable {ps : Parents} {f : Forest} {n : Nat}

/-- The roots of a forest are listed in order. -/
theorem roots_sublist_postorder (f : Forest) : f.roots.Sublist f.postorder := by
  induction f with
  | nil => exact List.Sublist.refl _
  | node root below right _ ihr => exact (ihr.cons_cons root).trans (List.sublist_append_right _ _)

/-- The children of a node of a forest are listed in order. -/
theorem Follows.children_sublist (hf : f.Follows ps) (hn : n ∈ f.postorder) :
    (ps.children n).Sublist f.postorder := by
  induction f with
  | nil => cases hn
  | node root below right ihb ihr =>
      obtain ⟨hroots, hbelow, hright⟩ := hf
      have inBelow : ∀ {xs : List Nat}, xs.Sublist below.postorder →
          xs.Sublist (node root below right).postorder :=
        fun h => h.trans (List.sublist_append_left _ _)
      rcases List.mem_append.1 hn with hn | hn
      · exact inBelow (ihb hbelow hn)
      · rcases List.mem_cons.1 hn with rfl | hn
        · exact inBelow (hroots ▸ roots_sublist_postorder below)
        · exact ((ihr hright hn).trans (List.sublist_cons_self _ _)).trans
            (List.sublist_append_right _ _)

end Forest

namespace Tree

variable {t : Tree} {x y a b : Nat}

/-- The node `b` is `a` or lies below it. -/
def InSubtree (t : Tree) (a b : Nat) : Prop := b = a ∨ t.Ancestor a b

/-- The nodes of a tree are listed in post-order. -/
structure PostOrdered (t : Tree) (order : List Nat) : Prop where
  /-- Every node is listed once. -/
  perm : order.Perm (List.range t.size)
  /-- Of two roots, and of two children of one node, the subtree of that which comes first in the
  sentence is listed first. -/
  siblings : ∀ x y, x < y → y < t.size → t.parent x = t.parent y →
    ∀ a b, t.InSubtree x a → t.InSubtree y b → order.idxOf a < order.idxOf b
  /-- A node is listed after all its descendants. -/
  descendants : ∀ a b, t.Ancestor a b → order.idxOf b < order.idxOf a

/-! ## The order of the nodes -/

/-- What has an ancestor is a node, and so is the ancestor. -/
theorem Ancestor.lt (h : t.Ancestor a b) : a < t.size ∧ b < t.size := by
  obtain ⟨k, hk, hu⟩ := ancestor_iff_up.1 h
  have hb := Parents.lt_length_of_up hu hk
  exact ⟨up_lt hu hb, hb⟩

/-- Ancestors by positions. -/
theorem Ancestor.above (h : t.Ancestor a b) :
    t.positions.Above (t.position a) (t.position b) := by
  obtain ⟨ha, hb⟩ := h.lt
  rw [above_positions (position_lt ha) (position_lt hb), node_position ha, node_position hb]
  exact h

/-- Along the post-order the positions increase. -/
theorem pairwise_position (t : Tree) :
    t.postorder.Pairwise fun a b => t.position a < t.position b := by
  rw [List.pairwise_iff_getElem]
  intro i j hi hj hij
  rwa [position, position, t.nodup_postorder.idxOf_getElem, t.nodup_postorder.idxOf_getElem]

/-- The roots, and the children of a node, are listed in order. -/
theorem generation_sublist (t : Tree) (x : Nat) :
    (t.parents.generation (t.parent x)).Sublist t.postorder := by
  cases hp : t.parent x with
  | none =>
      rw [Parents.generation, ← Tree.roots, ← roots_forest]
      exact t.forest.roots_sublist_postorder
  | some head =>
      exact t.follows_forest.children_sublist (mem_postorder.2 (t.governor_lt x head hp))

section

variable (hxy : x < y) (hy : y < t.size) (hparent : t.parent x = t.parent y)

include hxy hy hparent

/-- Of two roots, and of two children of one node, the first in the sentence has the first
position. -/
theorem position_lt_of_parent_eq : t.position x < t.position y := by
  have hx : x < t.size := hxy.trans hy
  have hboth := (t.parents.pairwise_generation (t.parent x)).and
    (t.pairwise_position.sublist (t.generation_sublist x))
  let alike := fun a b => a < b → t.position a < t.position b
  have hforth : (t.parents.generation (t.parent x)).Pairwise alike := hboth.imp fun h _ => h.2
  have hback : (t.parents.generation (t.parent x)).Pairwise (flip alike) :=
    hboth.imp fun h hlt => absurd h.1 (Nat.lt_asymm hlt)
  have hall := List.Pairwise.forall_of_forall_of_flip
    (fun a _ hlt => absurd hlt (Nat.lt_irrefl a)) hforth hback
  exact hall (Parents.mem_generation hx) (hparent ▸ Parents.mem_generation hy) hxy

/-- Siblings and roots are not below each other. -/
theorem not_ancestor_of_parent_eq : ¬t.Ancestor y x := by
  intro h
  obtain ⟨k, hk, hu⟩ := ancestor_iff_up.1 h
  obtain ⟨d, -, hd⟩ := t.exists_atDepth (hxy.trans hy)
  obtain ⟨e, rfl, he⟩ := hd.above hu
  have := he.unique (hd.of_governor_eq hparent)
  omega

/-- The subtrees of siblings and of roots stand apart, in the order of the sentence. -/
theorem position_lt_of_siblings (ha : t.InSubtree x a) (hb : t.InSubtree y b) :
    t.position a < t.position b := by
  have hx : x < t.size := hxy.trans hy
  have hlt := position_lt_of_parent_eq hxy hy hparent
  -- As `x` is not below `y`, it stands before the leftmost leaf of `y`.
  have happart : ¬t.positions.Above (t.position y) (t.position x) := by
    rw [above_positions (position_lt hy) (position_lt hx), node_position hy, node_position hx]
    exact not_ancestor_of_parent_eq hxy hy hparent
  have hbefore : t.position x < t.positions.leftmost (t.position y) := by
    rw [PostOrder.Above] at happart
    omega
  have hax : t.position a ≤ t.position x := by
    rcases ha with rfl | ha
    · exact le_rfl
    · exact ha.above.2.le
  have hby : t.positions.leftmost (t.position y) ≤ t.position b := by
    rcases hb with rfl | hb
    · exact t.positions.leftmost_le_self _
    · exact hb.above.1
  omega

end

/-- The post-order of a tree is one. -/
theorem postOrdered (t : Tree) : t.PostOrdered t.postorder where
  perm := t.postorder_perm_range
  siblings _ _ hxy hy hparent _ _ := position_lt_of_siblings hxy hy hparent
  descendants _ _ h := h.above.2

end Tree

namespace Guarded.Numbering

variable {t : Tree} {d : Numbering}

/-- The numbers of a tree are right: nodes are numbered in post-order, the numbers of a subtree are
those from its leftmost leaf to its root, and the keyroots are the largest number of each leftmost
leaf, in order. -/
structure Decomposes (d : Numbering) (t : Tree) : Prop where
  /-- The nodes are numbered in post-order, from one on. -/
  nodes : ∀ i : Nat, d.nodes[i + 1]? = t.postorder[i]?
  /-- From the number of the leftmost leaf of a node up to that of the node, there are the numbers
  of the nodes of the subtree and no others. -/
  subtree : ∀ p x : Nat, 0 < p → d.nodes[p]? = some x →
    ∃ l, d.leftmost[p]? = some l ∧ 0 < l ∧ l ≤ p ∧
      ∀ q y : Nat, 0 < q → d.nodes[q]? = some y → (l ≤ q ∧ q ≤ p ↔ t.InSubtree x y)
  /-- The keyroots are listed in increasing order. -/
  pairwise_keyroots : d.keyroots.Pairwise (· < ·)
  /-- A number is a keyroot if it is the largest with its leftmost leaf. -/
  mem_keyroots : ∀ k, k ∈ d.keyroots ↔
    ∃ l, IsGreatest {p : Nat | 0 < p ∧ p ≤ t.size ∧ d.leftmost[p]? = some l} k

/-- A number that a node has is one above the position of that node. -/
theorem Lists.exists_position (h : d.Lists t.positions) {p x : Nat} (hp : 0 < p)
    (hx : d.nodes[p]? = some x) : ∃ i < t.size, p = i + 1 ∧ x = t.positions.node i := by
  obtain ⟨i, rfl⟩ : ∃ i, p = i + 1 := ⟨p - 1, by omega⟩
  have hi : i < t.positions.size := by
    have hlt := (Array.getElem?_eq_some_iff.1 hx).1
    rw [h.nodes_size] at hlt
    omega
  rw [h.node i hi, Option.some.injEq] at hx
  exact ⟨i, t.size_positions ▸ hi, rfl, hx.symm⟩

/-- Numbers that list the positions of a tree decompose it. -/
theorem Lists.decomposes (h : d.Lists t.positions) : d.Decomposes t where
  nodes i := by
    by_cases hi : i < t.size
    · rw [h.node i (t.size_positions.symm ▸ hi), getElem?_postorder hi]
    · have hsize := h.nodes_size
      rw [t.size_positions] at hsize
      rw [Array.getElem?_eq_none (by omega),
        List.getElem?_eq_none (by rw [t.length_postorder]; omega)]
  subtree p x hp hx := by
    obtain ⟨i, hi, rfl, rfl⟩ := h.exists_position hp hx
    have hle := t.positions.leftmost_le_self i
    refine ⟨_, h.leftmost i (t.size_positions.symm ▸ hi), by omega, by omega,
      fun q y hq hy => ?_⟩
    obtain ⟨j, hj, rfl, rfl⟩ := h.exists_position hq hy
    rw [Tree.InSubtree, Tree.node_eq_iff hj hi, ← Tree.above_positions hi hj, PostOrder.Above]
    omega
  pairwise_keyroots := by
    rw [h.keyroots, List.pairwise_map]
    exact t.positions.pairwise_keyroots.imp fun hlt => by omega
  mem_keyroots k := by
    simp only [h.keyroots, List.mem_map, PostOrder.mem_keyroots, t.size_positions]
    constructor
    · rintro ⟨i, ⟨hi, hlast⟩, rfl⟩
      refine ⟨_, ⟨by omega, by omega, h.leftmost i (t.size_positions.symm ▸ hi)⟩, ?_⟩
      rintro p ⟨hp, hple, hleft⟩
      obtain ⟨j, rfl⟩ : ∃ j, p = j + 1 := ⟨p - 1, by omega⟩
      rw [h.leftmost j (t.size_positions.symm ▸ (by omega)), Option.some.injEq] at hleft
      have := hlast j (by omega) (by omega)
      omega
    · rintro ⟨l, ⟨hk, hkle, hleft⟩, hgreatest⟩
      obtain ⟨i, rfl⟩ : ∃ i, k = i + 1 := ⟨k - 1, by omega⟩
      refine ⟨i, ⟨by omega, fun j hj heq => ?_⟩, rfl⟩
      have hj' : d.leftmost[j + 1]? = some l := by
        rw [h.leftmost j (t.size_positions.symm ▸ hj), heq,
          ← h.leftmost i (t.size_positions.symm ▸ (by omega)), hleft]
      have : j + 1 ≤ i + 1 := hgreatest ⟨by omega, by omega, hj'⟩
      omega

end Guarded.Numbering

open Guarded in
/-- From root to root, the loop with a stack of nodes and cursors lists the nodes of a tree in
post-order: each once, the subtrees of roots and of siblings in the order of the sentence, and every
node after its descendants. The numbering that is filled in from that order decomposes the tree, and
is that of the positions by which trees are compared. Twice as many rounds of the loop as there are
nodes are enough. -/
theorem postorder_decomposition (t : Tree) (spare : Nat) :
    traverse (2 * t.size + spare) t = some t.postorder ∧ t.PostOrdered t.postorder ∧
      ∃ d, Numbering.ofTree t = some d ∧ d.Decomposes t ∧ d.Lists t.positions := by
  obtain ⟨d, hd, hlists⟩ := Numbering.exists_ofTree t
  exact ⟨traverse_eq t (by omega), t.postOrdered, d, hd, hlists.decomposes, hlists⟩

end Entailment
