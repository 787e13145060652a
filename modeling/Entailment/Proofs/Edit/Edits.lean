import Entailment.Edit.Script
import Entailment.Proofs.Tree.Positions
import Mathlib.Data.List.Basic

/-! # Edits of forests

The edit scripts that backtracking can produce, whatever costs it compares. Nodes are given by their
positions.

* **`Operation.node?`**, **`Operation.lone?`** — the node of an edit on either side;
* **`Edits`** — the scripts between two forests, by their last edits;
* **`Edits.nodes`** — every node is edited once, in order;
* **`Edits.above`** — pairs keep which node is above which;
* **`Edits.append`** — scripts of forests side by side. -/

namespace Entailment

/-! ## The two sides -/

namespace Side

/-- What stands on a side of a pair. -/
def of {β : Type} : Side → β × β → β
  | .text => Prod.fst
  | .hypothesis => Prod.snd

/-- The other side. -/
def other : Side → Side
  | .text => .hypothesis
  | .hypothesis => .text

end Side

namespace Operation

/-- The node of an edit on a side. -/
def node? : Side → Operation → Option Nat
  | .text => textNode?
  | .hypothesis => hypothesisNode?

/-- The node of an edit that has a node on that side alone. -/
def lone? : Side → Operation → Option Nat
  | .text => deleted?
  | .hypothesis => inserted?

/-- The same edit of other nodes. -/
def relabel (f g : Nat → Nat) : Operation → Operation
  | .replace t h => .replace (f t) (g h)
  | .insert h => .insert (g h)
  | .delete t => .delete (f t)

variable {f g : Nat → Nat} {s : List Operation}

/-- The nodes of relabelled edits are the relabelled nodes. -/
theorem filterMap_node?_relabel (side : Side) :
    (s.map (relabel f g)).filterMap (node? side) =
      (s.filterMap (node? side)).map (side.of (f, g)) := by
  rw [List.filterMap_map, List.map_filterMap]
  congr 1
  funext e
  cases side <;> cases e <;> rfl

/-- The pairs of relabelled edits are the relabelled pairs. -/
theorem filterMap_pair?_relabel :
    (s.map (relabel f g)).filterMap pair? = (s.filterMap pair?).map (Prod.map f g) := by
  rw [List.filterMap_map, List.map_filterMap]
  congr 1
  funext e
  cases e <;> rfl

/-- A deletion at the end of a script is no pair. -/
theorem filterMap_pair?_concat_delete (i : Nat) :
    (s ++ [delete i]).filterMap pair? = s.filterMap pair? := by
  rw [List.filterMap_append]
  exact List.append_nil _

/-- An insertion at the end of a script is no pair. -/
theorem filterMap_pair?_concat_insert (j : Nat) :
    (s ++ [insert j]).filterMap pair? = s.filterMap pair? := by
  rw [List.filterMap_append]
  exact List.append_nil _

/-- A replacement at the end of a script is the last pair. -/
theorem filterMap_pair?_concat_replace (i j : Nat) :
    (s ++ [replace i j]).filterMap pair? = s.filterMap pair? ++ [(i, j)] := by
  rw [List.filterMap_append]
  rfl

/-- A pair is about its node on each side, and about none alone. -/
theorem nodes_of_pair? {e : Operation} {p : Nat × Nat} (h : e.pair? = some p) (side : Side) :
    e.node? side = some (side.of p) ∧ e.lone? side = none := by
  cases e <;> cases h
  cases side <;> exact ⟨rfl, rfl⟩

/-- An edit that is no pair is about a node of one side alone. -/
theorem node?_of_pair?_eq_none {e : Operation} (h : e.pair? = none) (side : Side) :
    e.node? side = e.lone? side := by
  cases e <;> cases h <;> cases side <;> rfl

end Operation

/-! ## Scripts -/

/-- The script `s` turns the `a` text positions from `l₁` on into the `b` hypothesis positions from
`l₂` on. -/
inductive Edits (t h : PostOrder) : (l₁ l₂ a b : Nat) → (s : List Operation) → Prop where
  /-- Nothing is left to edit. -/
  | nil {l₁ l₂ : Nat} : Edits t h l₁ l₂ 0 0 []
  /-- The last text node is deleted. -/
  | delete {l₁ l₂ a b : Nat} {s : List Operation} (hs : Edits t h l₁ l₂ a b s) :
    Edits t h l₁ l₂ (a + 1) b (s ++ [.delete (l₁ + a)])
  /-- The last hypothesis node is inserted. -/
  | insert {l₁ l₂ a b : Nat} {s : List Operation} (hs : Edits t h l₁ l₂ a b s) :
    Edits t h l₁ l₂ a (b + 1) (s ++ [.insert (l₂ + b)])
  /-- The forests are whole subtrees, and the root of one replaces the root of the other. -/
  | replace {l₁ l₂ a b : Nat} {s : List Operation} (ht : t.leftmost (l₁ + a) = l₁)
    (hh : h.leftmost (l₂ + b) = l₂) (hs : Edits t h l₁ l₂ a b s) :
    Edits t h l₁ l₂ (a + 1) (b + 1) (s ++ [.replace (l₁ + a) (l₂ + b)])
  /-- The last subtrees are turned into each other, and so is what stands to their left. -/
  | nested {l₁ l₂ a b : Nat} {s u : List Operation} (ht : l₁ ≤ t.leftmost (l₁ + a))
    (hh : l₂ ≤ h.leftmost (l₂ + b))
    (apart : ¬(t.leftmost (l₁ + a) = l₁ ∧ h.leftmost (l₂ + b) = l₂))
    (hs : Edits t h l₁ l₂ (t.leftmost (l₁ + a) - l₁) (h.leftmost (l₂ + b) - l₂) s)
    (hu : Edits t h (t.leftmost (l₁ + a)) (h.leftmost (l₂ + b)) (t.width (l₁ + a))
      (h.width (l₂ + b)) u) :
    Edits t h l₁ l₂ (a + 1) (b + 1) (s ++ u)

namespace Edits

variable {t h : PostOrder} {l₁ l₂ a b : Nat} {s : List Operation}

/-- The positions up to a subtree and those of the subtree follow each other. -/
theorem range'_append_subtree {o : PostOrder} {l n : Nat} (hl : l ≤ o.leftmost (l + n)) :
    List.range' l (o.leftmost (l + n) - l) ++
      List.range' (o.leftmost (l + n)) (o.width (l + n)) = List.range' l (n + 1) := by
  have hsplit := o.leftmost_add_width (l + n)
  rw [show n + 1 = (o.leftmost (l + n) - l) + o.width (l + n) by omega, ← List.range'_append_1,
    show l + (o.leftmost (l + n) - l) = o.leftmost (l + n) by omega]

/-- Every node of a side is edited once, from left to right. -/
theorem nodes (hs : Edits t h l₁ l₂ a b s) (side : Side) :
    s.filterMap (Operation.node? side) = List.range' (side.of (l₁, l₂)) (side.of (a, b)) := by
  induction hs with
  | nil => cases side <;> rfl
  | delete _ ih =>
      rw [List.filterMap_append, ih]
      cases side with
      | text => exact List.range'_1_concat.symm
      | hypothesis => exact List.append_nil _
  | insert _ ih =>
      rw [List.filterMap_append, ih]
      cases side with
      | text => exact List.append_nil _
      | hypothesis => exact List.range'_1_concat.symm
  | replace _ _ _ ih =>
      rw [List.filterMap_append, ih]
      cases side <;> exact List.range'_1_concat.symm
  | nested ht hh _ _ _ ihs ihu =>
      rw [List.filterMap_append, ihs, ihu]
      cases side with
      | text => exact range'_append_subtree ht
      | hypothesis => exact range'_append_subtree hh

/-- Every text node is edited once, from left to right. -/
theorem textNodes (hs : Edits t h l₁ l₂ a b s) :
    s.filterMap Operation.textNode? = List.range' l₁ a :=
  hs.nodes .text

/-- Every hypothesis node is edited once, from left to right. -/
theorem hypothesisNodes (hs : Edits t h l₁ l₂ a b s) :
    s.filterMap Operation.hypothesisNode? = List.range' l₂ b :=
  hs.nodes .hypothesis

/-- An edited node is one of the forest on its side. -/
theorem node_mem (hs : Edits t h l₁ l₂ a b s) (side : Side) {e : Operation} (he : e ∈ s) {x : Nat}
    (hx : e.node? side = some x) :
    side.of (l₁, l₂) ≤ x ∧ x < side.of (l₁, l₂) + side.of (a, b) := by
  have hmem := List.mem_filterMap.2 ⟨e, he, hx⟩
  rwa [hs.nodes, List.mem_range'_1] at hmem

/-- An edited text node is one of the first forest. -/
theorem textNode_mem (hs : Edits t h l₁ l₂ a b s) {e : Operation} (he : e ∈ s) {x : Nat}
    (hx : e.textNode? = some x) : l₁ ≤ x ∧ x < l₁ + a :=
  hs.node_mem .text he hx

/-- An edited hypothesis node is one of the second forest. -/
theorem hypothesisNode_mem (hs : Edits t h l₁ l₂ a b s) {e : Operation} (he : e ∈ s) {y : Nat}
    (hy : e.hypothesisNode? = some y) : l₂ ≤ y ∧ y < l₂ + b :=
  hs.node_mem .hypothesis he hy

/-- Pairs are pairs of positions of the two forests. -/
theorem mem_pairs (hs : Edits t h l₁ l₂ a b s) {p : Nat × Nat}
    (hp : p ∈ s.filterMap Operation.pair?) :
    (l₁ ≤ p.1 ∧ p.1 < l₁ + a) ∧ l₂ ≤ p.2 ∧ p.2 < l₂ + b := by
  obtain ⟨e, he, hep⟩ := List.mem_filterMap.1 hp
  have hnode (side : Side) := hs.node_mem side he (Operation.nodes_of_pair? hep side).1
  exact ⟨hnode .text, hnode .hypothesis⟩

/-- Pairs come from left to right on both sides. -/
theorem pairwise_pairs (hs : Edits t h l₁ l₂ a b s) :
    (s.filterMap Operation.pair?).Pairwise fun p q => p.1 < q.1 ∧ p.2 < q.2 := by
  have hside (side : Side) :
      (s.filterMap Operation.pair?).Pairwise fun p q => side.of p < side.of q := by
    have hnodes : (s.filterMap (Operation.node? side)).Pairwise (· < ·) :=
      hs.nodes side ▸ List.pairwise_lt_range'
    rw [List.pairwise_filterMap] at hnodes ⊢
    refine hnodes.imp fun {e e'} hlt p hp q hq => ?_
    exact hlt _ (Operation.nodes_of_pair? hp side).1 _ (Operation.nodes_of_pair? hq side).1
  exact (hside .text).and (hside .hypothesis)

/-- Of two pairs, one is to the left of the other, or they are the same. -/
theorem pairs_ordered (hs : Edits t h l₁ l₂ a b s) {p q : Nat × Nat}
    (hp : p ∈ s.filterMap Operation.pair?) (hq : q ∈ s.filterMap Operation.pair?) :
    p = q ∨ (p.1 < q.1 ∧ p.2 < q.2) ∨ q.1 < p.1 ∧ q.2 < p.2 := by
  have hpw := hs.pairwise_pairs
  exact List.Pairwise.forall_of_forall_of_flip
    (R := fun p q => p = q ∨ (p.1 < q.1 ∧ p.2 < q.2) ∨ q.1 < p.1 ∧ q.2 < p.2)
    (fun _ _ => .inl rfl) (hpw.imp fun hlt => .inr (.inl hlt)) (hpw.imp fun hlt => .inr (.inr hlt))
    hp hq

/-- Pairs keep which node is above which. -/
protected theorem above (hs : Edits t h l₁ l₂ a b s) :
    ∀ p ∈ s.filterMap Operation.pair?, ∀ q ∈ s.filterMap Operation.pair?,
      t.Above p.1 q.1 ↔ h.Above p.2 q.2 := by
  induction hs with
  | nil => simp
  | delete _ ih => rwa [Operation.filterMap_pair?_concat_delete]
  | insert _ ih => rwa [Operation.filterMap_pair?_concat_insert]
  | @replace l₁ l₂ a b s ht hh hs ih =>
      -- The two roots are above all that was paired before, and below nothing.
      intro p hp q hq
      rw [Operation.filterMap_pair?_concat_replace, List.mem_append, List.mem_singleton] at hp hq
      rcases hp with hp | rfl <;> rcases hq with hq | rfl
      · exact ih p hp q hq
      · have := hs.mem_pairs hp
        exact iff_of_false (fun h => by have := h.2; omega) (fun h => by have := h.2; omega)
      · have := hs.mem_pairs hq
        exact iff_of_true ⟨Nat.le_trans (Nat.le_of_eq ht) this.1.1, this.1.2⟩
          ⟨Nat.le_trans (Nat.le_of_eq hh) this.2.1, this.2.2⟩
      · exact iff_of_false (fun h => by have := h.2; omega) (fun h => by have := h.2; omega)
  | @nested l₁ l₂ a b s u ht hh apart hs hu ihs ihu =>
      -- Nothing inside the subtrees is above or below anything to their left.
      intro p hp q hq
      rw [List.filterMap_append, List.mem_append] at hp hq
      have hw₁ := t.leftmost_add_width (l₁ + a)
      have hw₂ := h.leftmost_add_width (l₂ + b)
      rcases hp with hp | hp <;> rcases hq with hq | hq
      · exact ihs p hp q hq
      · have hp := hs.mem_pairs hp
        have hq := hu.mem_pairs hq
        exact iff_of_false (fun h => by have := h.2; omega) (fun h => by have := h.2; omega)
      · have hp := hu.mem_pairs hp
        have hq := hs.mem_pairs hq
        have hp₁ := t.closed_leftmost (l₁ + a) p.1 hp.1.1 (by omega)
        have hp₂ := h.closed_leftmost (l₂ + b) p.2 hp.2.1 (by omega)
        exact iff_of_false (fun h => by have := h.1; omega) (fun h => by have := h.1; omega)
      · exact ihu p hp q hq

/-- Scripts of forests side by side follow each other. -/
protected theorem append {k₁ k₂ : Nat} {u : List Operation} (h₁ : l₁ ≤ k₁) (h₂ : l₂ ≤ k₂)
    (hs : Edits t h l₁ l₂ (k₁ - l₁) (k₂ - l₂) s) (hu : Edits t h k₁ k₂ a b u) :
    Edits t h l₁ l₂ (k₁ - l₁ + a) (k₂ - l₂ + b) (s ++ u) := by
  induction hu with
  | nil => simpa using hs
  | @delete k₁ k₂ a b u hu ih =>
      have hlast := (ih h₁ h₂ hs).delete
      rwa [show l₁ + (k₁ - l₁ + a) = k₁ + a by omega, List.append_assoc] at hlast
  | @insert k₁ k₂ a b u hu ih =>
      have hlast := (ih h₁ h₂ hs).insert
      rwa [show l₂ + (k₂ - l₂ + b) = k₂ + b by omega, List.append_assoc] at hlast
  | @replace k₁ k₂ a b u ht hh hu ih =>
      have ex : l₁ + (k₁ - l₁ + a) = k₁ + a := by omega
      have ey : l₂ + (k₂ - l₂ + b) = k₂ + b := by omega
      by_cases same : k₁ = l₁ ∧ k₂ = l₂
      · have hlast := (ih h₁ h₂ hs).replace (by rw [ex, ht, same.1]) (by rw [ey, hh, same.2])
        rwa [ex, ey, List.append_assoc] at hlast
      · -- The right forests are whole subtrees, but not all there is.
        have wx : t.width (k₁ + a) = a + 1 := by have := t.leftmost_add_width (k₁ + a); omega
        have wy : h.width (k₂ + b) = b + 1 := by have := h.leftmost_add_width (k₂ + b); omega
        rw [← Nat.add_assoc, ← Nat.add_assoc]
        refine nested ?_ ?_ ?_ ?_ ?_
        · rwa [ex, ht]
        · rwa [ey, hh]
        · rwa [ex, ey, ht, hh]
        · rwa [ex, ey, ht, hh]
        · rw [ex, ey, ht, hh, wx, wy]
          exact hu.replace ht hh
  | @nested k₁ k₂ a b u v ht hh apart hu hv ihu _ =>
      have ex : l₁ + (k₁ - l₁ + a) = k₁ + a := by omega
      have ey : l₂ + (k₂ - l₂ + b) = k₂ + b := by omega
      have hleft := ihu h₁ h₂ hs
      rw [show k₁ - l₁ + (t.leftmost (k₁ + a) - k₁) = t.leftmost (k₁ + a) - l₁ by omega,
        show k₂ - l₂ + (h.leftmost (k₂ + b) - k₂) = h.leftmost (k₂ + b) - l₂ by omega] at hleft
      rw [← List.append_assoc, ← Nat.add_assoc, ← Nat.add_assoc]
      refine nested ?_ ?_ ?_ ?_ ?_
      · rw [ex]
        omega
      · rw [ey]
        omega
      · rw [ex, ey]
        omega
      · rwa [ex, ey]
      · rwa [ex, ey]

end Edits

end Entailment
