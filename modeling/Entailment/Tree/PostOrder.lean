import Entailment.Tree.Basic

/-! # Ordered forests and their post-order

The shape of a tree as data. A forest is empty, or a first root with the forest below it and the
forest to its right. Its nodes are numbered from zero in post-order; the subtree of a position is
the run of positions from its leftmost leaf up to itself.

* **`Forest`** — the data type, with `size` and the `postorder` of its nodes;
* **`Tree.forest`** — the shape of a tree;
* **`Tree.postorder`**, **`Tree.render`** — its nodes bottom up, its bracketed form;
* **`Span`** — a node with the position of the leftmost leaf below it;
* **`Forest.spans`** — the spans of a forest in post-order;
* **`PostOrder`** — spans of which any two are nested or apart;
* **`PostOrder.keyroots`** — the positions that are the last with their leftmost leaf. -/

namespace Entailment

/-- An ordered forest of numbered nodes. -/
inductive Forest where
  /-- The forest without nodes. -/
  | nil
  /-- A first root, the forest below it, and the forest to its right. -/
  | node (root : Nat) (below right : Forest)
  deriving DecidableEq, Repr

namespace Forest

/-- The number of nodes. -/
def size : Forest → Nat
  | .nil => 0
  | .node _ below right => below.size + right.size + 1

/-- The nodes from left to right, each after the nodes below it. -/
def postorder : Forest → List Nat
  | .nil => []
  | .node root below right => below.postorder ++ root :: right.postorder

/-- The bracketed forms of the trees of a forest. -/
def parts (form : Nat → String) : Forest → List String
  | .nil => []
  | .node root below right =>
    ("(" ++ Text.joinWith " " (form root :: below.parts form) ++ ")") :: right.parts form

/-- The post-order of a forest lists as many nodes as the forest has. -/
@[simp] theorem length_postorder (f : Forest) : f.postorder.length = f.size := by
  induction f with
  | nil => rfl
  | node root below right ihb ihr => simp [postorder, size, ihb, ihr]; omega

end Forest

namespace Parents

/-- The forest of the given nodes and all below them, down to a depth. -/
def hang (ps : Parents) : Nat → List Nat → Forest
  | 0, _ => .nil
  | depth + 1, nodes =>
    nodes.foldr (fun n right => .node n (hang ps depth (ps.children n)) right) .nil

end Parents

namespace Tree

/-- The shape of the tree. No walk from a node to its root is longer than the number of nodes, so
that number is deep enough. -/
def forest (t : Tree) : Forest := t.parents.hang t.size t.roots

/-- The nodes bottom up: roots from left to right, children before their parent. -/
def postorder (t : Tree) : List Nat := t.forest.postorder

/-- The bracketed form of the tree. -/
def render (t : Tree) : String :=
  Text.joinWith " " <| t.forest.parts fun node => (t.given[node]?.map Token.form).getD "?"

end Tree

/-! ## Positions -/

/-- A node and the position of the leftmost leaf of its subtree. -/
structure Span where
  /-- The node. -/
  node : Nat
  /-- The position of the leftmost leaf below the node, or of the node if it is a leaf. -/
  leftmost : Nat
  deriving DecidableEq, Repr

/-- The spans of a forest in post-order, when its first node stands at position `start`. -/
def Forest.spans (start : Nat) : Forest → List Span
  | .nil => []
  | .node root below right =>
    below.spans start ++ ⟨root, start⟩ :: right.spans (start + below.size + 1)

/-- A forest has one span for each node. -/
@[simp] theorem Forest.length_spans (f : Forest) (start : Nat) :
    (f.spans start).length = f.size := by
  induction f generalizing start with
  | nil => rfl
  | node root below right ihb ihr => simp [spans, size, ihb, ihr]; omega

/-- The spans of a forest list its nodes in post-order. -/
@[simp] theorem Forest.map_node_spans (f : Forest) (start : Nat) :
    (f.spans start).map Span.node = f.postorder := by
  induction f generalizing start with
  | nil => rfl
  | node root below right ihb ihr => simp [spans, postorder, ihb, ihr]

/-- A leftmost leaf stands in the forest, and not after its node. -/
theorem Forest.leftmost_spans {f : Forest} {start k : Nat} {s : Span}
    (h : (f.spans start)[k]? = some s) : start ≤ s.leftmost ∧ s.leftmost ≤ start + k := by
  induction f generalizing start k with
  | nil => simp [spans] at h
  | node root below right ihb ihr =>
    simp only [spans] at h
    by_cases hk : k < below.size
    · rw [List.getElem?_append_left (by simpa using hk)] at h
      exact ihb h
    · rw [List.getElem?_append_right (by simpa using hk)] at h
      simp only [length_spans] at h
      obtain ⟨j, hj⟩ : ∃ j, k = below.size + j := ⟨k - below.size, by omega⟩
      subst hj
      simp only [Nat.add_sub_cancel_left] at h
      cases j with
      | zero => simp only [List.getElem?_cons_zero, Option.some.injEq] at h; subst h; simp
      | succ j =>
        simp only [List.getElem?_cons_succ] at h
        have := ihr h
        omega

/-- The subtree of a position inside another subtree does not reach out of it to the left. -/
theorem Forest.nested_spans {f : Forest} {start j k : Nat} {s u : Span}
    (hk : (f.spans start)[k]? = some s) (hj : (f.spans start)[j]? = some u) (hjk : j ≤ k)
    (hs : s.leftmost ≤ start + j) : s.leftmost ≤ u.leftmost := by
  induction f generalizing start j k with
  | nil => simp [spans] at hk
  | node root below right ihb ihr =>
    have hu := (leftmost_spans hj).1
    simp only [spans] at hk hj
    by_cases hkb : k < below.size
    · rw [List.getElem?_append_left (by simpa using hkb)] at hk
      rw [List.getElem?_append_left (by simp only [length_spans]; omega)] at hj
      exact ihb hk hj hjk hs
    · rw [List.getElem?_append_right (by simpa using hkb)] at hk
      simp only [length_spans] at hk
      obtain ⟨i, rfl⟩ : ∃ i, k = below.size + i := ⟨k - below.size, by omega⟩
      simp only [Nat.add_sub_cancel_left] at hk
      cases i with
      | zero => simp only [List.getElem?_cons_zero, Option.some.injEq] at hk; subst hk; exact hu
      | succ i =>
        simp only [List.getElem?_cons_succ] at hk
        have hstart := (leftmost_spans hk).1
        rw [List.getElem?_append_right (by simp only [length_spans]; omega)] at hj
        simp only [length_spans] at hj
        obtain ⟨l, rfl⟩ : ∃ l, j = below.size + 1 + l := ⟨j - below.size - 1, by omega⟩
        rw [show below.size + 1 + l - below.size = l + 1 by omega] at hj
        simp only [List.getElem?_cons_succ] at hj
        exact ihr hk hj (by omega) (by omega)

/-- A forest in post-order. -/
structure PostOrder where
  /-- The spans by position. -/
  spans : Array Span
  /-- A leftmost leaf does not stand after its node. -/
  leftmost_le : ∀ (p : Nat) (s : Span), spans[p]? = some s → s.leftmost ≤ p
  /-- The subtree of a position inside another subtree does not reach out of it to the left. -/
  nested : ∀ (p q : Nat) (s u : Span), spans[p]? = some s → spans[q]? = some u → q ≤ p →
    s.leftmost ≤ q → s.leftmost ≤ u.leftmost

/-- The nodes of a forest in post-order. -/
def Forest.positions (f : Forest) : PostOrder where
  spans := (f.spans 0).toArray
  leftmost_le p s h := by
    have hs : (f.spans 0)[p]? = some s := by simpa using h
    have := (leftmost_spans hs).2
    omega
  nested p q s u hp hq hqp hs :=
    have hs : (f.spans 0)[p]? = some s := by simpa using hp
    have hu : (f.spans 0)[q]? = some u := by simpa using hq
    nested_spans hs hu hqp (by omega)

namespace PostOrder

/-- The number of positions. -/
def size (o : PostOrder) : Nat := o.spans.size

/-- The node at a position. -/
def node (o : PostOrder) (p : Nat) : Nat := (o.spans[p]?.map Span.node).getD 0

/-- The position of the leftmost leaf of the subtree of a position. -/
def leftmost (o : PostOrder) (p : Nat) : Nat := (o.spans[p]?.map Span.leftmost).getD p

/-- The number of nodes of the subtree of a position. -/
def width (o : PostOrder) (p : Nat) : Nat := p + 1 - o.leftmost p

/-- Whether no subtree of the positions from `first` up to `stop` reaches out to the left. -/
def Closed (o : PostOrder) (first stop : Nat) : Prop :=
  ∀ p, first ≤ p → p < stop → first ≤ o.leftmost p

/-- The positions that are the last with their leftmost leaf, in order. -/
def keyroots (o : PostOrder) : List Nat :=
  (List.range o.size).filter fun p =>
    (List.range o.size).all fun q => q ≤ p || o.leftmost q != o.leftmost p

/-- The positions from `first` on, `count` of them, whose leftmost leaf is `first`. -/
def spine (o : PostOrder) (first count : Nat) : List Nat :=
  (List.range' first count).filter fun p => o.leftmost p == first

/-- A leftmost leaf comes no later than the node itself. -/
theorem leftmost_le_self (o : PostOrder) (p : Nat) : o.leftmost p ≤ p := by
  unfold leftmost
  cases h : o.spans[p]? with
  | none => simp
  | some s => simpa using o.leftmost_le p s h

/-- The whole run of positions is closed. -/
theorem closed_zero (o : PostOrder) (stop : Nat) : o.Closed 0 stop := fun _ _ _ => Nat.zero_le _

/-- A closed run stays closed when it ends earlier. -/
theorem Closed.mono {o : PostOrder} {first stop stop' : Nat} (h : o.Closed first stop)
    (hs : stop' ≤ stop) : o.Closed first stop' :=
  fun p hp hlt => h p hp (Nat.lt_of_lt_of_le hlt hs)

/-- A subtree is a closed run of positions. -/
theorem closed_leftmost (o : PostOrder) (p : Nat) : o.Closed (o.leftmost p) (p + 1) := by
  intro q hq hqp
  unfold leftmost at hq ⊢
  cases hsp : o.spans[p]? with
  | none =>
    simp only [hsp, Option.map_none, Option.getD_none] at hq ⊢
    have : q = p := by omega
    subst this
    simp [hsp]
  | some s =>
    simp only [hsp, Option.map_some, Option.getD_some] at hq ⊢
    cases hsq : o.spans[q]? with
    | none => simpa using hq
    | some u => simpa using o.nested p q s u hsp hsq (by omega) hq

/-- A subtree inside another subtree does not reach out of it to the left. -/
theorem leftmost_le_leftmost {o : PostOrder} {p q : Nat} (h : o.leftmost p ≤ q) (hq : q ≤ p) :
    o.leftmost p ≤ o.leftmost q :=
  o.closed_leftmost p q h (by omega)

/-- A subtree ends with its root. -/
theorem leftmost_add_width (o : PostOrder) (p : Nat) : o.leftmost p + o.width p = p + 1 := by
  have := o.leftmost_le_self p
  simp only [width]
  omega

/-- A subtree is a closed run of as many positions as it is wide. -/
theorem closed_subtree (o : PostOrder) (p : Nat) :
    o.Closed (o.leftmost p) (o.leftmost p + o.width p) := by
  rw [o.leftmost_add_width]
  exact o.closed_leftmost p

section

variable {o : PostOrder} {l n : Nat} (h : o.Closed l (l + (n + 1)))

include h

/-- A closed run is closed without its last position. -/
theorem Closed.init : o.Closed l (l + n) := h.mono (by omega)

/-- The last subtree of a closed run begins inside it. -/
theorem Closed.le_leftmost : l ≤ o.leftmost (l + n) := h (l + n) (by omega) (by omega)

/-- What stands to the left of the last subtree of a closed run is closed. -/
theorem Closed.before : o.Closed l (l + (o.leftmost (l + n) - l)) :=
  h.mono (by have := o.leftmost_le_self (l + n); omega)

end

end PostOrder

/-- The nodes of a tree in post-order. -/
def Tree.positions (t : Tree) : PostOrder := t.forest.positions

end Entailment
