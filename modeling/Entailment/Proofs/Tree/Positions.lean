import Entailment.Proofs.Tree.ForestOrder
import Entailment.Tree.PostOrder

/-! # Positions and ancestors

The post-order positions of a tree stand for its nodes, and the spans tell which nodes are above
which.

* **`PostOrder.Above`** — one position is in the subtree of another;
* **`Tree.position`** — the position of a node;
* **`Tree.node_position`**, **`Tree.position_node`** — positions and nodes correspond;
* **`Tree.above_positions`** — the subtree of a position holds what its node is an ancestor of. -/

namespace Entailment

namespace Forest

variable {f : Forest} {start p q : Nat} {s u : Span}

/-- Where the spans of a forest stand. -/
theorem mem_zipIdx_spans (h : (s, p) ∈ (f.spans start).zipIdx start) :
    start ≤ s.leftmost ∧ s.leftmost ≤ p ∧ p < start + f.size ∧ s.node ∈ f.postorder := by
  obtain ⟨hle, hs⟩ := List.mk_mem_zipIdx_iff_le_and_getElem?_sub.1 h
  have hlt : p - start < (f.spans start).length := (List.getElem?_eq_some_iff.1 hs).1
  have hleft := leftmost_spans hs
  rw [length_spans] at hlt
  refine ⟨hleft.1, by omega, by omega, ?_⟩
  rw [← f.map_node_spans start]
  exact List.mem_map_of_mem (List.mem_of_getElem? hs)

variable {root : Nat} {below right : Forest} {i j : Nat}

/-- A span of a forest is below the first root, or that of the root, or to the right of it. -/
theorem mem_zipIdx_spans_node
    (h : (s, p) ∈ ((node root below right).spans start).zipIdx start) :
    (s, p) ∈ (below.spans start).zipIdx start ∨ (s = ⟨root, start⟩ ∧ p = start + below.size) ∨
      (s, p) ∈ (right.spans (start + below.size + 1)).zipIdx (start + below.size + 1) := by
  simpa [spans, List.zipIdx_append] using h

section Once

variable (hn : (node root below right).postorder.Nodup)

include hn

/-- Where each node occurs once, the root is not below itself. -/
theorem root_not_mem_below : root ∉ below.postorder := by
  rw [postorder, List.nodup_append] at hn
  exact fun h => hn.2.2 root h root List.mem_cons_self rfl

/-- Where each node occurs once, the root is not to its own right. -/
theorem root_not_mem_right : root ∉ right.postorder := by
  rw [postorder, List.nodup_append, List.nodup_cons] at hn
  exact hn.2.1.1

/-- Where each node occurs once, none is both below the root and to its right. -/
theorem not_mem_right_of_mem_below (hi : i ∈ below.postorder) : i ∉ right.postorder := by
  rw [postorder, List.nodup_append] at hn
  exact fun h => hn.2.2 i hi i (List.mem_cons_of_mem _ h) rfl

/-- A node below the root has nothing under it but what is below the root. -/
theorem above_of_mem_below (hi : i ∈ below.postorder) :
    (node root below right).Above i j ↔ below.Above i j := by
  refine ⟨?_, fun h => .inr (.inl h)⟩
  rintro (⟨rfl, -⟩ | h | h)
  · exact absurd hi (root_not_mem_below hn)
  · exact h
  · exact absurd h.mem.1 (not_mem_right_of_mem_below hn hi)

/-- The root has all that is below it under it, and nothing else. -/
theorem above_root_iff : (node root below right).Above root j ↔ j ∈ below.postorder := by
  refine ⟨?_, fun h => .inl ⟨rfl, h⟩⟩
  rintro (⟨-, h⟩ | h | h)
  · exact h
  · exact absurd h.mem.1 (root_not_mem_below hn)
  · exact absurd h.mem.1 (root_not_mem_right hn)

/-- A node to the right of the root has nothing under it but what is to the right of the root. -/
theorem above_of_mem_right (hi : i ∈ right.postorder) :
    (node root below right).Above i j ↔ right.Above i j := by
  refine ⟨?_, fun h => .inr (.inr h)⟩
  rintro (⟨rfl, -⟩ | h | h)
  · exact absurd hi (root_not_mem_right hn)
  · exact absurd hi (not_mem_right_of_mem_below hn h.mem.1)
  · exact h

end Once

/-- Where each node occurs once, the nodes below one stand between its leftmost leaf and itself. -/
theorem above_iff_span (hn : f.postorder.Nodup) (hs : (s, p) ∈ (f.spans start).zipIdx start)
    (hu : (u, q) ∈ (f.spans start).zipIdx start) :
    f.Above s.node u.node ↔ s.leftmost ≤ q ∧ q < p := by
  induction f generalizing start with
  | nil => cases hs
  | node root below right ihb ihr =>
      obtain ⟨hnb, hnr, -⟩ := List.nodup_append.1 hn
      have hbelow := root_not_mem_below hn
      have hright := root_not_mem_right hn
      have hapart {i : Nat} := not_mem_right_of_mem_below (i := i) hn
      -- Each span is below the root, that of the root, or to the right of it. In two different
      -- places the numbers of the positions decide.
      rcases mem_zipIdx_spans_node hs with hs | ⟨rfl, rfl⟩ | hs
      · have ws := mem_zipIdx_spans hs
        rw [above_of_mem_below hn ws.2.2.2]
        rcases mem_zipIdx_spans_node hu with hu | ⟨rfl, rfl⟩ | hu
        · exact ihb hnb hs hu
        · exact iff_of_false (fun h => hbelow h.mem.2) (by omega)
        · have wu := mem_zipIdx_spans hu
          exact iff_of_false (fun h => hapart h.mem.2 wu.2.2.2) (by omega)
      · rw [above_root_iff hn]
        rcases mem_zipIdx_spans_node hu with hu | ⟨rfl, rfl⟩ | hu
        · have wu := mem_zipIdx_spans hu
          exact iff_of_true wu.2.2.2 (by simp only; omega)
        · exact iff_of_false hbelow (by omega)
        · have wu := mem_zipIdx_spans hu
          exact iff_of_false (fun h => hapart h wu.2.2.2) (by omega)
      · have ws := mem_zipIdx_spans hs
        rw [above_of_mem_right hn ws.2.2.2]
        rcases mem_zipIdx_spans_node hu with hu | ⟨rfl, rfl⟩ | hu
        · have wu := mem_zipIdx_spans hu
          exact iff_of_false (fun h => hapart wu.2.2.2 h.mem.2) (by omega)
        · exact iff_of_false (fun h => hright h.mem.2) (by omega)
        · exact ihr (List.nodup_cons.1 hnr).2 hs hu

end Forest

namespace PostOrder

/-- The position `q` is in the subtree of the position `p`, and is not `p` itself. -/
def Above (o : PostOrder) (p q : Nat) : Prop := o.leftmost p ≤ q ∧ q < p

end PostOrder

namespace Tree

variable {t : Tree} {p q : Nat}

/-- The position of a node in post-order. -/
def position (t : Tree) (node : Nat) : Nat := t.postorder.idxOf node

/-- The forest of a tree has the nodes of the tree. -/
theorem size_forest (t : Tree) : t.forest.size = t.size := by
  rw [← Forest.length_postorder]
  exact t.length_postorder

/-- A tree has as many positions as nodes. -/
@[simp] theorem size_positions (t : Tree) : t.positions.size = t.size := by
  show (t.forest.spans 0).toArray.size = t.size
  rw [List.size_toArray, Forest.length_spans, size_forest]

/-- The span at a position, with what it says about the position. -/
theorem exists_span (hp : p < t.size) : ∃ s, (t.forest.spans 0)[p]? = some s ∧
    t.positions.node p = s.node ∧ t.positions.leftmost p = s.leftmost := by
  have hp' : p < (t.forest.spans 0).length := by rwa [Forest.length_spans, size_forest]
  have hs := List.getElem?_eq_getElem hp'
  exact ⟨_, hs, by simp [positions, Forest.positions, PostOrder.node, hs],
    by simp [positions, Forest.positions, PostOrder.leftmost, hs]⟩

/-- The nodes by position are the post-order. -/
theorem node_eq_getElem (hp : p < t.postorder.length) :
    t.positions.node p = t.postorder[p] := by
  obtain ⟨s, hs, hn, -⟩ := exists_span (t.length_postorder ▸ hp)
  rw [hn, eq_comm, List.getElem_eq_iff, postorder, ← t.forest.map_node_spans 0, List.getElem?_map,
    hs]
  rfl

/-- The nodes of the positions in order are the post-order. -/
theorem map_node_range (t : Tree) :
    (List.range t.size).map t.positions.node = t.postorder := by
  refine List.ext_getElem (by simp) fun p hp _ => ?_
  rw [List.getElem_map, List.getElem_range,
    node_eq_getElem (by rw [length_postorder]; simpa using hp)]

/-- At each position stands a node. -/
theorem node_lt (hp : p < t.size) : t.positions.node p < t.size := by
  rw [node_eq_getElem (t.length_postorder ▸ hp), ← mem_postorder]
  exact List.getElem_mem _

/-- Each node has a position. -/
theorem position_lt {node : Nat} (h : node < t.size) : t.position node < t.size := by
  rw [position, ← t.length_postorder]
  exact List.idxOf_lt_length_of_mem (mem_postorder.2 h)

/-- At the position of a node stands the node. -/
@[simp] theorem node_position {node : Nat} (h : node < t.size) :
    t.positions.node (t.position node) = node := by
  rw [node_eq_getElem (t.length_postorder ▸ position_lt h)]
  exact List.getElem_idxOf _

/-- The node of a position stands there and nowhere else. -/
@[simp] theorem position_node (hp : p < t.size) : t.position (t.positions.node p) = p := by
  rw [node_eq_getElem (t.length_postorder ▸ hp)]
  exact t.nodup_postorder.idxOf_getElem p _

/-- Different positions have different nodes. -/
theorem node_eq_iff (hp : p < t.size) (hq : q < t.size) :
    t.positions.node p = t.positions.node q ↔ p = q := by
  constructor
  · intro heq
    rw [← position_node hp, heq, position_node hq]
  · rintro rfl
    rfl

/-- The subtree of a position holds what its node is an ancestor of. -/
theorem above_positions (hp : p < t.size) (hq : q < t.size) :
    t.positions.Above p q ↔ t.Ancestor (t.positions.node p) (t.positions.node q) := by
  obtain ⟨s, hs, hsn, hsl⟩ := exists_span hp
  obtain ⟨u, hu, hun, -⟩ := exists_span hq
  rw [PostOrder.Above, hsn, hun, hsl, ← above_forest]
  exact (Forest.above_iff_span t.nodup_postorder (List.mk_mem_zipIdx_iff_getElem?.2 hs)
    (List.mk_mem_zipIdx_iff_getElem?.2 hu)).symm

end Tree

end Entailment
