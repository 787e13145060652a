import Entailment.Proofs.Edit.Mapping
import Entailment.Proofs.Edit.Walk

/-! # The script of two trees

Whatever the costs are and however they compare, the script of two trees edits each of their nodes
once and keeps ancestors.

* **`EditScript.Valid`** — a script that edits one tree into another;
* **`EditScript.Valid.partner?_eq_some_iff`** — its partners are those of its replacements;
* **`valid_script`** — the script of two trees edits one into the other;
* **`script_edits_each_node_once`** — the same, with what follows for the partners of nodes. -/

namespace Entailment

/-- The script edits every node of both trees once, in post-order, and replaces ancestors by
ancestors. -/
structure EditScript.Valid (t h : Tree) (s : EditScript) : Prop where
  /-- The edited text nodes are those of the text tree. -/
  textNodes : s.operations.filterMap Operation.textNode? = t.postorder
  /-- The edited hypothesis nodes are those of the hypothesis tree. -/
  hypothesisNodes : s.operations.filterMap Operation.hypothesisNode? = h.postorder
  /-- Ancestors are replaced by ancestors. -/
  ancestor_iff : ∀ p ∈ s.replacements, ∀ q ∈ s.replacements,
    t.Ancestor p.1 q.1 ↔ h.Ancestor p.2 q.2

/-- If keys do not repeat, a search by key finds whatever has the key. -/
theorem find?_key_eq_some_iff {β : Type} {key : β → Nat} {l : List β} {k : Nat} {p : β}
    (hl : (l.map key).Nodup) : (l.find? fun q => key q == k) = some p ↔ p ∈ l ∧ key p = k := by
  constructor
  · intro hp
    exact ⟨List.mem_of_find?_eq_some hp, by simpa using List.find?_some hp⟩
  · rintro ⟨hp, rfl⟩
    cases hq : l.find? fun q => key q == key p with
    | none => exact absurd (List.find?_eq_none.1 hq p hp) (by simp)
    | some q =>
        have hkey : key q = key p := by simpa using List.find?_some hq
        rw [List.inj_on_of_nodup_map hl (List.mem_of_find?_eq_some hq) hp hkey]

namespace EditScript

/-- The nodes of a side that are edited alone: deleted text nodes, inserted hypothesis nodes. -/
def lone (side : Side) (s : EditScript) : List Nat := s.operations.filterMap (Operation.lone? side)

/-- The partner on the other side of a node of a side. -/
def partner? (side : Side) (s : EditScript) (i : Nat) : Option Nat :=
  (s.replacements.find? fun p => side.of p == i).map side.other.of

namespace Valid

variable {t h : Tree} {s : EditScript} {side : Side} {i j : Nat}

/-- The edited nodes of a side are those of the tree. -/
theorem nodes (hs : s.Valid t h) (side : Side) :
    s.operations.filterMap (Operation.node? side) = (side.of (t, h)).postorder := by
  cases side with
  | text => exact hs.textNodes
  | hypothesis => exact hs.hypothesisNodes

/-- Edited nodes are nodes of the trees. -/
theorem node_lt (hs : s.Valid t h) (side : Side) {e : Operation} (he : e ∈ s.operations)
    (hi : e.node? side = some i) : i < (side.of (t, h)).size := by
  rw [← Tree.mem_postorder, ← hs.nodes side]
  exact List.mem_filterMap.2 ⟨e, he, hi⟩

/-- Every node of a side is edited alone or replaced, once. -/
theorem perm_range (hs : s.Valid t h) (side : Side) :
    (s.lone side ++ s.replacements.map side.of).Perm (List.range (side.of (t, h)).size) := by
  refine (perm_nodes side s.operations).symm.trans ?_
  rw [hs.nodes]
  exact (side.of (t, h)).postorder_perm_range

/-- No node is edited alone and replaced, and none is replaced twice. -/
theorem nodup (hs : s.Valid t h) (side : Side) :
    (s.lone side ++ s.replacements.map side.of).Nodup :=
  (hs.perm_range side).nodup_iff.2 List.nodup_range

/-- Replaced nodes are nodes of the trees. -/
theorem lt_size (hs : s.Valid t h) (side : Side) {p : Nat × Nat} (hp : p ∈ s.replacements) :
    side.of p < (side.of (t, h)).size := by
  refine List.mem_range.1 ((hs.perm_range side).mem_iff.1 (List.mem_append_right _ ?_))
  exact List.mem_map.2 ⟨p, hp, rfl⟩

/-- The partner of a node is what the node is in a pair with. -/
theorem partner?_eq_some_iff (hs : s.Valid t h) (side : Side) :
    s.partner? side i = some j ↔ ∃ p ∈ s.replacements, side.of p = i ∧ side.other.of p = j := by
  rw [partner?, Option.map_eq_some_iff]
  simp only [find?_key_eq_some_iff (List.nodup_append.1 (hs.nodup side)).2.1, and_assoc]

/-- The nodes without a partner are those that are edited alone. -/
theorem partner?_eq_none_iff (hs : s.Valid t h) (side : Side) (hi : i < (side.of (t, h)).size) :
    s.partner? side i = none ↔ i ∈ s.lone side := by
  have hmem := (hs.perm_range side).mem_iff.2 (List.mem_range.2 hi)
  have hapart := (List.nodup_append.1 (hs.nodup side)).2.2
  rw [Option.eq_none_iff_forall_ne_some]
  simp only [ne_eq, hs.partner?_eq_some_iff]
  constructor
  · intro hnone
    rcases List.mem_append.1 hmem with hi | hi
    · exact hi
    · obtain ⟨p, hp, hpi⟩ := List.mem_map.1 hi
      exact absurd ⟨p, hp, hpi, rfl⟩ (hnone _)
  · rintro hlone j ⟨p, hp, rfl, -⟩
    exact hapart _ hlone _ (List.mem_map.2 ⟨p, hp, rfl⟩) rfl

/-- The partner of a text node is what replaces it. -/
theorem hypothesisOf?_eq_some_iff (hs : s.Valid t h) :
    s.hypothesisOf? i = some j ↔ (i, j) ∈ s.replacements := by
  refine (hs.partner?_eq_some_iff .text).trans ⟨?_, fun hp => ⟨_, hp, rfl, rfl⟩⟩
  rintro ⟨p, hp, rfl, rfl⟩
  exact hp

/-- The partner of a hypothesis node is what it replaces. -/
theorem textOf?_eq_some_iff (hs : s.Valid t h) :
    s.textOf? j = some i ↔ (i, j) ∈ s.replacements := by
  refine (hs.partner?_eq_some_iff .hypothesis).trans ⟨?_, fun hp => ⟨_, hp, rfl, rfl⟩⟩
  rintro ⟨p, hp, rfl, rfl⟩
  exact hp

end Valid

end EditScript

variable {α : Type} [Cost α]

/-- The script of two trees is a walk by positions, read as edits of nodes. -/
theorem operations_script_compare (t h : Tree) (costs : CostModel α) :
    (t.compare h costs).script.operations =
      t.atNodes h ((t.compare h costs).walk Cost.near 0 0 t.size h.size) := by
  rw [Comparison.operations_script, text_size_compare, hypothesis_size_compare]
  rfl

/-- The walk through two trees is a script between them. -/
theorem edits_walk_compare (t h : Tree) (costs : CostModel α) (near : α → α → Bool) :
    Edits t.positions h.positions 0 0 t.size h.size
      ((t.compare h costs).walk near 0 0 t.size h.size) :=
  (t.compare h costs).edits_walk near (t.positions.closed_zero _) (h.positions.closed_zero _)

/-- The script of two trees edits one into the other, whatever the costs are. -/
theorem valid_script (t h : Tree) (costs : CostModel α) :
    (t.compare h costs).script.Valid t h := by
  have hwalk := edits_walk_compare t h costs Cost.near
  refine ⟨?_, ?_, ?_⟩
  · rw [operations_script_compare]
    exact hwalk.nodes_atNodes .text
  · rw [operations_script_compare]
    exact hwalk.nodes_atNodes .hypothesis
  · have hmapping := hwalk.isMapping.ancestor_iff
    rw [EditScript.replacements, operations_script_compare]
    simpa only [List.mem_toFinset] using hmapping

/-- Whatever the costs are, the script of two trees deletes or replaces every text node once and in
post-order, inserts or puts in place every hypothesis node once and in post-order, and replaces
ancestors by ancestors. So the partners on the two sides are each other's partners, and the nodes
without one are those that are deleted or inserted. -/
theorem script_edits_each_node_once (t h : Tree) (costs : CostModel α) :
    let s := (t.compare h costs).script
    (s.operations.filterMap Operation.textNode? = t.postorder ∧
        t.postorder.Perm (List.range t.size)) ∧
      (s.operations.filterMap Operation.hypothesisNode? = h.postorder ∧
        h.postorder.Perm (List.range h.size)) ∧
      (∀ p ∈ s.replacements, ∀ q ∈ s.replacements,
        t.Ancestor p.1 q.1 ↔ h.Ancestor p.2 q.2) ∧
      (∀ i j, s.hypothesisOf? i = some j ↔ s.textOf? j = some i) ∧
      (∀ i j, s.hypothesisOf? i = some j → i < t.size ∧ j < h.size) ∧
      (∀ i < t.size, s.hypothesisOf? i = none ↔ i ∈ s.deletions) ∧
      ∀ j < h.size, s.textOf? j = none ↔ j ∈ s.insertions := by
  have hs := valid_script t h costs
  refine ⟨⟨hs.textNodes, t.postorder_perm_range⟩, ⟨hs.hypothesisNodes, h.postorder_perm_range⟩,
    hs.ancestor_iff, ?_, ?_, ?_, ?_⟩
  · intro i j
    rw [hs.hypothesisOf?_eq_some_iff, hs.textOf?_eq_some_iff]
  · intro i j hij
    have hlt (side : Side) := hs.lt_size side (hs.hypothesisOf?_eq_some_iff.1 hij)
    exact ⟨hlt .text, hlt .hypothesis⟩
  · intro i hi
    exact hs.partner?_eq_none_iff .text hi
  · intro j hj
    exact hs.partner?_eq_none_iff .hypothesis hj

end Entailment
