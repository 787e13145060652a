import Entailment.Proofs.Guarded
import Entailment.Proofs.Tree.Keyroots
import Entailment.Proofs.Tree.Leftmost

/-! # Numbers from one on

The nodes of a tree in post-order, numbered from one on by filling arrays in place. Nothing is
filled in where an index is out of range.

* **`Guarded.Numbering`** — nodes, leftmost leaves and keyroots by number;
* **`Guarded.Numbering.ofTree`** — the numbering of a tree, filled in by loops;
* **`Guarded.Numbering.exists_ofTree`** — the loops never leave their arrays, and every number is
  one above the position of its node. -/

namespace Entailment.Guarded

/-- The nodes of a tree in post-order, with numbers from one on. -/
structure Numbering where
  /-- The node of each number. Number zero has none. -/
  nodes : Array Nat
  /-- The number of the leftmost leaf below the node of each number. -/
  leftmost : Array Nat
  /-- The numbers that are the last with their leftmost leaf, in order. -/
  keyroots : List Nat

namespace Numbering

/-- What stands at number zero: the largest number of 64 bits, which is no node. -/
def noNode : Nat := 2 ^ 64 - 1

/-- The number of each node of an order. -/
def numberNodes (order : List Nat) : Option (Array Nat) :=
  countUp (fun i numbers => do write numbers (← order[← i.psub 1]?) i) order.length
    (Array.replicate order.length 0)

/-- The nodes below a node. -/
def childrenOf (t : Tree) (node : Nat) : Option (List Nat) :=
  if node < t.size then some (t.children node) else none

/-- The leftmost leaf below a number: that of the first child, or the number itself. -/
def leftmostOf (t : Tree) (nodes numbers leftmost : Array Nat) (i : Nat) : Option Nat := do
  match ← childrenOf t (← nodes[i]?) with
  | [] => some i
  | first :: _ => leftmost[← numbers[first]?]?

/-- A number is a keyroot if its leftmost leaf was not seen at a later number. -/
def visit (leftmost : Array Nat) (i : Nat) (s : Array Bool × List Nat) :
    Option (Array Bool × List Nat) := do
  let leaf ← leftmost[i]?
  if ← s.1[leaf]? then some s else some (← write s.1 leaf true, i :: s.2)

/-- The numbering of a tree. -/
def ofTree (t : Tree) : Option Numbering := do
  let n := t.postorder.length
  let nodes := (noNode :: t.postorder).toArray
  let leftmost ← fill (leftmostOf t nodes (← numberNodes t.postorder)) n 0
  let seen ← countDown (visit leftmost) n (Array.replicate (n + 1) false, [])
  some ⟨nodes, leftmost, seen.2⟩

/-- The number of nodes. -/
def size (d : Numbering) : Option Nat := d.nodes.size.psub 1

/-- Every number is one above a position of the post-order. -/
structure Lists (d : Numbering) (o : PostOrder) : Prop where
  nodes_size : d.nodes.size = o.size + 1
  node : ∀ p < o.size, d.nodes[p + 1]? = some (o.node p)
  leftmost : ∀ p < o.size, d.leftmost[p + 1]? = some (o.leftmost p + 1)
  keyroots : d.keyroots = o.keyroots.map (· + 1)

/-- The number of nodes can be taken off the list of nodes. -/
theorem Lists.size {d : Numbering} {o : PostOrder} (h : d.Lists o) : d.size = some o.size :=
  Nat.psub_eq_some.2 h.nodes_size.symm

variable {t : Tree} {nodes numbers leftmost : Array Nat} {p : Nat}

/-- At each position the post-order lists the node of that position. -/
theorem getElem?_postorder (hp : p < t.size) : t.postorder[p]? = some (t.positions.node p) := by
  rw [Tree.node_eq_getElem (t.length_postorder.symm ▸ hp)]
  exact List.getElem?_eq_getElem _

/-- Every node gets the number one above its position. -/
theorem exists_numberNodes (t : Tree) : ∃ numbers, numberNodes t.postorder = some numbers ∧
    numbers.size = t.size ∧ ∀ p < t.size, numbers[t.positions.node p]? = some (p + 1) := by
  rw [numberNodes, t.length_postorder]
  refine countUp_spec (fun i (numbers : Array Nat) => numbers.size = t.size ∧
      ∀ p < i, numbers[t.positions.node p]? = some (p + 1))
    ⟨Array.size_replicate, fun p hp => by omega⟩ fun i hi numbers hinv => ?_
  obtain ⟨hsize, hget⟩ := hinv
  obtain ⟨numbers', hw, hsize', hget'⟩ :=
    exists_write numbers (hsize ▸ Tree.node_lt hi) (i + 1)
  refine ⟨numbers', ?_, hsize'.trans hsize, fun p hp => ?_⟩
  · simp only [succ_psub_one, Option.bind_eq_bind, Option.bind_some,
      getElem?_postorder hi, hw]
  · rw [hget']
    rcases Nat.lt_succ_iff_lt_or_eq.1 hp with hlt | rfl
    · -- A node that has its number keeps it, as the post-order lists no node twice.
      rw [if_neg, hget p hlt]
      rw [Tree.node_eq_iff (by omega) hi]
      omega
    · rw [if_pos rfl]

/-- The leftmost leaf below a number, if those below the smaller numbers are right. -/
theorem leftmostOf_eq (hp : p < t.size) (hnode : nodes[p + 1]? = some (t.positions.node p))
    (hnumber : ∀ q < t.size, numbers[t.positions.node q]? = some (q + 1))
    (hleft : ∀ q < p, leftmost[q + 1]? = some (t.positions.leftmost q + 1)) :
    leftmostOf t nodes numbers leftmost (p + 1) = some (t.positions.leftmost p + 1) := by
  simp only [leftmostOf, childrenOf, hnode, Option.bind_eq_bind, Option.bind_some,
    if_pos (Tree.node_lt hp)]
  cases hc : t.children (t.positions.node p) with
  | nil =>
      rw [Tree.leftmost_leaf hp hc]
  | cons first rest =>
      obtain ⟨q, hq, rfl, hleaf⟩ := Tree.leftmost_firstChild hp hc
      simp only [hnumber q (by omega), Option.bind_some, hleft q hq, hleaf]

/-! ## Keyroots -/

/-- What is known when the positions from `i` on have been visited: which leftmost leaves they have,
and which keyroots there are among them. -/
structure Visited (o : PostOrder) (i : Nat) (s : Array Bool × List Nat) : Prop where
  size : s.1.size = o.size + 1
  seen : ∀ p < o.size, s.1[p + 1]? = some (decide (∃ q < o.size, i ≤ q ∧ o.leftmost q = p))
  keyroots : s.2 = ((List.range' i (o.size - i)).filter (· ∈ o.keyroots)).map (· + 1)

variable {o : PostOrder}

/-- Before the loop nothing has been visited. -/
theorem visited_start (o : PostOrder) :
    Visited o o.size (Array.replicate (o.size + 1) false, []) := by
  refine ⟨Array.size_replicate, fun p hp => ?_, by simp⟩
  rw [Array.getElem?_replicate, if_pos (by omega), eq_comm, Option.some.injEq,
    decide_eq_false_iff_not]
  rintro ⟨q, hq, hle, -⟩
  omega

/-- Keeping the keyroots among all positions lists them as they are. -/
theorem filter_mem_keyroots (o : PostOrder) :
    (List.range o.size).filter (· ∈ o.keyroots) = o.keyroots := by
  conv_rhs => rw [PostOrder.keyroots]
  refine List.filter_congr fun p hp => ?_
  rw [Bool.eq_iff_iff, decide_eq_true_iff, PostOrder.keyroots, List.mem_filter]
  exact and_iff_right hp

/-- One position more is visited without leaving the arrays. -/
theorem Visited.next {s : Array Bool × List Nat} {i : Nat} (h : Visited o (i + 1) s)
    (hi : i < o.size) (hleft : leftmost[i + 1]? = some (o.leftmost i + 1)) :
    ∃ s', visit leftmost (i + 1) s = some s' ∧ Visited o i s' := by
  have hlt : o.leftmost i < o.size := Nat.lt_of_le_of_lt (o.leftmost_le_self i) hi
  have hrange : List.range' i (o.size - i) = i :: List.range' (i + 1) (o.size - (i + 1)) := by
    rw [show o.size - i = o.size - (i + 1) + 1 by omega, List.range'_succ]
  have hseen : ∀ p, (∃ q < o.size, i ≤ q ∧ o.leftmost q = p) ↔
      p = o.leftmost i ∨ ∃ q < o.size, i + 1 ≤ q ∧ o.leftmost q = p := by
    intro p
    constructor
    · rintro ⟨q, hq, hle, rfl⟩
      rcases Nat.lt_or_eq_of_le hle with hlt | rfl
      · exact .inr ⟨q, hq, hlt, rfl⟩
      · exact .inl rfl
    · rintro (rfl | ⟨q, hq, hle, rfl⟩)
      · exact ⟨i, hi, Nat.le_refl i, rfl⟩
      · exact ⟨q, hq, by omega, rfl⟩
  -- The leftmost leaf of a position is seen later on exactly if the position is no keyroot.
  have hkey : (∃ q < o.size, i + 1 ≤ q ∧ o.leftmost q = o.leftmost i) ↔ i ∉ o.keyroots := by
    rw [PostOrder.mem_keyroots]
    simp only [hi, true_and, not_forall, exists_prop, Nat.not_le]
    exact exists_congr fun q => and_congr_right fun _ => and_comm
  by_cases hmem : i ∈ o.keyroots
  · obtain ⟨seen', hw, hsize', hget'⟩ :=
      exists_write s.1 (i := o.leftmost i + 1) (by rw [h.size]; omega) true
    refine ⟨(seen', (i + 1) :: s.2), ?_, hsize'.trans h.size, fun p hp => ?_, ?_⟩
    · simp only [visit, hleft, Option.bind_eq_bind, Option.bind_some, h.seen _ hlt, hkey, hmem,
        not_true_eq_false, decide_false, Bool.false_eq_true, if_false, hw]
    · rw [hget', h.seen p hp]
      by_cases heq : p = o.leftmost i
      · rw [if_pos (by rw [heq]), decide_eq_true ((hseen p).2 (.inl heq))]
      · rw [if_neg (by omega)]
        exact congrArg some
          (decide_eq_decide.2 ((or_iff_right heq).symm.trans (hseen p).symm))
    · rw [hrange, List.filter_cons_of_pos (by simpa using hmem), List.map_cons, h.keyroots]
  · refine ⟨s, ?_, h.size, fun p hp => ?_, ?_⟩
    · simp only [visit, hleft, Option.bind_eq_bind, Option.bind_some, h.seen _ hlt, hkey, hmem,
        not_false_eq_true, decide_true, if_true]
    · have hlater : p = o.leftmost i → ∃ q < o.size, i + 1 ≤ q ∧ o.leftmost q = p := by
        rintro rfl
        exact hkey.2 hmem
      rw [h.seen p hp]
      exact congrArg some
        (decide_eq_decide.2 ((or_iff_right_of_imp hlater).symm.trans (hseen p).symm))
    · rw [hrange, List.filter_cons_of_neg (by simpa using hmem), h.keyroots]

/-- The numbering of a tree never leaves its arrays, and lists the positions of the tree. -/
theorem exists_ofTree (t : Tree) : ∃ d, ofTree t = some d ∧ d.Lists t.positions := by
  have hnode : ∀ p < t.size,
      (noNode :: t.postorder).toArray[p + 1]? = some (t.positions.node p) := by
    intro p hp
    rw [List.getElem?_toArray, List.getElem?_cons_succ, getElem?_postorder hp]
  obtain ⟨numbers, hnumbers, -, hnumber⟩ := exists_numberNodes t
  -- First children come before their parents, so what an entry is computed from is there.
  obtain ⟨leftmost, hfill, hleft⟩ := exists_fill (v := 0) (fun p => t.positions.leftmost p + 1)
    fun p hp _ hbefore => leftmostOf_eq hp (hnode p hp) hnumber hbefore
  obtain ⟨seen, hseen, hvisited⟩ := countDown_spec (Visited t.positions)
    (visited_start t.positions) fun i hi s hs => hs.next hi (hleft i (t.size_positions ▸ hi))
  rw [t.size_positions] at hseen
  refine ⟨⟨(noNode :: t.postorder).toArray, leftmost, seen.2⟩, ?_, ?_, ?_, ?_, ?_⟩
  · simp only [ofTree, t.length_postorder, hnumbers, hfill, hseen, Option.bind_eq_bind,
      Option.bind_some]
  · simp
  · rw [t.size_positions]
    exact hnode
  · rw [t.size_positions]
    exact hleft
  · rw [hvisited.keyroots, Nat.sub_zero, ← List.range_eq_range', filter_mem_keyroots]

end Numbering

end Entailment.Guarded
