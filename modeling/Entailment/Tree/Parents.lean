/-! # Parent arrays

A tree in array form: the entry of a node is its parent, if it has one.

A depth-first search along the edges from parent to child finishes every node after the nodes below
it, unless the edges form a cycle. Going through the nodes from the last finished to the first, each
parent should be met before its children; the first node whose parent is still to come gives that
parent away as a node of a cycle.

* **`governor`** — the parent of a node;
* **`children`** — the nodes below a node, in order;
* **`climb`** — the walk from a node up to its root, with a bound on its length;
* **`Search`** — the stack of the search, the nodes discovered and the nodes finished;
* **`finishOrder`** — all nodes, the last finished first;
* **`unsettled`** — the first parent that is met too late;
* **`cycleNode?`** — the node of a cycle that the search reports. -/

namespace Entailment

/-- The parents of the nodes `0`, `1`, …; a root has none. -/
abbrev Parents := List (Option Nat)

namespace Parents

/-- The parent of a node. A number that is no node has none. -/
def governor (ps : Parents) (node : Nat) : Option Nat := ps[node]?.join

/-- The nodes with the given parent, in order. -/
def children (ps : Parents) (node : Nat) : List Nat :=
  (ps.zipIdx.filter fun p => p.1 == some node).map Prod.snd

/-- The nodes without a parent, in order. -/
def roots (ps : Parents) : List Nat := (ps.zipIdx.filter fun p => p.1.isNone).map Prod.snd

/-- The walk from a node to its parent and on to a root, both ends included. There is none of more
than `bound` nodes. -/
def climb (ps : Parents) : Nat → Nat → Option (List Nat)
  | 0, _ => none
  | bound + 1, node =>
    match ps.governor node with
    | none => some [node]
    | some head => (climb ps bound head).map (node :: ·)

/-- A node is among the children of another exactly if that one is its parent. -/
@[simp] theorem mem_children {ps : Parents} {node c : Nat} :
    c ∈ ps.children node ↔ ps.governor c = some node := by
  simp only [children, List.mem_map, List.mem_filter, beq_iff_eq, Prod.exists, exists_eq_right,
    governor, Option.join_eq_some_iff]
  exact List.mem_zipIdx_iff_getElem?

/-- What has a parent is a node. -/
theorem lt_length_of_governor {ps : Parents} {node head : Nat} (h : ps.governor node = some head) :
    node < ps.length := by
  simp only [governor, Option.join_eq_some_iff] at h
  exact (List.getElem?_eq_some_iff.1 h).1

/-! ## The search for a cycle -/

/-- The state of a depth-first search. -/
structure Search where
  /-- The nodes to look at, the next one first. -/
  stack : List Nat
  /-- The nodes looked at, the last one first. -/
  discovered : List Nat
  /-- The nodes whose children are all done with, the last one first. -/
  finished : List Nat
  deriving Repr

/-- One step of the search. A new node is marked and its undiscovered children go on top of the
stack, the smallest topmost; a node met again leaves the stack, and is finished unless it was
before. -/
def Search.step (ps : Parents) (s : Search) : Search :=
  match s.stack with
  | [] => s
  | node :: rest =>
    if node ∈ s.discovered then
      -- All that was pushed above the node is done with.
      { s with
        stack := rest
        finished := if node ∈ s.finished then s.finished else node :: s.finished }
    else
      -- The node stays on the stack, to be met again after its children.
      let discovered := node :: s.discovered
      { s with
        stack := (ps.children node).filter (· ∉ discovered) ++ s.stack
        discovered }

/-- The search from one node, if that is not discovered yet. Every node enters the stack at most
once and is looked at twice, so twice the number of nodes bounds the steps. -/
def Search.from (ps : Parents) (s : Search) (start : Nat) : Search :=
  if start ∈ s.discovered then s
  else Nat.repeat (Search.step ps) (2 * ps.length) { s with stack := [start] }

/-- All nodes in the order in which the search from `0`, `1`, … finishes them, the last one
first. -/
def finishOrder (ps : Parents) : List Nat :=
  ((List.range ps.length).foldl (Search.from ps) ⟨[], [], []⟩).finished

/-- The first parent in the given order of nodes that is neither among `seen` nor met before its
child. -/
def unsettled (ps : Parents) (seen : List Nat) : List Nat → Option Nat
  | [] => none
  | node :: rest =>
    if node ∈ seen then unsettled ps seen rest
    else
      match ps.governor node with
      | none => unsettled ps (node :: seen) rest
      | some head =>
        if head ∈ node :: seen then unsettled ps (node :: seen) rest else some head

/-- The node of a cycle that the search reports, if there is one. -/
def cycleNode? (ps : Parents) : Option Nat := ps.unsettled [] ps.finishOrder

end Parents

end Entailment
