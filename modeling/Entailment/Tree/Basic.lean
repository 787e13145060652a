import Entailment.Token
import Entailment.Tree.Parents

/-! # Dependency trees

The parse of a sentence as a tree, or as several trees side by side. Node `i` is the `i`-th token.

* **`Tree`** — tokens with parents that lead every node to a root;
* **`Tree.build`** — the tree of three parallel arrays, or what is wrong with them;
* **`Tree.ofFragment`** — the tree of a fragment;
* **`Tree.path`** — the relations from a node up to its root. -/

namespace Entailment

/-- A dependency tree in array form. -/
structure Tree where
  /-- The tokens, in sentence order. -/
  given : List Token
  /-- The parents of the nodes. -/
  parents : Parents
  /-- Every node has a token and every token a node. -/
  length_parents : parents.length = given.length
  /-- Every parent is a node. -/
  governor_lt : ∀ node head, parents.governor node = some head → head < parents.length
  /-- From every node a root is reached. -/
  rooted : ∀ node, node < parents.length → (parents.climb parents.length node).isSome

/-- What is wrong with the arrays of a tree. -/
inductive TreeError where
  /-- The three arrays do not have one length. -/
  | lengthMismatch (parents labels tokens : Nat)
  /-- A head is no node. -/
  | danglingHead (node head size : Nat)
  /-- A label is not the position of its node. -/
  | labelMismatch (node label : Nat)
  /-- The parents lead from a node back to it. -/
  | cycle (node : Nat)
  deriving DecidableEq, Repr

/-- The wording of a defect. -/
def TreeError.message : TreeError → String
  | .lengthMismatch parents labels tokens =>
    "tree arrays differ in length: " ++ toString parents ++ " parents, " ++ toString labels ++
      " labels, " ++ toString tokens ++ " tokens"
  | .danglingHead node head size =>
    "node " ++ toString node ++ " has head " ++ toString head ++ ", outside a tree of " ++
      toString size ++ " nodes"
  | .labelMismatch node label =>
    "node " ++ toString node ++ " carries label " ++ toString label ++
      "; labels must follow token order"
  | .cycle node => "parent pointers form a cycle through node " ++ toString node

namespace Tree

/-- The number of nodes. -/
def size (t : Tree) : Nat := t.parents.length

/-- Whether there is no node. -/
def isEmpty (t : Tree) : Bool := t.parents.isEmpty

/-- The parent of a node. -/
def parent (t : Tree) (node : Nat) : Option Nat := t.parents.governor node

/-- The nodes below a node, in sentence order. -/
def children (t : Tree) (node : Nat) : List Nat := t.parents.children node

/-- The nodes without a parent, in sentence order. -/
def roots (t : Tree) : List Nat := t.parents.roots

/-- The labels of the nodes: each carries its own position. -/
def labels (t : Tree) : List Nat := List.range t.size

/-- The separator of the relations of a root path. -/
def pathSeparator : String := "#"

/-- The relation of a node to its parent. -/
def relation (t : Tree) (node : Nat) : String := (t.given[node]?.map Token.relation).getD ""

/-- The nodes from a node up to its root, both included. -/
def ancestry (t : Tree) (node : Nat) : List Nat :=
  (t.parents.climb t.parents.length node).getD []

/-- The relations from a node up to its root, joined. -/
def path (t : Tree) (node : Nat) : String :=
  Text.joinWith pathSeparator ((t.ancestry node).map t.relation)

/-- The token of a node, with its root path. -/
def token? (t : Tree) (node : Nat) : Option Token :=
  t.given[node]?.map (·.withPath (t.path node))

/-- The tokens with their root paths, in sentence order. -/
def tokens (t : Tree) : List Token := (List.range t.size).filterMap t.token?

/-! ## Building a tree -/

/-- The first label that is not the position of its node. -/
def labelDefect (labels : List Nat) : Option TreeError :=
  (labels.zipIdx.find? fun p => p.1 ≠ p.2).map fun p => .labelMismatch p.2 p.1

/-- What is wrong with the head of one node, taken by itself: it is no node, or it is the node. -/
def headDefect (ps : Parents) (node : Nat) : Option TreeError :=
  match ps.governor node with
  | none => none
  | some head =>
    if ps.length ≤ head then some (.danglingHead node head ps.length)
    else if head = node then some (.cycle node)
    else none

/-- The first node whose walk does not reach a root. -/
def rootless (ps : Parents) : Option Nat :=
  (List.range ps.length).find? fun node => (ps.climb ps.length node).isNone

/-- If no head is wrong by itself, every head is a node. -/
theorem governor_lt_of_headDefect {ps : Parents}
    (h : (List.range ps.length).findSome? (headDefect ps) = none) (node head : Nat)
    (hg : ps.governor node = some head) : head < ps.length := by
  have hn := List.findSome?_eq_none_iff.1 h node
    (List.mem_range.2 (Parents.lt_length_of_governor hg))
  simp only [headDefect, hg] at hn
  split at hn <;> simp_all

/-- If no node is rootless, every walk reaches a root. -/
theorem climb_isSome_of_rootless {ps : Parents} (h : rootless ps = none) (node : Nat)
    (hn : node < ps.length) : (ps.climb ps.length node).isSome := by
  have := List.find?_eq_none.1 h node (List.mem_range.2 hn)
  simpa [Option.isSome_iff_ne_none] using this

/-- The tree of three parallel arrays. They must be of one length, the labels must be the positions,
every head must be a node other than its own, and no cycle may be found. -/
def build (parents : Parents) (labels : List Nat) (tokens : List Token) : Except TreeError Tree :=
  if hlen : parents.length = labels.length ∧ parents.length = tokens.length then
    match labelDefect labels with
    | some e => .error e
    | none =>
      match hhead : (List.range parents.length).findSome? (headDefect parents) with
      | some e => .error e
      | none =>
        match parents.cycleNode? with
        | some node => .error (.cycle node)
        | none =>
          -- Without a cycle every walk ends; the check is what proves it to the tree.
          match hroot : rootless parents with
          | some node => .error (.cycle node)
          | none =>
            .ok
              { given := tokens
                parents
                length_parents := hlen.2
                governor_lt := governor_lt_of_headDefect hhead
                rooted := climb_isSome_of_rootless hroot }
  else .error (.lengthMismatch parents.length labels.length tokens.length)

/-- The tree of a fragment: its tokens with their own heads and ids. -/
def ofFragment (f : Fragment) : Except TreeError Tree :=
  build (f.map Token.head) (f.map Token.id) f

end Tree

end Entailment
