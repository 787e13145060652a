import Entailment.Proofs.Guarded
import Entailment.Proofs.Tree.Cycles
import Entailment.Proofs.Tree.Leftmost

/-! # The post-order by a stack

The nodes of a tree bottom up, as they are listed by a loop. The nodes whose subtrees are begun wait
on a stack, each with the number of its children that were entered. There is no answer where an
index is out of range or the given number of rounds is not enough.

* **`Guarded.childLists`** — the children of all nodes, listed by going through the parents;
* **`Guarded.visit`** — the loop;
* **`Guarded.visit_forest`** — what it does to the forest below a node;
* **`Guarded.traverse_eq`** — from root to root it lists the nodes in post-order. -/

namespace Entailment

/-- The roots of the forest of a tree are those of the tree. -/
theorem Tree.roots_forest (t : Tree) : t.forest.roots = t.roots := by
  rw [forest, size, roots]
  cases hps : t.parents with
  | nil => rfl
  | cons parent ps => exact Parents.roots_hang_succ _

namespace Guarded

variable {ps : Parents} {below : Array (List Nat)} {rounds node next child : Nat}
  {cs order : List Nat} {stack : List (Nat × Nat)} {f : Forest}

/-! ## Lists of children -/

/-- The lists with one node more, behind the other children of its parent. -/
def enroll (below : Array (List Nat)) : Option Nat × Nat → Option (Array (List Nat))
  | (none, _) => some below
  | (some head, node) => do write below head ((← below[head]?) ++ [node])

/-- The children of all nodes, listed by going through the parents. -/
def childLists (ps : Parents) : Option (Array (List Nat)) :=
  ps.zipIdx.foldlM enroll (Array.replicate ps.length [])

/-- Where all parents are nodes, the children of every node are listed in the order of the nodes. -/
theorem exists_childLists (hr : ps.InRange) :
    ∃ below, childLists ps = some below ∧
      ∀ node < ps.length, below[node]? = some (ps.children node) := by
  suffices h : ∃ below : Array (List Nat), childLists ps = some below ∧ below.size = ps.length ∧
      ∀ node < ps.length, below[node]? = some (ps.children node) by
    obtain ⟨below, hbelow, -, hget⟩ := h
    exact ⟨below, hbelow, hget⟩
  refine foldlM_spec ps.zipIdx (fun done (below : Array (List Nat)) => below.size = ps.length ∧
    ∀ node < ps.length, below[node]? = some ((done.filter (·.1 == some node)).map Prod.snd))
    ⟨Array.size_replicate, fun node hnode => ?_⟩ fun done p rest hsplit below hinv => ?_
  · rw [Array.getElem?_replicate, if_pos hnode]
    rfl
  obtain ⟨hsize, hget⟩ := hinv
  obtain ⟨parent, child⟩ := p
  cases parent with
  | none => exact ⟨below, rfl, hsize, fun node hnode => by simpa using hget node hnode⟩
  | some head =>
      have hmem : (some head, child) ∈ ps.zipIdx := by simp [hsplit]
      have hhead : head < ps.length := by
        refine hr child head ?_
        rw [Parents.governor, List.mk_mem_zipIdx_iff_getElem?.1 hmem]
        rfl
      obtain ⟨below', hw, hsize', hget'⟩ := exists_write below (hsize ▸ hhead)
        ((done.filter (·.1 == some head)).map Prod.snd ++ [child])
      refine ⟨below', ?_, hsize'.trans hsize, fun node hnode => ?_⟩
      · simp only [enroll, hget head hhead, Option.bind_eq_bind, Option.bind_some, hw]
      · rw [hget', List.filter_append, List.map_append]
        by_cases heq : node = head
        · subst heq
          rw [if_pos rfl, List.filter_cons_of_pos (by simp)]
          rfl
        · rw [if_neg heq, hget node hnode, List.filter_cons_of_neg (by simpa using Ne.symm heq)]
          simp

/-! ## The loop -/

/-- The nodes visited when the stack is empty, behind those visited so far. A node is visited when
no child of it is left to be entered. -/
def visit (below : Array (List Nat)) (rounds : Nat) (stack : List (Nat × Nat)) (order : List Nat) :
    Option (List Nat) :=
  match rounds, stack with
  | 0, _ => none
  | _ + 1, [] => some order
  | rounds + 1, (node, next) :: stack => do
    match (← below[node]?)[next]? with
    | some child => visit below rounds ((child, 0) :: (node, next + 1) :: stack) order
    | none => visit below rounds stack (order ++ [node])

/-- The nodes of a tree as the loop visits them, from root to root. -/
def traverse (rounds : Nat) (t : Tree) : Option (List Nat) := do
  let below ← childLists t.parents
  t.roots.foldlM (fun order root => visit below rounds [(root, 0)] order) []

/-- With an empty stack the visits are over. -/
theorem visit_nil : visit below (rounds + 1) [] order = some order := by rw [visit]

/-- A node with a child left makes way for that child. -/
theorem visit_of_child (hnode : below[node]? = some cs) (hnext : cs[next]? = some child) :
    visit below (rounds + 1) ((node, next) :: stack) order =
      visit below rounds ((child, 0) :: (node, next + 1) :: stack) order := by
  simp only [visit, hnode, hnext, Option.bind_eq_bind, Option.bind_some]

/-- A node with no child left is visited and leaves the stack. -/
theorem visit_of_no_child (hnode : below[node]? = some cs) (hnext : cs.length ≤ next) :
    visit below (rounds + 1) ((node, next) :: stack) order =
      visit below rounds stack (order ++ [node]) := by
  simp only [visit, hnode, List.getElem?_eq_none hnext, Option.bind_eq_bind, Option.bind_some]

/-- Where the children that are left of a node are the roots of a forest, the loop visits that
forest in post-order and comes back to the node with no child left. It takes two rounds for each
node of the forest: one to enter it and one to visit it. -/
theorem visit_forest (hf : f.Follows ps)
    (hbelow : ∀ n ∈ f.postorder, below[n]? = some (ps.children n)) (hnode : below[node]? = some cs)
    (hnext : cs.drop next = f.roots) :
    visit below (rounds + 2 * f.size) ((node, next) :: stack) order =
      visit below rounds ((node, next + f.roots.length) :: stack) (order ++ f.postorder) := by
  induction f generalizing rounds node next cs order stack with
  | nil => simp [Forest.size, Forest.roots, Forest.postorder]
  | node root inside right ihInside ihRight =>
      obtain ⟨hroots, hinside, hright⟩ := hf
      simp only [Forest.postorder, List.mem_append, List.mem_cons] at hbelow
      have hroot := hbelow root (.inr (.inl rfl))
      have hchild : cs[next]? = some root := by
        rw [← Nat.add_zero next, ← List.getElem?_drop, hnext]
        rfl
      have hrest : cs.drop (next + 1) = right.roots := by
        rw [← List.drop_drop, hnext]
        rfl
      have hrounds : rounds + 2 * (Forest.node root inside right).size =
          rounds + 2 * right.size + 1 + 2 * inside.size + 1 := by
        rw [Forest.size]
        omega
      calc visit below (rounds + 2 * (Forest.node root inside right).size)
            ((node, next) :: stack) order
          = visit below (rounds + 2 * right.size + 1 + 2 * inside.size)
              ((root, 0) :: (node, next + 1) :: stack) order := by
            rw [hrounds, visit_of_child hnode hchild]
        _ = visit below (rounds + 2 * right.size + 1)
              ((root, 0 + inside.roots.length) :: (node, next + 1) :: stack)
              (order ++ inside.postorder) :=
            ihInside hinside (fun n hn => hbelow n (.inl hn)) hroot hroots.symm
        _ = visit below (rounds + 2 * right.size) ((node, next + 1) :: stack)
              (order ++ inside.postorder ++ [root]) :=
            visit_of_no_child hroot (by rw [hroots, Nat.zero_add])
        _ = visit below rounds ((node, next + 1 + right.roots.length) :: stack)
              (order ++ inside.postorder ++ [root] ++ right.postorder) :=
            ihRight hright (fun n hn => hbelow n (.inr (.inr hn))) hnode hrest
        _ = _ := by
            simp only [Forest.roots, Forest.postorder, List.length_cons, List.append_assoc,
              List.singleton_append, Nat.add_assoc, Nat.add_comm 1]

/-- From root to root, the loop visits a forest in post-order. -/
theorem foldlM_visit (hf : f.Follows ps)
    (hbelow : ∀ n ∈ f.postorder, below[n]? = some (ps.children n)) (hrounds : 2 * f.size ≤ rounds) :
    f.roots.foldlM (fun order root => visit below rounds [(root, 0)] order) order =
      some (order ++ f.postorder) := by
  induction f generalizing order with
  | nil => simp [Forest.roots, Forest.postorder]
  | node root inside right _ ihRight =>
      obtain ⟨hroots, hinside, hright⟩ := hf
      simp only [Forest.postorder, List.mem_append, List.mem_cons] at hbelow
      have hroot := hbelow root (.inr (.inl rfl))
      rw [Forest.size] at hrounds
      obtain ⟨spare, rfl⟩ : ∃ spare, rounds = spare + 1 + 1 + 2 * inside.size :=
        ⟨rounds - 2 * inside.size - 2, by omega⟩
      have hfirst : visit below (spare + 1 + 1 + 2 * inside.size) [(root, 0)] order =
          some (order ++ inside.postorder ++ [root]) := by
        have hall : (ps.children root).drop 0 = inside.roots := hroots.symm
        rw [visit_forest hinside (fun n hn => hbelow n (.inl hn)) hroot hall,
          visit_of_no_child hroot (by rw [hroots, Nat.zero_add]), visit_nil]
      rw [Forest.roots, List.foldlM_cons, hfirst, Option.bind_eq_bind, Option.bind_some,
        ihRight hright (fun n hn => hbelow n (.inr (.inr hn))) (by omega)]
      simp only [Forest.postorder, List.append_assoc, List.singleton_append]

/-- Twice as many rounds as there are nodes are enough to list the nodes of a tree in post-order. -/
theorem traverse_eq (t : Tree) {rounds : Nat} (hrounds : 2 * t.size ≤ rounds) :
    traverse rounds t = some t.postorder := by
  obtain ⟨below, hlists, hbelow⟩ := exists_childLists t.governor_lt
  rw [traverse, hlists, Option.bind_eq_bind, Option.bind_some, ← t.roots_forest,
    foldlM_visit t.follows_forest (fun n hn => hbelow n (Tree.mem_postorder.1 hn))
      (by rwa [Tree.size_forest])]
  rfl

end Guarded

end Entailment
