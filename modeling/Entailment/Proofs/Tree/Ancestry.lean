import Entailment.Tree.Basic
import Mathlib.Logic.Relation

/-! # Ancestors

The nodes that are met on the way from a node to its root.

* **`Parents.up`** — the node a number of steps above another;
* **`Parents.AtDepth`** — a node stands a number of steps below a root;
* **`Tree.Ancestor`** — a node lies on the way from another to its root. -/

namespace Entailment

namespace Parents

variable {ps : Parents}

/-- The node that `k` steps from child to parent lead to. -/
def up (ps : Parents) : Nat → Nat → Option Nat
  | 0, node => some node
  | k + 1, node => (ps.governor node).bind (ps.up k)

/-- No step up stays at the node. -/
@[simp] theorem up_zero (node : Nat) : ps.up 0 node = some node := rfl

/-- The first step up goes to the parent. -/
theorem up_succ (k node : Nat) : ps.up (k + 1) node = (ps.governor node).bind (ps.up k) := rfl

/-- One step up leads to the parent. -/
@[simp] theorem up_one (node : Nat) : ps.up 1 node = ps.governor node := by
  rw [up_succ]
  cases ps.governor node <;> rfl

/-- Steps up add up. -/
theorem up_add (j k node : Nat) : ps.up (j + k) node = (ps.up j node).bind (ps.up k) := by
  induction j generalizing node with
  | zero => simp
  | succ j ih =>
      rw [Nat.add_right_comm, up_succ, up_succ]
      cases ps.governor node with
      | none => rfl
      | some head => exact ih head

/-- The last step of a walk, taken apart. -/
theorem up_succ_eq_some_iff {k node a : Nat} :
    ps.up (k + 1) node = some a ↔ ∃ c, ps.up k node = some c ∧ ps.governor c = some a := by
  rw [up_add, Option.bind_eq_some_iff]
  simp

/-- What has something above it is a node. -/
theorem lt_length_of_up {k node a : Nat} (h : ps.up k node = some a) (hk : 0 < k) :
    node < ps.length := by
  obtain ⟨k, rfl⟩ : ∃ j, k = j + 1 := ⟨k - 1, by omega⟩
  obtain ⟨head, hg, -⟩ := Option.bind_eq_some_iff.1 (up_succ k node ▸ h)
  exact lt_length_of_governor hg

/-! ## Depth -/

/-- The node stands `k` steps below a root. -/
def AtDepth (ps : Parents) (k node : Nat) : Prop :=
  ∃ r, ps.up k node = some r ∧ ps.governor r = none

/-- The nodes at depth zero are the roots. -/
theorem atDepth_zero {node : Nat} : ps.AtDepth 0 node ↔ ps.governor node = none := by
  simp [AtDepth]

/-- A node stands one step deeper than its parent. -/
theorem atDepth_succ {k node : Nat} :
    ps.AtDepth (k + 1) node ↔ ∃ head, ps.governor node = some head ∧ ps.AtDepth k head := by
  simp only [AtDepth, up_succ, Option.bind_eq_some_iff]
  constructor
  · rintro ⟨r, ⟨head, hg, hu⟩, hr⟩
    exact ⟨head, hg, r, hu, hr⟩
  · rintro ⟨head, hg, r, hu, hr⟩
    exact ⟨r, ⟨head, hg, hu⟩, hr⟩

/-- A node has one depth. -/
theorem AtDepth.unique {j k node : Nat} (hj : ps.AtDepth j node) (hk : ps.AtDepth k node) :
    j = k := by
  induction j generalizing k node with
  | zero =>
      rw [atDepth_zero] at hj
      cases k with
      | zero => rfl
      | succ k =>
          obtain ⟨head, hg, -⟩ := atDepth_succ.1 hk
          rw [hj] at hg
          cases hg
  | succ j ih =>
      obtain ⟨head, hg, hd⟩ := atDepth_succ.1 hj
      cases k with
      | zero =>
          rw [atDepth_zero.1 hk] at hg
          cases hg
      | succ k =>
          obtain ⟨head', hg', hd'⟩ := atDepth_succ.1 hk
          rw [hg] at hg'
          cases hg'
          rw [ih hd hd']

/-- A node stands as much deeper than a node above it as there are steps between them. -/
theorem AtDepth.of_up {d k node a : Nat} (hu : ps.up k node = some a) (ha : ps.AtDepth d a) :
    ps.AtDepth (k + d) node := by
  obtain ⟨r, hr, hroot⟩ := ha
  refine ⟨r, ?_, hroot⟩
  rw [up_add, hu]
  exact hr

/-- A node above another stands less deep. -/
theorem AtDepth.above {d k node a : Nat} (hd : ps.AtDepth d node) (hu : ps.up k node = some a) :
    ∃ e, d = k + e ∧ ps.AtDepth e a := by
  induction k generalizing d node with
  | zero =>
      cases hu
      exact ⟨d, by omega, hd⟩
  | succ k ih =>
      obtain ⟨head, hg, hu'⟩ := Option.bind_eq_some_iff.1 (up_succ k node ▸ hu)
      cases d with
      | zero =>
          rw [atDepth_zero.1 hd] at hg
          cases hg
      | succ d =>
          obtain ⟨head', hg', hd'⟩ := atDepth_succ.1 hd
          rw [hg] at hg'
          cases hg'
          obtain ⟨e, rfl, he⟩ := ih hd' hu'
          exact ⟨e, by omega, he⟩

/-- A walk of bounded length reaches a root exactly from the nodes that do not stand too deep. -/
theorem isSome_climb {bound node : Nat} :
    (ps.climb bound node).isSome ↔ ∃ k < bound, ps.AtDepth k node := by
  induction bound generalizing node with
  | zero => simp [climb]
  | succ bound ih =>
      rw [climb]
      cases hg : ps.governor node with
      | none =>
          refine ⟨fun _ => ⟨0, by omega, atDepth_zero.2 hg⟩, fun _ => rfl⟩
      | some head =>
          simp only [Option.isSome_map, ih]
          constructor
          · rintro ⟨k, hk, hd⟩
            exact ⟨k + 1, by omega, atDepth_succ.2 ⟨head, hg, hd⟩⟩
          · rintro ⟨k, hk, hd⟩
            cases k with
            | zero =>
                rw [atDepth_zero.1 hd] at hg
                cases hg
            | succ k =>
                obtain ⟨head', hg', hd'⟩ := atDepth_succ.1 hd
                rw [hg] at hg'
                cases hg'
                exact ⟨k, by omega, hd'⟩

end Parents

namespace Tree

variable {t : Tree}

/-- The node `a` lies on the way from `b` to its root, and is not `b` itself. -/
def Ancestor (t : Tree) (a b : Nat) : Prop :=
  Relation.TransGen (fun head node => t.parent node = some head) a b

/-- Ancestors are the nodes one or more steps above. -/
theorem ancestor_iff_up {a b : Nat} :
    t.Ancestor a b ↔ ∃ k, 0 < k ∧ t.parents.up k b = some a := by
  constructor
  · intro h
    induction h with
    | single hp => exact ⟨1, by omega, by rw [Parents.up_one]; exact hp⟩
    | tail _ hp ih =>
        obtain ⟨k, -, hk⟩ := ih
        refine ⟨k + 1, by omega, ?_⟩
        rw [Parents.up_succ, show t.parents.governor _ = some _ from hp]
        exact hk
  · rintro ⟨k, hk, h⟩
    induction k generalizing b with
    | zero => omega
    | succ k ih =>
        obtain ⟨head, hg, hu⟩ := Option.bind_eq_some_iff.1 (Parents.up_succ k b ▸ h)
        cases k with
        | zero =>
            cases hu
            exact Relation.TransGen.single hg
        | succ k => exact Relation.TransGen.tail (ih (by omega) hu) hg

/-- What is above a node of a tree is a node of it. -/
theorem up_lt {k node a : Nat} (h : t.parents.up k node = some a) (hn : node < t.size) :
    a < t.size := by
  cases k with
  | zero =>
      cases h
      exact hn
  | succ k =>
      obtain ⟨c, -, hc⟩ := Parents.up_succ_eq_some_iff.1 h
      exact t.governor_lt c a hc

/-- Every node of a tree stands somewhere below a root. -/
theorem exists_atDepth (t : Tree) {node : Nat} (h : node < t.size) :
    ∃ d < t.size, t.parents.AtDepth d node :=
  Parents.isSome_climb.1 (t.rooted node h)

end Tree

end Entailment
