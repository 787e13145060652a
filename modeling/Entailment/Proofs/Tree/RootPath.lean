import Entailment.Proofs.Tree.Ancestry

/-! # Root paths, step by step

The root path of a node is its relation, and behind it the root path of its parent if it has one. So
two trees whose nodes correspond, parents to parents, have the same root paths, up to what the
second tree adds above the roots of the first.

* **`Tree.upward_induction`** — what holds of the roots and carries over from parents to children
  holds of all nodes;
* **`Tree.path_of_root`**, **`Tree.path_of_parent`** — the root path of a node, by its parent;
* **`Tree.path_of_related`** — root paths of corresponding nodes. -/

namespace Entailment

namespace Parents

variable {ps : Parents} {bound bound' node : Nat} {walk : List Nat}

/-- A walk that ends is the same under every larger bound. -/
theorem climb_of_le (hle : bound ≤ bound') (h : ps.climb bound node = some walk) :
    ps.climb bound' node = some walk := by
  induction bound generalizing bound' node walk with
  | zero => cases h
  | succ bound ih =>
      obtain ⟨bound', rfl⟩ : ∃ b, bound' = b + 1 := ⟨bound' - 1, by omega⟩
      rw [climb] at h ⊢
      cases hg : ps.governor node with
      | none => rwa [hg] at h
      | some head =>
          rw [hg] at h
          obtain ⟨rest, hrest, rfl⟩ := Option.map_eq_some_iff.1 h
          exact Option.map_eq_some_iff.2 ⟨rest, ih (by omega) hrest, rfl⟩

/-- A walk begins at its node. -/
theorem ne_nil_of_climb (h : ps.climb bound node = some walk) : walk ≠ [] := by
  cases bound with
  | zero => cases h
  | succ bound =>
      rw [climb] at h
      cases hg : ps.governor node with
      | none =>
          rw [hg] at h
          cases h
          exact List.cons_ne_nil _ _
      | some head =>
          rw [hg] at h
          obtain ⟨rest, -, rfl⟩ := Option.map_eq_some_iff.1 h
          exact List.cons_ne_nil _ _

end Parents

namespace Tree

variable {t : Tree} {node head : Nat}

/-- What holds of the roots, and of every child of a node of which it holds, holds of all nodes. -/
theorem upward_induction {P : Nat → Prop} (root : ∀ node < t.size, t.parent node = none → P node)
    (child : ∀ node head, t.parent node = some head → P head → P node) (h : node < t.size) :
    P node := by
  obtain ⟨d, -, hd⟩ := t.exists_atDepth h
  induction d generalizing node with
  | zero => exact root node h (Parents.atDepth_zero.1 hd)
  | succ d ih =>
      obtain ⟨head, hg, hhead⟩ := Parents.atDepth_succ.1 hd
      exact child node head hg (ih (t.governor_lt node head hg) hhead)

/-! ## Walks to the root -/

/-- The walk from a node is what is found under the bound that no walk exceeds. -/
theorem climb_ancestry (h : node < t.size) :
    t.parents.climb t.size node = some (t.ancestry node) := by
  obtain ⟨walk, hwalk⟩ := Option.isSome_iff_exists.1 (t.rooted node h)
  rw [ancestry, hwalk]
  exact hwalk

/-- The walk from a node has the node on it. -/
theorem ancestry_ne_nil (h : node < t.size) : t.ancestry node ≠ [] :=
  Parents.ne_nil_of_climb (climb_ancestry h)

/-- From a root the walk goes nowhere. -/
theorem ancestry_of_root (h : node < t.size) (hroot : t.parent node = none) :
    t.ancestry node = [node] := by
  have hwalk := climb_ancestry h
  obtain ⟨n, hn⟩ : ∃ n, t.size = n + 1 := ⟨t.size - 1, by omega⟩
  rw [hn, Parents.climb, show t.parents.governor node = none from hroot] at hwalk
  exact (Option.some.inj hwalk).symm

/-- From any other node the walk goes on at the parent. -/
theorem ancestry_of_parent (hp : t.parent node = some head) :
    t.ancestry node = node :: t.ancestry head := by
  have hnode : node < t.size := Parents.lt_length_of_governor hp
  have hwalk := climb_ancestry hnode
  obtain ⟨n, hn⟩ : ∃ n, t.size = n + 1 := ⟨t.size - 1, by omega⟩
  rw [hn, Parents.climb, show t.parents.governor node = some head from hp] at hwalk
  obtain ⟨rest, hrest, heq⟩ := Option.map_eq_some_iff.1 hwalk
  have hhead := climb_ancestry (t.governor_lt node head hp)
  rw [Parents.climb_of_le (by omega) hrest, Option.some.injEq] at hhead
  rw [← heq, hhead]

/-! ## Root paths -/

/-- The root path of a root is its relation. -/
theorem path_of_root (h : node < t.size) (hroot : t.parent node = none) :
    t.path node = t.relation node := by
  rw [path, ancestry_of_root h hroot, List.map_singleton, Text.joinWith_singleton]

/-- The root path of any other node is its relation, and behind it the root path of its parent. -/
theorem path_of_parent (hp : t.parent node = some head) :
    t.path node = t.relation node ++ pathSeparator ++ t.path head := by
  have hne := ancestry_ne_nil (t.governor_lt node head hp)
  rw [path, ancestry_of_parent hp, List.map_cons,
    Text.joinWith_cons_of_ne_nil _ _ (mt List.map_eq_nil_iff.1 hne), path]

/-- Where nodes of one tree are related to nodes of another with the same relation, and parents to
parents, the root paths in the second tree are those in the first with the same text behind all of
them, if that is so for the roots of the first. -/
theorem path_of_related {u : Tree} {R : Nat → Nat → Prop} (suffix : String)
    (hroot : ∀ x x', R x x' → x < t.size → t.parent x = none →
      u.path x' = t.relation x ++ suffix)
    (hparent : ∀ x p x', R x x' → t.parent x = some p →
      u.relation x' = t.relation x ∧ ∃ p', R p p' ∧ u.parent x' = some p')
    (hnode : node < t.size) {node' : Nat} (h : R node node') :
    u.path node' = t.path node ++ suffix := by
  refine upward_induction (P := fun x => ∀ x', R x x' → u.path x' = t.path x ++ suffix) ?_ ?_
    hnode node' h
  · intro x hx hp x' hR
    rw [hroot x x' hR hx hp, path_of_root hx hp]
  · intro x p hp ih x' hR
    obtain ⟨hrelation, p', hp', hu⟩ := hparent x p x' hR hp
    rw [path_of_parent hu, path_of_parent hp, hrelation, ih p' hp']
    simp only [String.append_assoc]

end Tree

end Entailment
