import Entailment.Proofs.Tree.Building
import Entailment.Proofs.Tree.RootPath

/-! # The bounded walk to a root

The root path of a node as it is computed step by step: relations are collected on the way up, and
the walk gives up when there are as many of them as nodes. No way to a root passes more nodes than
there are, so what is given up never comes to a root.

* **`Parents.Way`** — the nodes from a node up to its root;
* **`Parents.climb_length_eq_some_iff`** — a walk bounded by the number of nodes finds every way;
* **`Guarded.rootPath`** — the root path of a node, by collecting relations;
* **`Guarded.tokensWithPaths`** — the tokens with their root paths;
* **`root_path_exact`** — what the walk finds, and what the tokens of a tree carry. -/

namespace Entailment

namespace Parents

variable {ps : Parents} {bound k node head : Nat} {way : List Nat}

/-- The way from a node up to its root, both ends included. -/
inductive Way (ps : Parents) : Nat → List Nat → Prop
  /-- A root is its own way. -/
  | root {node : Nat} (h : ps.governor node = none) : Way ps node [node]
  /-- The way of any other node goes on at its parent. -/
  | step {node head : Nat} {way : List Nat} (h : ps.governor node = some head)
      (hway : Way ps head way) : Way ps node (node :: way)

/-- From a root a walk with any room is the root alone. -/
theorem climb_of_root (hg : ps.governor node = none) : ps.climb (bound + 1) node = some [node] := by
  rw [climb, hg]

/-- From any other node the walk goes on at the parent with less room. -/
theorem climb_of_governor (hg : ps.governor node = some head) :
    ps.climb (bound + 1) node = (ps.climb bound head).map (node :: ·) := by
  rw [climb, hg]

/-- A walk finds the ways that pass no more nodes than its bound. -/
theorem climb_eq_some_iff :
    ps.climb bound node = some way ↔ ps.Way node way ∧ way.length ≤ bound := by
  induction bound generalizing node way with
  | zero =>
      refine iff_of_false (by simp [climb]) ?_
      rintro ⟨hway, hlen⟩
      cases hway <;> simp at hlen
  | succ bound ih =>
      cases hg : ps.governor node with
      | none =>
          rw [climb_of_root hg]
          constructor
          · rintro ⟨⟩
            exact ⟨.root hg, by simp⟩
          · rintro ⟨hway, -⟩
            cases hway with
            | root => rfl
            | step h => cases hg.symm.trans h
      | some head =>
          simp only [climb_of_governor hg, Option.map_eq_some_iff, ih]
          constructor
          · rintro ⟨rest, ⟨hrest, hlen⟩, rfl⟩
            exact ⟨.step hg hrest, Nat.succ_le_succ hlen⟩
          · rintro ⟨hway, hlen⟩
            cases hway with
            | root h => cases hg.symm.trans h
            | step h hrest =>
                cases hg.symm.trans h
                exact ⟨_, ⟨hrest, Nat.le_of_succ_le_succ hlen⟩, rfl⟩

/-- Where a way ends, the node stands as deep as there are steps. -/
theorem Way.exists_atDepth (h : ps.Way node way) : ∃ k, way.length = k + 1 ∧ ps.AtDepth k node := by
  induction h with
  | root h => exact ⟨0, rfl, atDepth_zero.2 h⟩
  | step h _ ih =>
      obtain ⟨k, hk, hd⟩ := ih
      exact ⟨k + 1, congrArg (· + 1) hk, atDepth_succ.2 ⟨_, h, hd⟩⟩

/-- No node stands deeper than there are nodes: a longer walk would pass one of them twice. -/
theorem AtDepth.lt_length (hr : ps.InRange) (hnode : node < ps.length) (hd : ps.AtDepth k node) :
    k < ps.length := by
  obtain ⟨r, hup, -⟩ := id hd
  by_contra hle
  obtain ⟨j, rfl⟩ := Nat.exists_eq_add_of_le (Nat.not_lt.1 hle)
  obtain ⟨a, ha, -⟩ := exists_up_of_up_add hup
  obtain ⟨i, c, hc, hcycle⟩ := exists_onCycle_of_up hr hnode ha
  obtain ⟨e, -, he⟩ := hd.above hc
  exact he.not_onCycle hcycle

/-- A walk of as many nodes as there are finds every way. -/
theorem climb_length_eq_some_iff (hr : ps.InRange) (hnode : node < ps.length) :
    ps.climb ps.length node = some way ↔ ps.Way node way := by
  rw [climb_eq_some_iff, and_iff_left_iff_imp]
  intro hway
  obtain ⟨k, hk, hd⟩ := hway.exists_atDepth
  have := hd.lt_length hr hnode
  omega

end Parents

/-- The relation of the token at a position. -/
def Fragment.relationAt (f : Fragment) (position : Nat) : String :=
  (f[position]?.map Token.relation).getD ""

namespace Guarded

variable {ps : Parents} {tokens : List Token} {node : Nat}

/-- While there are fewer relations than nodes, there is room for one more. -/
theorem room_concat {relations : List String} (token : Token) (room : relations.length ≤ ps.length)
    (full : relations.length ≠ ps.length) :
    (relations ++ [token.relation]).length ≤ ps.length := by
  rw [List.length_append, List.length_singleton]
  omega

/-- The relations from a node on up to its root, behind those collected so far. The walk from
`start` gives up when there are as many relations as nodes. -/
def relationsFrom (ps : Parents) (tokens : List Token) (start : Nat) (relations : List String)
    (room : relations.length ≤ ps.length) : Option Nat → ExceptT TreeError Option (List String)
  | none => return relations
  | some node =>
    if full : relations.length = ps.length then throw (.cycle start)
    else do
      let token ← (tokens[node]? : Option Token)
      let parent ← (ps[node]? : Option (Option Nat))
      relationsFrom ps tokens start (relations ++ [token.relation]) (room_concat token room full)
        parent
termination_by ps.length - relations.length

/-- The relations from a node up to its root, joined. -/
def rootPath (ps : Parents) (tokens : List Token) (node : Nat) : ExceptT TreeError Option String :=
  Text.joinWith Tree.pathSeparator <$> relationsFrom ps tokens node [] (Nat.zero_le _) (some node)

/-- The tokens with their root paths, or the first node whose walk gives up. -/
def tokensWithPaths (ps : Parents) (tokens : List Token) :
    ExceptT TreeError Option (List Token) := do
  let paths ← (List.range ps.length).mapM (rootPath ps tokens)
  return List.zipWith Token.withPath tokens paths

/-- Above a root no relation is added. -/
theorem relationsFrom_none {start : Nat} {relations : List String}
    (room : relations.length ≤ ps.length) :
    relationsFrom ps tokens start relations room none = return relations := by
  rw [relationsFrom]

section

variable (hlen : tokens.length = ps.length) (hnode : node < ps.length) {start : Nat}
  {relations : List String}

include hlen hnode

/-- As long as there are fewer relations than nodes, the walk goes on at the parent. -/
theorem relationsFrom_some (room : relations.length ≤ ps.length)
    (room' : (relations ++ [Fragment.relationAt tokens node]).length ≤ ps.length) :
    relationsFrom ps tokens start relations room (some node) =
      relationsFrom ps tokens start (relations ++ [Fragment.relationAt tokens node]) room'
        (ps.governor node) := by
  have hfull : relations.length ≠ ps.length := by
    rw [List.length_append, List.length_singleton] at room'
    omega
  have htoken : tokens[node]? = some tokens[node] := List.getElem?_eq_getElem _
  have hparent : ps[node]? = some (ps.governor node) := by
    rw [Parents.governor, List.getElem?_eq_getElem hnode]
    rfl
  rw [relationsFrom, dif_neg hfull, htoken, hparent]
  simp only [Fragment.relationAt, htoken]
  rfl

/-- What is collected from a node on are the relations of the walk with the rest of the bound. -/
theorem relationsFrom_eq {bound : Nat} (hr : ps.InRange) (room : relations.length ≤ ps.length)
    (hbound : relations.length + bound = ps.length) :
    relationsFrom ps tokens start relations room (some node) =
      match ps.climb bound node with
      | none => throw (.cycle start)
      | some way => return relations ++ way.map (Fragment.relationAt tokens) := by
  induction bound generalizing node relations with
  | zero =>
      rw [relationsFrom, dif_pos (by omega)]
      rfl
  | succ bound ih =>
      rw [relationsFrom_some hlen hnode room (by simp; omega)]
      cases hg : ps.governor node with
      | none =>
          rw [relationsFrom_none, Parents.climb_of_root hg]
          rfl
      | some head =>
          rw [ih (hr node head hg) _ (by simp; omega), Parents.climb_of_governor hg]
          cases ps.climb bound head with
          | none => rfl
          | some way => simp only [Option.map_some, List.map_cons, List.append_assoc,
              List.singleton_append]

/-- The walk over relations is the walk over nodes. -/
theorem rootPath_eq (hr : ps.InRange) :
    rootPath ps tokens node =
      match ps.climb ps.length node with
      | none => throw (.cycle node)
      | some way =>
        return Text.joinWith Tree.pathSeparator (way.map (Fragment.relationAt tokens)) := by
  rw [rootPath, relationsFrom_eq hlen hnode hr (Nat.zero_le _) (Nat.zero_add _)]
  cases ps.climb ps.length node <;> rfl

/-- A node without a way to a root is refused. -/
theorem rootPath_eq_error_iff (hr : ps.InRange) :
    (rootPath ps tokens node).run = some (.error (.cycle node)) ↔ ¬∃ way, ps.Way node way := by
  simp only [← Parents.climb_length_eq_some_iff hr hnode]
  rw [rootPath_eq hlen hnode hr]
  cases ps.climb ps.length node with
  | none => exact iff_of_true rfl (by simp)
  | some way => exact iff_of_false (fun h => by cases h) (not_not.2 ⟨way, rfl⟩)

/-- A node with a way to a root has the relations of that way as its root path. -/
theorem rootPath_eq_ok_iff (hr : ps.InRange) {path : String} :
    (rootPath ps tokens node).run = some (.ok path) ↔ ∃ way, ps.Way node way ∧
      path = Text.joinWith Tree.pathSeparator (way.map (Fragment.relationAt tokens)) := by
  simp only [← Parents.climb_length_eq_some_iff hr hnode]
  rw [rootPath_eq hlen hnode hr]
  cases ps.climb ps.length node with
  | none => exact iff_of_false (fun h => by cases h) (by simp)
  | some way =>
      constructor
      · intro h
        cases h
        exact ⟨way, rfl, rfl⟩
      · rintro ⟨way', hway, rfl⟩
        cases hway
        rfl

end

/-! ## The tokens of a tree -/

/-- In a tree no walk gives up. -/
theorem rootPath_tree {t : Tree} (hnode : node < t.size) :
    rootPath t.parents t.given node = pure (t.path node) := by
  rw [rootPath_eq t.length_parents.symm hnode t.governor_lt,
    show t.parents.climb t.parents.length node = some (t.ancestry node) from
      Tree.climb_ancestry hnode]
  rfl

/-- The same computation on every element of a list has an answer if it has one for each. -/
theorem mapM_eq_pure_map {m : Type → Type} [Monad m] [LawfulMonad m] {β γ : Type} {f : β → m γ}
    {g : β → γ} {xs : List β} (h : ∀ x ∈ xs, f x = pure (g x)) : xs.mapM f = pure (xs.map g) := by
  induction xs with
  | nil => rfl
  | cons x xs ih =>
      rw [List.mapM_cons, h x List.mem_cons_self, ih fun y hy => h y (List.mem_cons_of_mem _ hy)]
      simp only [pure_bind, List.map_cons]

/-- The tokens of a tree carry the root paths of the nodes. -/
theorem tokens_eq_zipWith (t : Tree) :
    t.tokens = List.zipWith Token.withPath t.given ((List.range t.size).map t.path) := by
  suffices h : ∀ n ≤ t.given.length, (List.range n).filterMap t.token? =
      List.zipWith Token.withPath (t.given.take n) ((List.range n).map t.path) by
    rw [Tree.tokens, h t.size t.length_parents.le, Tree.size, t.length_parents, List.take_length]
  intro n hn
  induction n with
  | zero => rfl
  | succ n ih =>
      have htoken : t.given[n]? = some t.given[n] := List.getElem?_eq_getElem _
      rw [List.range_succ, List.filterMap_append, List.map_append, List.take_add_one,
        List.zipWith_append (by simp; omega), ih (by omega), htoken]
      simp [Tree.token?, htoken]

/-- The token of a node is the given one with the path of the node. -/
theorem getElem?_tokens (t : Tree) (node : Nat) :
    t.tokens[node]? = t.given[node]?.map (·.withPath (t.path node)) := by
  rw [tokens_eq_zipWith, List.getElem?_zipWith]
  cases htoken : t.given[node]? with
  | none => rfl
  | some token =>
      have hnode : node < t.size :=
        Nat.lt_of_lt_of_eq (List.getElem?_eq_some_iff.1 htoken).1 t.length_parents.symm
      rw [List.getElem?_map, List.getElem?_range hnode]
      rfl

/-- The tokens of a tree carry the root paths that the walks find. -/
theorem tokensWithPaths_tree (t : Tree) : tokensWithPaths t.parents t.given = pure t.tokens := by
  have hpaths : (List.range t.parents.length).mapM (rootPath t.parents t.given) =
      pure ((List.range t.size).map t.path) :=
    mapM_eq_pure_map fun node hnode => rootPath_tree (List.mem_range.1 hnode)
  rw [tokensWithPaths, hpaths, pure_bind, tokens_eq_zipWith]

end Guarded

open Guarded in
/-- Where all heads are nodes and every node has a token, the bounded walk from a node is refused
exactly if no way leads from the node to a root, and otherwise it finds the relations on that way,
joined. Once the search has found no cycle, no walk is refused. The tokens of a tree that is built
are the given ones with the root paths that the walks find: for a root its relation, and for any
other node its relation, the separator and the root path of its parent. -/
theorem root_path_exact {ps : Parents} {tokens : List Token} (hr : ps.InRange)
    (hlen : tokens.length = ps.length) :
    (∀ node < ps.length,
      ((rootPath ps tokens node).run = some (.error (.cycle node)) ↔ ¬∃ way, ps.Way node way) ∧
      ∀ path, (rootPath ps tokens node).run = some (.ok path) ↔
        ∃ way, ps.Way node way ∧
          path = Text.joinWith "#" (way.map (Fragment.relationAt tokens))) ∧
    ((∀ node, ps.governor node ≠ some node) → ps.cycleNode? = none →
      ∀ node < ps.length, ∃ path, (rootPath ps tokens node).run = some (.ok path)) ∧
    ∀ labels t, Tree.build ps labels tokens = .ok t →
      (tokensWithPaths ps tokens).run = some (.ok t.tokens) ∧
      (∀ node, t.tokens[node]? =
        tokens[node]?.map fun x : Token => { x with path := some (t.path node) }) ∧
      ∀ node x, tokens[node]? = some x →
        (ps.governor node = none → t.path node = x.relation) ∧
        ∀ head, ps.governor node = some head →
          t.path node = x.relation ++ "#" ++ t.path head := by
  refine ⟨fun node hnode => ⟨rootPath_eq_error_iff hlen hnode hr,
    fun path => rootPath_eq_ok_iff hlen hnode hr⟩, fun hself hnone node hnode => ?_,
    fun labels t ht => ?_⟩
  · have hends := (Parents.forall_isSome_climb_iff hr).2
      ((Parents.cycleNode?_spec hr hself).2 hnone) node hnode
    obtain ⟨way, hway⟩ := Option.isSome_iff_exists.1 hends
    exact ⟨_, (rootPath_eq_ok_iff hlen hnode hr).2
      ⟨way, (Parents.climb_length_eq_some_iff hr hnode).1 hway, rfl⟩⟩
  · obtain ⟨-, rfl, rfl⟩ := Tree.of_build ht
    refine ⟨congrArg ExceptT.run (tokensWithPaths_tree t), getElem?_tokens t,
      fun node x hx => ?_⟩
    have hnode : node < t.size := Nat.lt_of_lt_of_eq (List.getElem?_eq_some_iff.1 hx).1 hlen
    have hrelation : t.relation node = x.relation := by
      rw [Tree.relation, hx]
      rfl
    refine ⟨fun hroot => ?_, fun head hg => ?_⟩
    · rw [Tree.path_of_root hnode hroot, hrelation]
    · rw [Tree.path_of_parent hg, hrelation]
      rfl

open Guarded in
/-- A way through all nodes is found, and two nodes that are each other's heads are refused. -/
theorem root_path_exact_limits :
    (rootPath [some 1, some 2, none]
        [.make 0 "The" "the" "DT" (some 1) "det",
          .make 1 "assassin" "assassin" "NN" (some 2) "nsubjpass",
          .make 2 "convicted" "convict" "VBN" none "ROOT"] 0).run =
      some (.ok "det#nsubjpass#ROOT") ∧
    (rootPath [some 1, some 0]
        [.make 0 "a" "a" "_" (some 1) "x", .make 1 "b" "b" "_" (some 0) "y"] 0).run =
      some (.error (.cycle 0)) := by
  have hchain : Parents.InRange [some 1, some 2, none] := by
    intro node head h
    rcases node with _ | _ | _ | node <;> cases h <;> decide
  have hpair : Parents.InRange [some 1, some 0] := by
    intro node head h
    rcases node with _ | _ | node <;> cases h <;> decide
  constructor
  · exact (((root_path_exact hchain rfl).1 0 (by decide)).2 _).2
      ⟨[0, 1, 2], .step rfl (.step rfl (.root rfl)), rfl⟩
  · refine ((root_path_exact hpair rfl).1 0 (by decide)).1.2 ?_
    rintro ⟨way, hway⟩
    obtain ⟨k, -, hd⟩ := hway.exists_atDepth
    exact hd.not_onCycle ⟨2, by decide, rfl⟩

end Entailment
