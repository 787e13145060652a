import Entailment.Proofs.Edit.InPlaceTables

/-! # Backtracking in place ends

Backtracking ends, without ever leaving a table or falling below zero, whatever the comparison of
costs says: every round leads to runs of positions that end earlier, or to two whole subtrees that
end as the runs do.

* **`Guarded.Tables.Replays`** — backtracking through two runs ends with their edits;
* **`Guarded.Tables.replays`** — it does for all closed runs;
* **`distance_in_place`** — what is computed in place is the distance and its script. -/

namespace Entailment

namespace Guarded.Tables

variable {α : Type} [Cost α] {T : Tables α} {c : Comparison α} {l₁ l₂ a b r : Nat}
  {forests subtrees : Table α} {s : Table α × List Operation}

/-! ## The last edit -/

/-- In the first column the last edit is a deletion. -/
theorem lastEdit_succ_zero
    (h : forests.HoldsAt (c.forestCost l₁ l₂) fun a' b' => a' ≤ a + 1 ∧ b' ≤ 0) (x y : Nat) :
    T.lastEdit forests x y (a + 1) 0 = some .delete := by
  rw [lastEdit, h (a + 1) 0 (by omega)]
  rfl

/-- In the first row the last edit is an insertion. -/
theorem lastEdit_zero_succ
    (h : forests.HoldsAt (c.forestCost l₁ l₂) fun a' b' => a' ≤ 0 ∧ b' ≤ b + 1) (x y : Nat) :
    T.lastEdit forests x y 0 (b + 1) = some .insert := by
  rw [lastEdit, h 0 (b + 1) (by omega)]
  rfl

/-- From a table that holds the costs, the last edit is chosen as from the costs. -/
theorem lastEdit_succ_succ (hT : T.Lists c) (hx : l₁ + a < c.t.size) (hy : l₂ + b < c.h.size)
    (h : forests.HoldsAt (c.forestCost l₁ l₂) fun a' b' => a' ≤ a + 1 ∧ b' ≤ b + 1) :
    T.lastEdit forests (l₁ + a + 1) (l₂ + b + 1) (a + 1) (b + 1) =
      some (c.lastEdit Cost.near l₁ l₂ a b) := by
  have hdelete := deleting_eq hT hx (h a (b + 1) (by omega))
  have hinsert := inserting_eq hT hy (h (a + 1) b (by omega))
  rw [← Comparison.deleting] at hdelete
  rw [← Comparison.inserting] at hinsert
  rw [Comparison.lastEdit]
  simp only [lastEdit, lastEdit.deletes, h (a + 1) (b + 1) (by omega), hdelete, hinsert,
    Option.bind_eq_bind, Option.bind_some, Option.map_some, Nat.add_eq_zero_iff, Nat.one_ne_zero,
    and_false, if_false]
  split
  · rfl
  · split <;> rfl

/-! ## One round -/

/-- The numbers of a run are counted from its first. -/
theorem psub_first (l k : Nat) : (l + k + 1).psub (l + 1) = some k := Nat.psub_eq_some.2 (by omega)

/-- Where nothing is left on either side, backtracking is over. -/
theorem replay_zero_zero : T.replay (r + 1) forests (l₁ + 1) (l₂ + 1) l₁ l₂ s = some s := by
  rw [replay, if_neg (by omega)]

/-- A round that deletes goes on before the last text node. -/
theorem replay_delete (hT : T.Lists c) (hx : l₁ + a < c.t.size)
    (hlast : T.lastEdit forests (l₁ + (a + 1)) (l₂ + b) (a + 1) b = some .delete) :
    T.replay (r + 1) forests (l₁ + 1) (l₂ + 1) (l₁ + (a + 1)) (l₂ + b) s =
      T.replay r forests (l₁ + 1) (l₂ + 1) (l₁ + a) (l₂ + b)
        (s.1, .delete (c.t.node (l₁ + a)) :: s.2) := by
  rw [replay, if_pos (by omega)]
  simp only [psub_first, hlast, Option.bind_eq_bind, Option.bind_some]
  simp only [← Nat.add_assoc, succ_psub_one, hT.t.node _ hx, Option.bind_some]

/-- A round that inserts goes on before the last hypothesis node. -/
theorem replay_insert (hT : T.Lists c) (hy : l₂ + b < c.h.size)
    (hlast : T.lastEdit forests (l₁ + a) (l₂ + (b + 1)) a (b + 1) = some .insert) :
    T.replay (r + 1) forests (l₁ + 1) (l₂ + 1) (l₁ + a) (l₂ + (b + 1)) s =
      T.replay r forests (l₁ + 1) (l₂ + 1) (l₁ + a) (l₂ + b)
        (s.1, .insert (c.h.node (l₂ + b)) :: s.2) := by
  rw [replay, if_pos (by omega)]
  simp only [psub_first, hlast, Option.bind_eq_bind, Option.bind_some]
  simp only [← Nat.add_assoc, succ_psub_one, hT.h.node _ hy, Option.bind_some]

section

variable (hT : T.Lists c) (hx : l₁ + a < c.t.size) (hy : l₂ + b < c.h.size)
  (hlast : T.lastEdit forests (l₁ + (a + 1)) (l₂ + (b + 1)) (a + 1) (b + 1) = some .pair)

include hT hx hy hlast

/-- A round that pairs two whole forests replaces the last nodes and goes on before both. -/
theorem replay_whole (whole : c.t.leftmost (l₁ + a) = l₁ ∧ c.h.leftmost (l₂ + b) = l₂) :
    T.replay (r + 1) forests (l₁ + 1) (l₂ + 1) (l₁ + (a + 1)) (l₂ + (b + 1)) s =
      T.replay r forests (l₁ + 1) (l₂ + 1) (l₁ + a) (l₂ + b)
        (s.1, .replace (c.t.node (l₁ + a)) (c.h.node (l₂ + b)) :: s.2) := by
  rw [replay, if_pos (by omega)]
  simp only [psub_first, hlast, Option.bind_eq_bind, Option.bind_some]
  simp only [← Nat.add_assoc, succ_psub_one, hT.t.node _ hx, hT.h.node _ hy, hT.t.leftmost _ hx,
    hT.h.leftmost _ hy, Option.bind_some, Nat.add_right_cancel_iff, if_pos whole]

/-- A round that pairs two subtrees backtracks through them first, and then goes on before them. -/
theorem replay_apart (apart : ¬(c.t.leftmost (l₁ + a) = l₁ ∧ c.h.leftmost (l₂ + b) = l₂)) :
    T.replay (r + 1) forests (l₁ + 1) (l₂ + 1) (l₁ + (a + 1)) (l₂ + (b + 1)) s =
      (T.backtrack r (l₁ + a + 1) (c.t.leftmost (l₁ + a) + 1) (l₂ + b + 1)
        (c.h.leftmost (l₂ + b) + 1) s).bind
        (T.replay r forests (l₁ + 1) (l₂ + 1) (c.t.leftmost (l₁ + a))
          (c.h.leftmost (l₂ + b))) := by
  rw [replay, if_pos (by omega)]
  simp only [psub_first, hlast, Option.bind_eq_bind, Option.bind_some]
  simp only [← Nat.add_assoc, succ_psub_one, hT.t.leftmost _ hx, hT.h.leftmost _ hy,
    Option.bind_some, Nat.add_right_cancel_iff, if_neg apart, backtrack, Option.bind_eq_bind,
    Option.bind_assoc]

end

/-! ## All rounds -/

/-- The edits that the costs of two runs lead to, by nodes. -/
def edits (c : Comparison α) (l₁ l₂ a b : Nat) : List Operation :=
  (c.walk Cost.near l₁ l₂ a b).map (Operation.relabel c.t.node c.h.node)

/-- From every forest table that holds the costs of two runs, backtracking puts their edits in front
of those found so far, and all subtree distances stay known. The rank of the two runs bounds the
rounds that it takes. -/
def Replays (T : Tables α) (c : Comparison α) (l₁ l₂ a b : Nat) : Prop :=
  ∀ (r : Nat) (forests subtrees : Table α) (out : List Operation),
    PostOrder.rank c.t c.h l₁ l₂ a b < r →
    forests.HoldsAt (c.forestCost l₁ l₂) (fun a' b' => a' ≤ a ∧ b' ≤ b) → Complete c subtrees →
      ∃ subtrees', T.replay r forests (l₁ + 1) (l₂ + 1) (l₁ + a) (l₂ + b) (subtrees, out) =
          some (subtrees', edits c l₁ l₂ a b ++ out) ∧
        Complete c subtrees'

/-- Backtracking fills a table of its own first, which holds the costs. -/
theorem Replays.exists_backtrack (h : Replays T c l₁ l₂ a b) (hT : T.Lists c)
    (hm : l₁ + a ≤ c.t.size) (hn : l₂ + b ≤ c.h.size) (closed₁ : c.t.Closed l₁ (l₁ + a))
    (closed₂ : c.h.Closed l₂ (l₂ + b)) (hr : PostOrder.rank c.t c.h l₁ l₂ a b < r)
    (hcomplete : Complete c subtrees) (out : List Operation) :
    ∃ subtrees', T.backtrack r (l₁ + a) (l₁ + 1) (l₂ + b) (l₂ + 1) (subtrees, out) =
        some (subtrees', edits c l₁ l₂ a b ++ out) ∧
      Complete c subtrees' := by
  obtain ⟨forests, subtrees₁, htable, hholds, hkeeps, -⟩ :=
    exists_forestTable hT (hcomplete.ready hm hn closed₁ closed₂)
  obtain ⟨subtrees₂, hrun, hcomplete₂⟩ :=
    h r forests subtrees₁ out hr hholds (hcomplete.keeps hkeeps)
  refine ⟨subtrees₂, ?_, hcomplete₂⟩
  rw [backtrack, htable]
  exact hrun

/-- One round is enough where the runs of lower rank have enough rounds. -/
theorem Replays.of_round
    (h : ∀ (r : Nat) (forests subtrees : Table α) (out : List Operation),
      (∀ k₁ k₂ m n, PostOrder.rank c.t c.h k₁ k₂ m n < PostOrder.rank c.t c.h l₁ l₂ a b →
        PostOrder.rank c.t c.h k₁ k₂ m n < r) →
      forests.HoldsAt (c.forestCost l₁ l₂) (fun a' b' => a' ≤ a ∧ b' ≤ b) → Complete c subtrees →
        ∃ subtrees', T.replay (r + 1) forests (l₁ + 1) (l₂ + 1) (l₁ + a) (l₂ + b) (subtrees, out) =
            some (subtrees', edits c l₁ l₂ a b ++ out) ∧
          Complete c subtrees') :
    Replays T c l₁ l₂ a b := by
  intro r forests subtrees out hr
  obtain ⟨r, rfl⟩ : ∃ k, r = k + 1 := ⟨r - 1, by omega⟩
  exact h r forests subtrees out fun _ _ _ _ hlt => by omega

/-- If the last subtrees are not all of their runs, what is inside them is found first, and then
what is before them. The inner table ends where the outer one does, but as its runs are whole
subtrees, its rank is lower. -/
theorem replays_apart (hT : T.Lists c) (hm : l₁ + (a + 1) ≤ c.t.size)
    (hn : l₂ + (b + 1) ≤ c.h.size) (closed₁ : c.t.Closed l₁ (l₁ + (a + 1)))
    (closed₂ : c.h.Closed l₂ (l₂ + (b + 1))) (hedit : c.lastEdit Cost.near l₁ l₂ a b = .pair)
    (apart : ¬(c.t.leftmost (l₁ + a) = l₁ ∧ c.h.leftmost (l₂ + b) = l₂))
    (hbefore : Replays T c l₁ l₂ (c.t.leftmost (l₁ + a) - l₁) (c.h.leftmost (l₂ + b) - l₂))
    (hinside : Replays T c (c.t.leftmost (l₁ + a)) (c.h.leftmost (l₂ + b)) (c.t.width (l₁ + a))
      (c.h.width (l₂ + b))) :
    Replays T c l₁ l₂ (a + 1) (b + 1) := by
  refine .of_round fun r forests subtrees out hlower hholds hcomplete => ?_
  have hend₁ := c.t.leftmost_add_width (l₁ + a)
  have hend₂ := c.h.leftmost_add_width (l₂ + b)
  have hle₁ := c.t.leftmost_le_self (l₁ + a)
  have hle₂ := c.h.leftmost_le_self (l₂ + b)
  have hlast := lastEdit_succ_succ hT hm hn hholds
  rw [hedit] at hlast
  have hedits : edits c l₁ l₂ (a + 1) (b + 1) =
      edits c l₁ l₂ (c.t.leftmost (l₁ + a) - l₁) (c.h.leftmost (l₂ + b) - l₂) ++
        edits c (c.t.leftmost (l₁ + a)) (c.h.leftmost (l₂ + b)) (c.t.width (l₁ + a))
          (c.h.width (l₂ + b)) := by
    rw [edits, Comparison.walk_of_apart hedit apart, List.map_append]
    rfl
  obtain ⟨subtrees₁, hback, hcomplete₁⟩ := hinside.exists_backtrack hT (by omega) (by omega)
    (c.t.closed_subtree _) (c.h.closed_subtree _)
    (hlower _ _ _ _ (PostOrder.rank_subtrees_lt apart)) hcomplete out
  obtain ⟨subtrees₂, hrun, hcomplete₂⟩ :=
    hbefore r forests subtrees₁ _ (hlower _ _ _ _ PostOrder.rank_before_lt)
      (fun a' b' h => hholds a' b' (by omega)) hcomplete₁
  rw [hend₁, hend₂] at hback
  rw [Nat.add_sub_of_le closed₁.le_leftmost, Nat.add_sub_of_le closed₂.le_leftmost] at hrun
  refine ⟨subtrees₂, ?_, hcomplete₂⟩
  rw [replay_apart hT hm hn hlast apart, hback, Option.bind_some, hrun, hedits, List.append_assoc]

/-- If an edit of last positions is taken, what is before it is found next. -/
theorem Replays.concat {a' b' : Nat} {e : Operation} (hprev : Replays T c l₁ l₂ a b)
    (hle : a ≤ a' ∧ b ≤ b') (hlt : a + b < a' + b')
    (hwalk : c.walk Cost.near l₁ l₂ a' b' = c.walk Cost.near l₁ l₂ a b ++ [e])
    (hround : ∀ (r : Nat) (forests : Table α) (s : Table α × List Operation),
      forests.HoldsAt (c.forestCost l₁ l₂) (fun i j => i ≤ a' ∧ j ≤ b') →
        T.replay (r + 1) forests (l₁ + 1) (l₂ + 1) (l₁ + a') (l₂ + b') s =
          T.replay r forests (l₁ + 1) (l₂ + 1) (l₁ + a) (l₂ + b)
            (s.1, e.relabel c.t.node c.h.node :: s.2)) :
    Replays T c l₁ l₂ a' b' := by
  refine .of_round fun r forests subtrees out hlower hholds hcomplete => ?_
  rw [hround r forests _ hholds, edits, hwalk, List.map_append, List.append_assoc]
  exact hprev r _ _ _ (hlower _ _ _ _ (PostOrder.rank_lt (by omega)))
    (fun i j h => hholds i j (by omega)) hcomplete

/-- Backtracking through closed runs ends, without leaving a table or falling below zero. -/
theorem replays (hT : T.Lists c) (hm : l₁ + a ≤ c.t.size) (hn : l₂ + b ≤ c.h.size)
    (closed₁ : c.t.Closed l₁ (l₁ + a)) (closed₂ : c.h.Closed l₂ (l₂ + b)) :
    Replays T c l₁ l₂ a b := by
  induction l₁, l₂, a, b using PostOrder.runs_induction c.t c.h with
  | nil l₁ l₂ =>
      refine .of_round fun r forests subtrees out _ _ hcomplete => ⟨subtrees, ?_, hcomplete⟩
      rw [edits, Comparison.walk_zero_zero]
      exact replay_zero_zero
  | text l₁ l₂ a ih =>
      refine (ih (by omega) hn closed₁.init closed₂).concat (by omega) (by omega)
        Comparison.walk_succ_zero fun r forests s hholds => ?_
      exact replay_delete hT hm (lastEdit_succ_zero hholds _ _)
  | hypothesis l₁ l₂ b ih =>
      refine (ih hm (by omega) closed₁ closed₂.init).concat (by omega) (by omega)
        Comparison.walk_zero_succ fun r forests s hholds => ?_
      exact replay_insert hT hn (lastEdit_zero_succ hholds _ _)
  | both l₁ l₂ a b ihDelete ihInsert ihReplace ihBefore ihInside =>
      have hend₁ := c.t.leftmost_add_width (l₁ + a)
      have hend₂ := c.h.leftmost_add_width (l₂ + b)
      have hle₁ := c.t.leftmost_le_self (l₁ + a)
      have hle₂ := c.h.leftmost_le_self (l₂ + b)
      cases hedit : c.lastEdit Cost.near l₁ l₂ a b with
      | delete =>
          refine (ihDelete (by omega) hn closed₁.init closed₂).concat (by omega) (by omega)
            (Comparison.walk_of_delete hedit) fun r forests s hholds => ?_
          exact replay_delete hT hm (hedit ▸ lastEdit_succ_succ hT hm hn hholds)
      | insert =>
          refine (ihInsert hm (by omega) closed₁ closed₂.init).concat (by omega) (by omega)
            (Comparison.walk_of_insert hedit) fun r forests s hholds => ?_
          exact replay_insert hT hn (hedit ▸ lastEdit_succ_succ hT hm hn hholds)
      | pair =>
          by_cases whole : c.t.leftmost (l₁ + a) = l₁ ∧ c.h.leftmost (l₂ + b) = l₂
          · refine (ihReplace (by omega) (by omega) closed₁.init closed₂.init).concat (by omega)
              (by omega) (Comparison.walk_of_whole hedit whole) fun r forests s hholds => ?_
            exact replay_whole hT hm hn (hedit ▸ lastEdit_succ_succ hT hm hn hholds) whole
          · exact replays_apart hT hm hn closed₁ closed₂ hedit whole
              (ihBefore (by omega) (by omega) closed₁.before closed₂.before)
              (ihInside whole (by omega) (by omega) (c.t.closed_subtree _) (c.h.closed_subtree _))

/-- Backtracking from the table of the whole forests finds the script. -/
theorem exists_script (hT : T.Lists c) (hcomplete : Complete c subtrees)
    (hr : 2 * (c.t.size + c.h.size) + 1 < r) :
    ∃ subtrees', T.backtrack r c.t.size 1 c.h.size 1 (subtrees, []) =
      some (subtrees', c.script.operations) := by
  have closed₁ : c.t.Closed 0 (0 + c.t.size) := c.t.closed_zero _
  have closed₂ : c.h.Closed 0 (0 + c.h.size) := c.h.closed_zero _
  have hrank : PostOrder.rank c.t c.h 0 0 c.t.size c.h.size < r := by
    rw [PostOrder.rank]
    split <;> omega
  obtain ⟨subtrees', hbacktrack, -⟩ :=
    (replays hT (by omega) (by omega) closed₁ closed₂).exists_backtrack hT (by omega) (by omega)
      closed₁ closed₂ hrank hcomplete []
  simp only [Nat.zero_add, List.append_nil] at hbacktrack
  exact ⟨subtrees', by rw [hbacktrack, c.operations_script, edits]⟩

end Guarded.Tables

open Guarded in
/-- Computed in place, the distance and its script never leave a table and never fall below zero,
whatever the costs are and however they compare, and backtracking ends: two rounds for each node of
the two trees, and two more, are enough, with or without any to spare. What is computed is the
distance and the script. -/
theorem distance_in_place {α : Type} [Cost α] (t h : Tree) (costs : CostModel α) (spare : Nat) :
    Guarded.distance t h costs = some (t.compare h costs).distance ∧
      Guarded.distanceAndScript (2 * (t.size + h.size) + 2 + spare) t h costs =
        some ((t.compare h costs).distance, (t.compare h costs).script) := by
  obtain ⟨T, hT, hlists⟩ := Tables.exists_ofTrees t h costs
  obtain ⟨subtrees, hwhole, hcomplete⟩ := Tables.exists_whole hlists
  have hsizes : (t.compare h costs).t.size = t.size ∧ (t.compare h costs).h.size = h.size :=
    ⟨t.size_positions, h.size_positions⟩
  obtain ⟨subtrees', hscript⟩ := Tables.exists_script hlists hcomplete
    (r := 2 * (t.size + h.size) + 2 + spare) (by omega)
  refine ⟨?_, ?_⟩
  · simp only [Guarded.distance, hT, hwhole, Option.bind_eq_bind, Option.bind_some]
  · simp only [distanceAndScript, hT, hwhole, hlists.t.size, hlists.h.size, hscript,
      Option.bind_eq_bind, Option.bind_some]

end Entailment
