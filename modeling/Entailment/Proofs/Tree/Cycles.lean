import Entailment.Proofs.Tree.Ancestry
import Mathlib.Data.Finset.Card

/-! # Cycles of a parent array

Going from child to parent, a walk ends at a root or comes back to a node it has passed.

* **`Parents.Below`** — steps from child to parent lead from one node to another;
* **`Parents.OnCycle`** — they lead from a node back to it;
* **`Parents.exists_onCycle_of_up`** — a walk of as many steps as there are nodes meets a cycle;
* **`Parents.OnCycle.of_related`** — a relation between nodes that carries over to their parents
  carries over cycles;
* **`Parents.forall_isSome_climb_iff`** — all walks end exactly if there is no cycle. -/

namespace Entailment.Parents

variable {ps : Parents} {a b c k node head : Nat}

/-- One or more steps from child to parent lead from `node` to `a`. -/
def Below (ps : Parents) (node a : Nat) : Prop := ∃ k, 0 < k ∧ ps.up k node = some a

/-- One or more steps from child to parent lead from the node back to it. -/
def OnCycle (ps : Parents) (node : Nat) : Prop := ps.Below node node

/-- Every parent is a node. -/
def InRange (ps : Parents) : Prop := ∀ node head, ps.governor node = some head → head < ps.length

/-- A node is below its parent. -/
theorem Below.of_governor (h : ps.governor node = some head) : ps.Below node head :=
  ⟨1, Nat.one_pos, by rwa [up_one]⟩

/-- What is below something below a node is below that node. -/
theorem Below.trans (hab : ps.Below a b) (hbc : ps.Below b c) : ps.Below a c := by
  obtain ⟨j, hj, hab⟩ := hab
  obtain ⟨k, -, hbc⟩ := hbc
  exact ⟨j + k, by omega, by rw [up_add, hab]; exact hbc⟩

/-- What stands below something is a node. -/
theorem Below.lt_length (h : ps.Below node a) : node < ps.length := by
  obtain ⟨k, hk, hu⟩ := h
  exact lt_length_of_up hu hk

/-- A node on a cycle is the parent of one. -/
theorem OnCycle.exists_governor (h : ps.OnCycle node) : ∃ c, ps.governor c = some node := by
  obtain ⟨k, hk, hu⟩ := h
  obtain ⟨k, rfl⟩ := Nat.exists_eq_succ_of_ne_zero hk.ne'
  obtain ⟨c, -, hc⟩ := up_succ_eq_some_iff.1 hu
  exact ⟨c, hc⟩

/-- A node that is its own parent is on a cycle. -/
theorem OnCycle.of_governor_self (h : ps.governor node = some node) : ps.OnCycle node :=
  Below.of_governor h

/-- A walk that goes on for `j + k` steps has gone on for `j`. -/
theorem exists_up_of_up_add {j : Nat} (h : ps.up (j + k) node = some a) :
    ∃ c, ps.up j node = some c ∧ ps.up k c = some a :=
  Option.bind_eq_some_iff.1 (up_add j k node ▸ h)

/-- A walk stays among the nodes. -/
theorem InRange.up_lt (hr : ps.InRange) (hnode : node < ps.length) (h : ps.up k node = some a) :
    a < ps.length := by
  cases k with
  | zero =>
      cases h
      exact hnode
  | succ k =>
      obtain ⟨c, -, hc⟩ := up_succ_eq_some_iff.1 h
      exact hr c a hc

/-- A walk is too long for its bound exactly if it goes on for that many steps. -/
theorem climb_eq_none_iff {bound : Nat} :
    ps.climb bound node = none ↔ ∃ a, ps.up bound node = some a := by
  induction bound generalizing node with
  | zero => simp [climb]
  | succ bound ih =>
      rw [climb, up_succ]
      cases ps.governor node with
      | none => simp
      | some head => simpa using ih

/-- A walk of as many steps as there are nodes meets a cycle: two of the nodes it passes are the
same. -/
theorem exists_onCycle_of_up (hr : ps.InRange) (hnode : node < ps.length)
    (h : ps.up ps.length node = some a) : ∃ k c, ps.up k node = some c ∧ ps.OnCycle c := by
  have hpassed : ∀ k ∈ Finset.range (ps.length + 1), ∃ c, ps.up k node = some c := by
    intro k hk
    have hk : k ≤ ps.length := Nat.lt_succ_iff.1 (Finset.mem_range.1 hk)
    obtain ⟨c, hc, -⟩ := exists_up_of_up_add (k := ps.length - k)
      (show ps.up (k + (ps.length - k)) node = some a by rwa [Nat.add_sub_cancel' hk])
    exact ⟨c, hc⟩
  choose! passed hpassed using hpassed
  have hmaps : Set.MapsTo passed (Finset.range (ps.length + 1)) (Finset.range ps.length) :=
    fun k hk => Finset.mem_coe.2 (Finset.mem_range.2 (hr.up_lt hnode (hpassed k hk)))
  obtain ⟨i, hi, j, hj, hne, heq⟩ :=
    Finset.exists_ne_map_eq_of_card_lt_of_maps_to (by simp) hmaps
  wlog hij : i < j generalizing i j
  · exact this j hj i hi hne.symm heq.symm (by omega)
  refine ⟨i, passed i, hpassed i hi, j - i, by omega, ?_⟩
  have hback := hpassed j hj
  rwa [← Nat.add_sub_cancel' hij.le, up_add, hpassed i hi, Nat.add_sub_cancel' hij.le,
    ← heq] at hback

/-- A node that stands some way below a root is not on a cycle. -/
theorem AtDepth.not_onCycle (hd : ps.AtDepth k node) : ¬ps.OnCycle node := by
  rintro ⟨j, hj, hu⟩
  obtain ⟨e, rfl, he⟩ := hd.above hu
  have := hd.unique he
  omega

/-- Where parents rank lower than their children, no node is on a cycle. -/
theorem not_onCycle_of_rank (rank : Nat → Nat)
    (hrank : ∀ x p, ps.governor x = some p → rank p < rank x) : ¬ps.OnCycle node := by
  have hwalk : ∀ k x y, ps.up k x = some y → rank y + k ≤ rank x := by
    intro k
    induction k with
    | zero =>
        intro x y h
        cases h
        exact le_rfl
    | succ k ih =>
        intro x y h
        obtain ⟨p, hp, hpy⟩ := Option.bind_eq_some_iff.1 (up_succ k x ▸ h)
        have := hrank x p hp
        have := ih p y hpy
        omega
  rintro ⟨k, hk, h⟩
  have := hwalk k node node h
  omega

/-! ## Related nodes -/

section

variable {qs : Parents} {R : Nat → Nat → Prop} {node' : Nat}
  (hstep : ∀ x p x', R x x' → ps.governor x = some p → ∃ p', R p p' ∧ qs.governor x' = some p')

include hstep

/-- Where related nodes have related parents, related walks lead to related nodes. -/
theorem up_of_related (hnode : R node node') (h : ps.up k node = some a) :
    ∃ a', R a a' ∧ qs.up k node' = some a' := by
  induction k generalizing node node' with
  | zero =>
      cases h
      exact ⟨node', hnode, rfl⟩
  | succ k ih =>
      obtain ⟨p, hp, hpa⟩ := Option.bind_eq_some_iff.1 (up_succ k node ▸ h)
      obtain ⟨p', hpp', hp'⟩ := hstep node p node' hnode hp
      obtain ⟨a', haa', ha'⟩ := ih hpp' hpa
      exact ⟨a', haa', by rw [up_succ, hp']; exact ha'⟩

/-- Where related nodes have related parents, what is related to a node on a cycle is on a cycle, if
it is the only one. -/
theorem OnCycle.of_related (hunique : ∀ x', R node x' → x' = node') (hnode : R node node')
    (h : ps.OnCycle node) : qs.OnCycle node' := by
  obtain ⟨k, hk, hu⟩ := h
  obtain ⟨a', haa', ha'⟩ := up_of_related hstep hnode hu
  exact ⟨k, hk, hunique a' haa' ▸ ha'⟩

end

/-! ## Walks that end -/

/-- All walks reach a root exactly if no node is on a cycle. -/
theorem forall_isSome_climb_iff (hr : ps.InRange) :
    (∀ node < ps.length, (ps.climb ps.length node).isSome) ↔ ∀ node, ¬ps.OnCycle node := by
  constructor
  · intro hclimb node hcycle
    obtain ⟨k, -, hd⟩ := isSome_climb.1 (hclimb node hcycle.lt_length)
    exact hd.not_onCycle hcycle
  · intro hcycle node hnode
    rw [Option.isSome_iff_ne_none, ne_eq, climb_eq_none_iff]
    rintro ⟨a, ha⟩
    obtain ⟨k, c, -, hc⟩ := exists_onCycle_of_up hr hnode ha
    exact hcycle c hc

end Entailment.Parents
