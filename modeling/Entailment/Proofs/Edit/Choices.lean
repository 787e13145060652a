import Entailment.Proofs.Edit.Tolerance
import Entailment.Proofs.Edit.Transposition
import Mathlib.Algebra.Order.Ring.Abs
import Mathlib.Tactic.FieldSimp

/-! # When two walks are the same

How a walk goes depends on how costs are compared. A comparison with another absolute tolerance
leads to the same script exactly if it chooses the same last edits wherever the walk passes: one
other choice and the scripts differ.

* **`Comparison.Visits`** — the forests between which a walk chooses an edit;
* **`Comparison.getLast?_walk`** — the last edit of a script tells how it was chosen;
* **`Comparison.walk_eq_walk_iff`** — when two walks are the same. -/

namespace Entailment

namespace Cost

/-- Larger costs are compared as if the floor were lower. -/
theorem near_mul {k : Rat} (hk : 0 < k) (u v : Rat) :
    Cost.near (k * u) (k * v) = nearFrom (1 / k) u v := by
  rw [near_eq_nearFrom, nearFrom, nearFrom, decide_eq_decide, ← mul_sub, abs_mul, abs_mul, abs_mul,
    abs_of_pos hk, ← mul_max_of_nonneg _ _ hk.le]
  have hscale : tolerance * (1 + k * max |u| |v|) = k * (tolerance * (1 / k + max |u| |v|)) := by
    field_simp
  rw [hscale, mul_le_mul_iff_right₀ hk]

/-- What is too far from a cost stays too far when the same is taken off the cost and no more than
that off the other. -/
theorem not_nearFrom_inside {floor left inner outer v : Rat} (hleft : 0 ≤ left) (hv : 0 ≤ v)
    (hinner : v ≤ inner) (houter : left + v ≤ outer) (hle : outer ≤ left + inner)
    (hfar : ¬nearFrom floor outer (left + v)) : ¬nearFrom floor inner v := by
  rw [nearFrom_iff_of_le (add_nonneg hleft hv) houter, not_le] at hfar
  rw [nearFrom_iff_of_le hv hinner, not_le]
  -- What is taken off beyond the other's share counts in full, but in the tolerance only in part.
  have hshare : 0 ≤ (1 - tolerance) * (left + inner - outer) :=
    mul_nonneg (sub_nonneg.2 tolerance_lt_one.le) (sub_nonneg.2 hle)
  have hmore := mul_nonneg tolerance_pos.le hleft
  linarith

end Cost

/-- The way in which a script ends that has this edit at its end. -/
def Operation.lastEdit : Operation → LastEdit
  | .replace _ _ => .pair
  | .insert _ => .insert
  | .delete _ => .delete

/-- A subtree is its root and the positions from the leftmost leaf up to it. -/
theorem PostOrder.width_eq_succ (o : PostOrder) (p : Nat) :
    o.width p = p - o.leftmost p + 1 := by
  have := o.leftmost_le_self p
  have := o.leftmost_add_width p
  omega

namespace Edits

variable {t h : PostOrder} {l₁ l₂ a b : Nat} {s s' u u' : List Operation}

/-- A script without a node is empty. -/
theorem eq_nil_of_nodes (ht : s.filterMap Operation.textNode? = [])
    (hh : s.filterMap Operation.hypothesisNode? = []) : s = [] := by
  cases s with
  | nil => rfl
  | cons e s => cases e <;> simp [Operation.textNode?, Operation.hypothesisNode?] at ht hh

/-- Scripts that begin with scripts between the same forests have the same beginning. -/
theorem append_inj (hs : Edits t h l₁ l₂ a b s) (hs' : Edits t h l₁ l₂ a b s')
    (heq : s ++ u = s' ++ u') : s = s' ∧ u = u' := by
  -- The longer beginning would edit a node beyond the forests.
  have hstop : ∀ {s s' v : List Operation}, Edits t h l₁ l₂ a b s → Edits t h l₁ l₂ a b s' →
      s' = s ++ v → v = [] := by
    intro s s' v hs hs' happ
    have htext := hs'.textNodes
    have hhyp := hs'.hypothesisNodes
    rw [happ, List.filterMap_append, hs.textNodes, List.append_right_eq_self] at htext
    rw [happ, List.filterMap_append, hs.hypothesisNodes, List.append_right_eq_self] at hhyp
    exact eq_nil_of_nodes htext hhyp
  rcases List.append_eq_append_iff.1 heq with ⟨v, hv, hu⟩ | ⟨v, hv, hu⟩
  · obtain rfl := hstop hs hs' hv
    exact ⟨by simpa using hv.symm, by simpa using hu⟩
  · obtain rfl := hstop hs' hs hv
    exact ⟨by simpa using hv, by simpa using hu.symm⟩

end Edits

namespace Comparison

/-! ## Where a walk passes -/

/-- On the walk from the first two forests an edit is chosen between the forests of `m + 1` and
`n + 1` positions that begin at `k₁` and `k₂`. -/
inductive Visits {α : Type} [Cost α] (c : Comparison α) (near : α → α → Bool) (k₁ k₂ m n : Nat) :
    (l₁ l₂ a b : Nat) → Prop where
  /-- The walk begins there. -/
  | here : Visits c near k₁ k₂ m n k₁ k₂ (m + 1) (n + 1)
  /-- The walk passes there after a deletion. -/
  | delete {l₁ l₂ a b : Nat} (hlast : c.lastEdit near l₁ l₂ a b = .delete)
    (next : Visits c near k₁ k₂ m n l₁ l₂ a (b + 1)) : Visits c near k₁ k₂ m n l₁ l₂ (a + 1) (b + 1)
  /-- The walk passes there after an insertion. -/
  | insert {l₁ l₂ a b : Nat} (hlast : c.lastEdit near l₁ l₂ a b = .insert)
    (next : Visits c near k₁ k₂ m n l₁ l₂ (a + 1) b) : Visits c near k₁ k₂ m n l₁ l₂ (a + 1) (b + 1)
  /-- The walk passes there after a replacement. -/
  | replace {l₁ l₂ a b : Nat} (hlast : c.lastEdit near l₁ l₂ a b = .pair)
    (whole : c.t.leftmost (l₁ + a) = l₁ ∧ c.h.leftmost (l₂ + b) = l₂)
    (next : Visits c near k₁ k₂ m n l₁ l₂ a b) : Visits c near k₁ k₂ m n l₁ l₂ (a + 1) (b + 1)
  /-- The walk passes there to the left of a pair of subtrees. -/
  | before {l₁ l₂ a b : Nat} (hlast : c.lastEdit near l₁ l₂ a b = .pair)
    (apart : ¬(c.t.leftmost (l₁ + a) = l₁ ∧ c.h.leftmost (l₂ + b) = l₂))
    (next : Visits c near k₁ k₂ m n l₁ l₂ (c.t.leftmost (l₁ + a) - l₁)
      (c.h.leftmost (l₂ + b) - l₂)) : Visits c near k₁ k₂ m n l₁ l₂ (a + 1) (b + 1)
  /-- The walk passes there inside a pair of subtrees. -/
  | inside {l₁ l₂ a b : Nat} (hlast : c.lastEdit near l₁ l₂ a b = .pair)
    (apart : ¬(c.t.leftmost (l₁ + a) = l₁ ∧ c.h.leftmost (l₂ + b) = l₂))
    (next : Visits c near k₁ k₂ m n (c.t.leftmost (l₁ + a)) (c.h.leftmost (l₂ + b))
      (c.t.width (l₁ + a)) (c.h.width (l₂ + b))) : Visits c near k₁ k₂ m n l₁ l₂ (a + 1) (b + 1)

/-- Wherever the walk passes by the first comparison, the second chooses the same edit. -/
def ChoosesAlike {α : Type} [Cost α] (c : Comparison α) (near near' : α → α → Bool)
    (l₁ l₂ a b : Nat) : Prop :=
  ∀ k₁ k₂ m n, c.Visits near k₁ k₂ m n l₁ l₂ a b →
    c.lastEdit near k₁ k₂ m n = c.lastEdit near' k₁ k₂ m n

section Alike

variable {α : Type} [Cost α] {c : Comparison α} {near near' : α → α → Bool} {l₁ l₂ a b : Nat}

/-- Where no text position is left, nothing is chosen. -/
theorem choosesAlike_zero_left : c.ChoosesAlike near near' l₁ l₂ 0 b := by
  intro k₁ k₂ m n hv
  cases hv

/-- Where no hypothesis position is left, nothing is chosen. -/
theorem choosesAlike_zero_right : c.ChoosesAlike near near' l₁ l₂ a 0 := by
  intro k₁ k₂ m n hv
  cases hv

/-- After a deletion, the same edits are chosen if both comparisons delete and go on alike. -/
theorem choosesAlike_of_delete (hlast : c.lastEdit near l₁ l₂ a b = .delete) :
    c.ChoosesAlike near near' l₁ l₂ (a + 1) (b + 1) ↔
      c.lastEdit near' l₁ l₂ a b = .delete ∧ c.ChoosesAlike near near' l₁ l₂ a (b + 1) := by
  constructor
  · intro hall
    exact ⟨(hall _ _ _ _ .here).symm.trans hlast,
      fun _ _ _ _ hv => hall _ _ _ _ (.delete hlast hv)⟩
  · rintro ⟨hlast', hall⟩ k₁ k₂ m n hv
    cases hv with
    | here => rw [hlast, hlast']
    | delete _ next => exact hall _ _ _ _ next
    | insert h _ | replace h _ _ | before h _ _ | inside h _ _ => cases hlast.symm.trans h

/-- After an insertion, the same edits are chosen if both comparisons insert and go on alike. -/
theorem choosesAlike_of_insert (hlast : c.lastEdit near l₁ l₂ a b = .insert) :
    c.ChoosesAlike near near' l₁ l₂ (a + 1) (b + 1) ↔
      c.lastEdit near' l₁ l₂ a b = .insert ∧ c.ChoosesAlike near near' l₁ l₂ (a + 1) b := by
  constructor
  · intro hall
    exact ⟨(hall _ _ _ _ .here).symm.trans hlast,
      fun _ _ _ _ hv => hall _ _ _ _ (.insert hlast hv)⟩
  · rintro ⟨hlast', hall⟩ k₁ k₂ m n hv
    cases hv with
    | here => rw [hlast, hlast']
    | insert _ next => exact hall _ _ _ _ next
    | delete h _ | replace h _ _ | before h _ _ | inside h _ _ => cases hlast.symm.trans h

/-- After a replacement, the same edits are chosen if both comparisons replace and go on alike. -/
theorem choosesAlike_of_whole (hlast : c.lastEdit near l₁ l₂ a b = .pair)
    (whole : c.t.leftmost (l₁ + a) = l₁ ∧ c.h.leftmost (l₂ + b) = l₂) :
    c.ChoosesAlike near near' l₁ l₂ (a + 1) (b + 1) ↔
      c.lastEdit near' l₁ l₂ a b = .pair ∧ c.ChoosesAlike near near' l₁ l₂ a b := by
  constructor
  · intro hall
    exact ⟨(hall _ _ _ _ .here).symm.trans hlast,
      fun _ _ _ _ hv => hall _ _ _ _ (.replace hlast whole hv)⟩
  · rintro ⟨hlast', hall⟩ k₁ k₂ m n hv
    cases hv with
    | here => rw [hlast, hlast']
    | replace _ _ next => exact hall _ _ _ _ next
    | delete h _ | insert h _ => cases hlast.symm.trans h
    | before _ apart _ | inside _ apart _ => exact absurd whole apart

/-- After a pair of subtrees, the same edits are chosen if both comparisons take the pair and go on
alike to the left of the subtrees and inside them. -/
theorem choosesAlike_of_apart (hlast : c.lastEdit near l₁ l₂ a b = .pair)
    (apart : ¬(c.t.leftmost (l₁ + a) = l₁ ∧ c.h.leftmost (l₂ + b) = l₂)) :
    c.ChoosesAlike near near' l₁ l₂ (a + 1) (b + 1) ↔
      c.lastEdit near' l₁ l₂ a b = .pair ∧
        c.ChoosesAlike near near' l₁ l₂ (c.t.leftmost (l₁ + a) - l₁)
          (c.h.leftmost (l₂ + b) - l₂) ∧
        c.ChoosesAlike near near' (c.t.leftmost (l₁ + a)) (c.h.leftmost (l₂ + b))
          (c.t.width (l₁ + a)) (c.h.width (l₂ + b)) := by
  constructor
  · intro hall
    exact ⟨(hall _ _ _ _ .here).symm.trans hlast,
      fun _ _ _ _ hv => hall _ _ _ _ (.before hlast apart hv),
      fun _ _ _ _ hv => hall _ _ _ _ (.inside hlast apart hv)⟩
  · rintro ⟨hlast', hbefore, hinside⟩ k₁ k₂ m n hv
    cases hv with
    | here => rw [hlast, hlast']
    | before _ _ next => exact hbefore _ _ _ _ next
    | inside _ _ next => exact hinside _ _ _ _ next
    | delete h _ | insert h _ => cases hlast.symm.trans h
    | replace _ whole _ => exact absurd whole apart

end Alike

/-- A walk stays inside the forests that it begins with. -/
theorem Visits.lt {α : Type} [Cost α] {c : Comparison α} {near : α → α → Bool}
    {k₁ k₂ m n l₁ l₂ a b stop₁ stop₂ : Nat} (hv : c.Visits near k₁ k₂ m n l₁ l₂ a b)
    (h₁ : l₁ + a ≤ stop₁) (h₂ : l₂ + b ≤ stop₂) : k₁ + m < stop₁ ∧ k₂ + n < stop₂ := by
  induction hv with
  | here => omega
  | delete _ _ ih => exact ih (by omega) h₂
  | insert _ _ ih => exact ih h₁ (by omega)
  | replace _ _ _ ih => exact ih (by omega) (by omega)
  | @before l₁ l₂ a b _ _ _ ih =>
      have hx := c.t.leftmost_le_self (l₁ + a)
      have hy := c.h.leftmost_le_self (l₂ + b)
      exact ih (by omega) (by omega)
  | @inside l₁ l₂ a b _ _ _ ih =>
      have hx := c.t.leftmost_add_width (l₁ + a)
      have hy := c.h.leftmost_add_width (l₂ + b)
      exact ih (by omega) (by omega)

/-! ## What a script tells -/

variable {c : Comparison Rat} {near near' : Rat → Rat → Bool} {floor floor' : Rat}
  {l₁ l₂ a b k₁ k₂ : Nat}

/-- Without slack, only an edit that reaches the cost of the forests is taken. -/
theorem Slack.lastEdit_eq (hc : c.Slack near 0) (hm : l₁ + a < c.t.size) (hn : l₂ + b < c.h.size) :
    c.lastEdit near l₁ l₂ a b =
      if c.deleting l₁ l₂ a b = c.forestCost l₁ l₂ (a + 1) (b + 1) then .delete
      else if c.inserting l₁ l₂ a b = c.forestCost l₁ l₂ (a + 1) (b + 1) then .insert
      else .pair := by
  have hiff : ∀ u v, v ≤ u → (near u v → u ≤ v + 0) → (near u v ↔ u = v) := by
    intro u v hle hslack
    constructor
    · intro hnear
      have hge := hslack hnear
      exact le_antisymm (by linarith) hle
    · rintro rfl
      exact hc.refl u
  have hdelete := hiff (c.deleting l₁ l₂ a b) _ (c.forestCost_le_delete l₁ l₂ a (b + 1))
    (hc.delete l₁ l₂ a b hm hn)
  have hinsert := hiff (c.inserting l₁ l₂ a b) _ (c.forestCost_le_insert l₁ l₂ (a + 1) b)
    (hc.insert l₁ l₂ a b hm hn)
  rw [lastEdit]
  simp only [hdelete, hinsert]

/-- Comparisons without slack choose alike. -/
theorem choosesAlike_of_slack (hc : c.Slack near 0) (hc' : c.Slack near' 0)
    (hm : l₁ + a ≤ c.t.size) (hn : l₂ + b ≤ c.h.size) :
    c.ChoosesAlike near near' l₁ l₂ a b := by
  intro k₁ k₂ m n hv
  obtain ⟨hm', hn'⟩ := hv.lt hm hn
  rw [hc.lastEdit_eq hm' hn', hc'.lastEdit_eq hm' hn']

/-- Forests side by side cost no more together than each by itself. -/
theorem forestCost_append_le (h₁ : l₁ ≤ k₁) (h₂ : l₂ ≤ k₂)
    (left₁ : c.t.Closed l₁ (l₁ + (k₁ - l₁))) (left₂ : c.h.Closed l₂ (l₂ + (k₂ - l₂)))
    (right₁ : c.t.Closed k₁ (k₁ + a)) (right₂ : c.h.Closed k₂ (k₂ + b)) :
    c.forestCost l₁ l₂ (k₁ - l₁ + a) (k₂ - l₂ + b) ≤
      c.forestCost l₁ l₂ (k₁ - l₁) (k₂ - l₂) + c.forestCost k₁ k₂ a b := by
  obtain ⟨s, hs, hscost⟩ := c.exists_edits_cost_eq l₁ l₂ (k₁ - l₁) (k₂ - l₂) left₁ left₂
  obtain ⟨u, hu, hucost⟩ := c.exists_edits_cost_eq k₁ k₂ a b right₁ right₂
  rw [← hscost, ← hucost, ← List.sum_append, ← List.map_append]
  exact forestCost_le_of_edits (hs.append h₁ h₂ hu)

/-- Deleting the last text node of forests side by side costs no more than the left ones and
deleting it in the right ones. -/
theorem deleting_append_le (h₁ : l₁ ≤ k₁) (h₂ : l₂ ≤ k₂)
    (left₁ : c.t.Closed l₁ (l₁ + (k₁ - l₁))) (left₂ : c.h.Closed l₂ (l₂ + (k₂ - l₂)))
    (right₁ : c.t.Closed k₁ (k₁ + a)) (right₂ : c.h.Closed k₂ (k₂ + (b + 1))) :
    c.deleting l₁ l₂ (k₁ - l₁ + a) (k₂ - l₂ + b) ≤
      c.forestCost l₁ l₂ (k₁ - l₁) (k₂ - l₂) + c.deleting k₁ k₂ a b := by
  have happend := forestCost_append_le h₁ h₂ left₁ left₂ right₁ right₂
  rw [deleting, deleting, Cost.add_rat, Cost.add_rat,
    show l₁ + (k₁ - l₁ + a) = k₁ + a by omega, Nat.add_assoc]
  linarith

/-- Inserting the last hypothesis node of forests side by side costs no more than the left ones and
inserting it in the right ones. -/
theorem inserting_append_le (h₁ : l₁ ≤ k₁) (h₂ : l₂ ≤ k₂)
    (left₁ : c.t.Closed l₁ (l₁ + (k₁ - l₁))) (left₂ : c.h.Closed l₂ (l₂ + (k₂ - l₂)))
    (right₁ : c.t.Closed k₁ (k₁ + (a + 1))) (right₂ : c.h.Closed k₂ (k₂ + b)) :
    c.inserting l₁ l₂ (k₁ - l₁ + a) (k₂ - l₂ + b) ≤
      c.forestCost l₁ l₂ (k₁ - l₁) (k₂ - l₂) + c.inserting k₁ k₂ a b := by
  -- In the other direction this is a deletion.
  rw [← deleting_transpose (c.forestCost_transpose ..),
    ← deleting_transpose (c.forestCost_transpose ..), ← forestCost_transpose]
  exact deleting_append_le (c := c.transpose) h₂ h₁ left₂ left₁ right₂ right₁

/-- If the last subtrees are paired, then inside them their roots are paired, too. -/
theorem lastEdit_inside (hfloor : 0 ≤ floor) (hnonneg : c.Nonneg) (hm : l₁ + a < c.t.size)
    (hn : l₂ + b < c.h.size) (closed₁ : c.t.Closed l₁ (l₁ + (a + 1)))
    (closed₂ : c.h.Closed l₂ (l₂ + (b + 1)))
    (apart : ¬(c.t.leftmost (l₁ + a) = l₁ ∧ c.h.leftmost (l₂ + b) = l₂))
    (hlast : c.lastEdit (Cost.nearFrom floor) l₁ l₂ a b = .pair) :
    c.lastEdit (Cost.nearFrom floor) (c.t.leftmost (l₁ + a)) (c.h.leftmost (l₂ + b))
      (l₁ + a - c.t.leftmost (l₁ + a)) (l₂ + b - c.h.leftmost (l₂ + b)) = .pair := by
  have hx := c.t.leftmost_le_self (l₁ + a)
  have hy := c.h.leftmost_le_self (l₂ + b)
  have hk₁ := closed₁.le_leftmost
  have hk₂ := closed₂.le_leftmost
  have hsub₁ := c.t.closed_subtree (l₁ + a)
  have hsub₂ := c.h.closed_subtree (l₂ + b)
  rw [c.t.width_eq_succ] at hsub₁
  rw [c.h.width_eq_succ] at hsub₂
  have hcost := forestCost_eq_pairing (Cost.nearFrom_self hfloor) hlast
  rw [pairing_of_apart apart, subtreeCost, c.t.width_eq_succ, c.h.width_eq_succ] at hcost
  -- The walk chose neither a deletion nor an insertion, and inside the subtrees both are as dear.
  obtain ⟨hdelete, hinsert⟩ := lastEdit_eq_pair_iff.1 hlast
  have houter₁ := c.forestCost_le_delete l₁ l₂ a (b + 1)
  have houter₂ := c.forestCost_le_insert l₁ l₂ (a + 1) b
  rw [hcost] at hdelete hinsert houter₁ houter₂
  have hle₁ := deleting_append_le hk₁ hk₂ closed₁.before closed₂.before
    (hsub₁.mono (Nat.le_succ _)) hsub₂
  have hle₂ := inserting_append_le hk₁ hk₂ closed₁.before closed₂.before hsub₁
    (hsub₂.mono (Nat.le_succ _))
  rw [show c.t.leftmost (l₁ + a) - l₁ + (l₁ + a - c.t.leftmost (l₁ + a)) = a by omega,
    show c.h.leftmost (l₂ + b) - l₂ + (l₂ + b - c.h.leftmost (l₂ + b)) = b by omega] at hle₁ hle₂
  have hleft := hnonneg l₁ l₂ (c.t.leftmost (l₁ + a) - l₁) (c.h.leftmost (l₂ + b) - l₂)
    (by omega) (by omega)
  have hinside := hnonneg (c.t.leftmost (l₁ + a)) (c.h.leftmost (l₂ + b))
    (l₁ + a - c.t.leftmost (l₁ + a) + 1) (l₂ + b - c.h.leftmost (l₂ + b) + 1)
    (by omega) (by omega)
  exact lastEdit_eq_pair_iff.2
    ⟨Cost.not_nearFrom_inside hleft hinside (c.forestCost_le_delete _ _ _ _) houter₁ hle₁ hdelete,
      Cost.not_nearFrom_inside hleft hinside (c.forestCost_le_insert _ _ _ _) houter₂ hle₂ hinsert⟩

/-- The last edit of a script tells how it was chosen. -/
theorem getLast?_walk (hfloor : 0 ≤ floor) (hnonneg : c.Nonneg) (hm : l₁ + a < c.t.size)
    (hn : l₂ + b < c.h.size) (closed₁ : c.t.Closed l₁ (l₁ + (a + 1)))
    (closed₂ : c.h.Closed l₂ (l₂ + (b + 1))) :
    (c.walk (Cost.nearFrom floor) l₁ l₂ (a + 1) (b + 1)).getLast?.map Operation.lastEdit =
      some (c.lastEdit (Cost.nearFrom floor) l₁ l₂ a b) := by
  cases hlast : c.lastEdit (Cost.nearFrom floor) l₁ l₂ a b with
  | delete =>
      rw [walk_of_delete hlast, List.getLast?_concat]
      rfl
  | insert =>
      rw [walk_of_insert hlast, List.getLast?_concat]
      rfl
  | pair =>
      by_cases whole : c.t.leftmost (l₁ + a) = l₁ ∧ c.h.leftmost (l₂ + b) = l₂
      · rw [walk_of_whole hlast whole, List.getLast?_concat]
        rfl
      · -- The walk inside the subtrees ends with the pair of their roots.
        have hinside := lastEdit_inside hfloor hnonneg hm hn closed₁ closed₂ whole hlast
        have hx := c.t.leftmost_le_self (l₁ + a)
        have hy := c.h.leftmost_le_self (l₂ + b)
        rw [walk_of_apart hlast whole, c.t.width_eq_succ, c.h.width_eq_succ,
          walk_of_whole hinside, ← List.append_assoc, List.getLast?_concat]
        · rfl
        · rw [show c.t.leftmost (l₁ + a) + (l₁ + a - c.t.leftmost (l₁ + a)) = l₁ + a by omega,
            show c.h.leftmost (l₂ + b) + (l₂ + b - c.h.leftmost (l₂ + b)) = l₂ + b by omega]
          exact ⟨rfl, rfl⟩

/-- Equal scripts end with equal edits, which tell that the same choice was made last. -/
theorem lastEdit_eq_of_walk_eq (hfloor : 0 ≤ floor) (hfloor' : 0 ≤ floor') (hnonneg : c.Nonneg)
    (hm : l₁ + a < c.t.size) (hn : l₂ + b < c.h.size) (closed₁ : c.t.Closed l₁ (l₁ + (a + 1)))
    (closed₂ : c.h.Closed l₂ (l₂ + (b + 1)))
    (heq : c.walk (Cost.nearFrom floor) l₁ l₂ (a + 1) (b + 1) =
      c.walk (Cost.nearFrom floor') l₁ l₂ (a + 1) (b + 1)) :
    c.lastEdit (Cost.nearFrom floor') l₁ l₂ a b = c.lastEdit (Cost.nearFrom floor) l₁ l₂ a b := by
  have hlast := getLast?_walk hfloor hnonneg hm hn closed₁ closed₂
  have hlast' := getLast?_walk hfloor' hnonneg hm hn closed₁ closed₂
  rw [heq, hlast'] at hlast
  exact Option.some.inj hlast

section Step

variable (hsame : c.walk near l₁ l₂ (a + 1) (b + 1) = c.walk near' l₁ l₂ (a + 1) (b + 1) →
  c.lastEdit near' l₁ l₂ a b = c.lastEdit near l₁ l₂ a b)

include hsame

/-- After a deletion, two walks are the same if both delete and go on alike. -/
theorem walk_eq_iff_of_delete (hlast : c.lastEdit near l₁ l₂ a b = .delete) :
    c.walk near l₁ l₂ (a + 1) (b + 1) = c.walk near' l₁ l₂ (a + 1) (b + 1) ↔
      c.lastEdit near' l₁ l₂ a b = .delete ∧
        c.walk near l₁ l₂ a (b + 1) = c.walk near' l₁ l₂ a (b + 1) := by
  constructor
  · intro heq
    have hlast' := (hsame heq).trans hlast
    rw [walk_of_delete hlast, walk_of_delete hlast'] at heq
    exact ⟨hlast', List.append_cancel_right heq⟩
  · rintro ⟨hlast', heq⟩
    rw [walk_of_delete hlast, walk_of_delete hlast', heq]

/-- After an insertion, two walks are the same if both insert and go on alike. -/
theorem walk_eq_iff_of_insert (hlast : c.lastEdit near l₁ l₂ a b = .insert) :
    c.walk near l₁ l₂ (a + 1) (b + 1) = c.walk near' l₁ l₂ (a + 1) (b + 1) ↔
      c.lastEdit near' l₁ l₂ a b = .insert ∧
        c.walk near l₁ l₂ (a + 1) b = c.walk near' l₁ l₂ (a + 1) b := by
  constructor
  · intro heq
    have hlast' := (hsame heq).trans hlast
    rw [walk_of_insert hlast, walk_of_insert hlast'] at heq
    exact ⟨hlast', List.append_cancel_right heq⟩
  · rintro ⟨hlast', heq⟩
    rw [walk_of_insert hlast, walk_of_insert hlast', heq]

/-- After a replacement, two walks are the same if both replace and go on alike. -/
theorem walk_eq_iff_of_whole (hlast : c.lastEdit near l₁ l₂ a b = .pair)
    (whole : c.t.leftmost (l₁ + a) = l₁ ∧ c.h.leftmost (l₂ + b) = l₂) :
    c.walk near l₁ l₂ (a + 1) (b + 1) = c.walk near' l₁ l₂ (a + 1) (b + 1) ↔
      c.lastEdit near' l₁ l₂ a b = .pair ∧ c.walk near l₁ l₂ a b = c.walk near' l₁ l₂ a b := by
  constructor
  · intro heq
    have hlast' := (hsame heq).trans hlast
    rw [walk_of_whole hlast whole, walk_of_whole hlast' whole] at heq
    exact ⟨hlast', List.append_cancel_right heq⟩
  · rintro ⟨hlast', heq⟩
    rw [walk_of_whole hlast whole, walk_of_whole hlast' whole, heq]

/-- After a pair of subtrees, two walks are the same if both take the pair and go on alike to the
left of the subtrees and inside them: as both are scripts of the same forests there, neither can
make up for the other. -/
theorem walk_eq_iff_of_apart (closed₁ : c.t.Closed l₁ (l₁ + (a + 1)))
    (closed₂ : c.h.Closed l₂ (l₂ + (b + 1))) (hlast : c.lastEdit near l₁ l₂ a b = .pair)
    (apart : ¬(c.t.leftmost (l₁ + a) = l₁ ∧ c.h.leftmost (l₂ + b) = l₂)) :
    c.walk near l₁ l₂ (a + 1) (b + 1) = c.walk near' l₁ l₂ (a + 1) (b + 1) ↔
      c.lastEdit near' l₁ l₂ a b = .pair ∧
        c.walk near l₁ l₂ (c.t.leftmost (l₁ + a) - l₁) (c.h.leftmost (l₂ + b) - l₂) =
          c.walk near' l₁ l₂ (c.t.leftmost (l₁ + a) - l₁) (c.h.leftmost (l₂ + b) - l₂) ∧
        c.walk near (c.t.leftmost (l₁ + a)) (c.h.leftmost (l₂ + b)) (c.t.width (l₁ + a))
            (c.h.width (l₂ + b)) =
          c.walk near' (c.t.leftmost (l₁ + a)) (c.h.leftmost (l₂ + b)) (c.t.width (l₁ + a))
            (c.h.width (l₂ + b)) := by
  constructor
  · intro heq
    have hlast' := (hsame heq).trans hlast
    rw [walk_of_apart hlast apart, walk_of_apart hlast' apart] at heq
    exact ⟨hlast', (c.edits_walk near closed₁.before closed₂.before).append_inj
      (c.edits_walk near' closed₁.before closed₂.before) heq⟩
  · rintro ⟨hlast', hbefore, hinside⟩
    rw [walk_of_apart hlast apart, walk_of_apart hlast' apart, hbefore, hinside]

end Step

/-- Two walks are the same exactly if they choose the same edits wherever the first one passes. -/
theorem walk_eq_walk_iff (hfloor : 0 ≤ floor) (hfloor' : 0 ≤ floor') (hnonneg : c.Nonneg)
    (hm : l₁ + a ≤ c.t.size) (hn : l₂ + b ≤ c.h.size) (closed₁ : c.t.Closed l₁ (l₁ + a))
    (closed₂ : c.h.Closed l₂ (l₂ + b)) :
    c.walk (Cost.nearFrom floor) l₁ l₂ a b = c.walk (Cost.nearFrom floor') l₁ l₂ a b ↔
      c.ChoosesAlike (Cost.nearFrom floor) (Cost.nearFrom floor') l₁ l₂ a b := by
  induction l₁, l₂, a, b using PostOrder.runs_induction c.t c.h with
  | nil l₁ l₂ =>
      rw [walk_zero_zero, walk_zero_zero]
      exact iff_of_true rfl choosesAlike_zero_left
  | text l₁ l₂ a ih =>
      have hstep := (ih (by omega) hn (closed₁.mono (by omega)) closed₂).2 choosesAlike_zero_right
      rw [walk_succ_zero, walk_succ_zero, hstep]
      exact iff_of_true rfl choosesAlike_zero_right
  | hypothesis l₁ l₂ b ih =>
      have hstep := (ih hm (by omega) closed₁ (closed₂.mono (by omega))).2 choosesAlike_zero_left
      rw [walk_zero_succ, walk_zero_succ, hstep]
      exact iff_of_true rfl choosesAlike_zero_left
  | both l₁ l₂ a b ihDelete ihInsert ihReplace ihBefore ihInside =>
      have hx := c.t.leftmost_le_self (l₁ + a)
      have hy := c.h.leftmost_le_self (l₂ + b)
      have hwx := c.t.leftmost_add_width (l₁ + a)
      have hwy := c.h.leftmost_add_width (l₂ + b)
      -- Both sides say that the last choice is the same and that the same holds of what is left.
      have hsame := lastEdit_eq_of_walk_eq hfloor hfloor' hnonneg (by omega) (by omega) closed₁
        closed₂
      cases hlast : c.lastEdit (Cost.nearFrom floor) l₁ l₂ a b with
      | delete =>
          rw [walk_eq_iff_of_delete hsame hlast, choosesAlike_of_delete hlast,
            ihDelete (by omega) hn (closed₁.mono (by omega)) closed₂]
      | insert =>
          rw [walk_eq_iff_of_insert hsame hlast, choosesAlike_of_insert hlast,
            ihInsert hm (by omega) closed₁ (closed₂.mono (by omega))]
      | pair =>
          by_cases whole : c.t.leftmost (l₁ + a) = l₁ ∧ c.h.leftmost (l₂ + b) = l₂
          · rw [walk_eq_iff_of_whole hsame hlast whole, choosesAlike_of_whole hlast whole,
              ihReplace (by omega) (by omega) (closed₁.mono (by omega)) (closed₂.mono (by omega))]
          · rw [walk_eq_iff_of_apart hsame closed₁ closed₂ hlast whole,
              choosesAlike_of_apart hlast whole,
              ihBefore (by omega) (by omega) closed₁.before closed₂.before,
              ihInside whole (by omega) (by omega) (c.t.closed_subtree _) (c.h.closed_subtree _)]

end Comparison

end Entailment
