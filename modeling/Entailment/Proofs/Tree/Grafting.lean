import Entailment.Proofs.Tree.Cycles

/-! # Grafting trees onto a node

The nodes of one parent array can come after those of another, with the roots of the second under
a node of the first.

* **`Parents.graft`** — the parents of the nodes of both;
* **`Parents.roots_graft_of_some`** — under an anchor only the first array has roots;
* **`Parents.InRange.graft`** — every parent is still a node;
* **`Parents.onCycle_graft_iff`** — the cycles are those of the two. -/

namespace Entailment.Parents

variable {ps qs : Parents} {anchor : Option Nat} {node head k m p a : Nat}

/-- The nodes of `ps` and after them those of `qs`. The roots of `qs` come under the anchor, if
there is one. -/
def graft (ps qs : Parents) (anchor : Option Nat) : Parents :=
  ps ++ qs.map fun head => (head.map (ps.length + ·)).or anchor

/-- Grafting adds up the nodes. -/
@[simp] theorem length_graft : (ps.graft qs anchor).length = ps.length + qs.length := by
  simp [graft]

/-- The nodes of the first array keep their parents. -/
theorem governor_graft_of_lt (h : node < ps.length) :
    (ps.graft qs anchor).governor node = ps.governor node := by
  rw [governor, graft, List.getElem?_append_left h, governor]

/-- The nodes of the second array keep their parents, and its roots come under the anchor. -/
theorem governor_graft_add (h : m < qs.length) :
    (ps.graft qs anchor).governor (ps.length + m) =
      ((qs.governor m).map (ps.length + ·)).or anchor := by
  rw [governor, graft, List.getElem?_append_right (Nat.le_add_right _ _), Nat.add_sub_cancel_left,
    List.getElem?_map, List.getElem?_eq_getElem h, governor, List.getElem?_eq_getElem h]
  rfl

/-- A parent in the first array stays the parent. -/
theorem governor_graft_of_governor (h : ps.governor node = some head) :
    (ps.graft qs anchor).governor node = some head := by
  rw [governor_graft_of_lt (lt_length_of_governor h), h]

/-- A parent in the second array stays the parent, behind the first array. -/
theorem governor_graft_add_of_governor (h : qs.governor m = some head) :
    (ps.graft qs anchor).governor (ps.length + m) = some (ps.length + head) := by
  rw [governor_graft_add (lt_length_of_governor h), h]
  rfl

/-- Grafting onto nothing, without an anchor, changes nothing. -/
@[simp] theorem nil_graft : graft [] qs none = qs := by simp [graft]

/-- Under an anchor the roots of the second array are roots no more. -/
theorem roots_graft_of_some (a : Nat) : (ps.graft qs (some a)).roots = ps.roots := by
  have hgoverned :
      ∀ p ∈ (qs.map fun head => (head.map (ps.length + ·)).or (some a)).zipIdx ps.length,
        ¬p.1.isNone = true := by
    rintro ⟨head, k⟩ hmem
    obtain ⟨head', -, rfl⟩ := List.mem_map.1 (List.fst_mem_of_mem_zipIdx hmem)
    cases head' <;> simp
  rw [roots, graft, List.zipIdx_append, Nat.zero_add, List.filter_append,
    List.filter_eq_nil_iff.2 hgoverned, List.append_nil, roots]

variable (hp : ps.InRange)

include hp

/-- No walk leads from the first array to the second. -/
theorem up_graft_lt (hnode : node < ps.length) (h : (ps.graft qs anchor).up k node = some a) :
    a < ps.length := by
  induction k generalizing node with
  | zero =>
      cases h
      exact hnode
  | succ k ih =>
      obtain ⟨p, hnp, hpa⟩ := Option.bind_eq_some_iff.1 (up_succ k node ▸ h)
      rw [governor_graft_of_lt hnode] at hnp
      exact ih (hp node p hnp) hpa

variable (hanchor : ∀ a ∈ anchor, a < ps.length)

include hanchor

/-- A parent is one of the first array, or the two nodes are both of the second. -/
theorem governor_graft_cases (h : (ps.graft qs anchor).governor node = some p) :
    p < ps.length ∨ ∃ m head, node = ps.length + m ∧ p = ps.length + head ∧
      qs.governor m = some head := by
  rcases Nat.lt_or_ge node ps.length with hnode | hnode
  · rw [governor_graft_of_lt hnode] at h
    exact .inl (hp node p h)
  · obtain ⟨m, rfl⟩ := Nat.exists_eq_add_of_le hnode
    have hm : m < qs.length := by
      have := lt_length_of_governor h
      rw [length_graft] at this
      omega
    rw [governor_graft_add hm, Option.or_eq_some_iff, Option.map_eq_some_iff] at h
    rcases h with ⟨head, hhead, rfl⟩ | ⟨-, hp⟩
    · exact .inr ⟨m, head, rfl, rfl, hhead⟩
    · exact .inl (hanchor p hp)

/-- Every parent is still a node. -/
theorem InRange.graft (hq : qs.InRange) : (ps.graft qs anchor).InRange := by
  intro node p h
  rw [length_graft]
  rcases governor_graft_cases hp hanchor h with hlt | ⟨m, head, -, rfl, hhead⟩
  · omega
  · have := hq m head hhead
    omega

/-- A walk that ends in the second array never left it. -/
theorem up_of_up_graft_add (h : (ps.graft qs anchor).up k (ps.length + m) = some (ps.length + a)) :
    qs.up k m = some a := by
  induction k generalizing m with
  | zero =>
      obtain rfl : m = a := by simpa using h
      rfl
  | succ k ih =>
      obtain ⟨p, hmp, hpa⟩ := Option.bind_eq_some_iff.1 (up_succ k _ ▸ h)
      rcases governor_graft_cases hp hanchor hmp with hlt | ⟨m', head, hm, rfl, hhead⟩
      · -- From the first array the walk would not come back.
        exact absurd (up_graft_lt hp hlt hpa) (by omega)
      · obtain rfl : m = m' := by omega
        rw [up_succ, hhead]
        exact ih hpa

/-- Grafting trees onto a node neither makes nor breaks a cycle. -/
theorem onCycle_graft_iff :
    (∃ node, (ps.graft qs anchor).OnCycle node) ↔
      (∃ node, ps.OnCycle node) ∨ ∃ node, qs.OnCycle node := by
  constructor
  · rintro ⟨node, hnode⟩
    -- A cycle stays in the array in which it begins.
    rcases Nat.lt_or_ge node ps.length with hlt | hge
    · refine .inl ⟨node, .of_related (R := fun x x' => x = x' ∧ x < ps.length) ?_
        (fun x' hx' => hx'.1.symm) ⟨rfl, hlt⟩ hnode⟩
      rintro x p _ ⟨rfl, hx⟩ hxp
      rw [governor_graft_of_lt hx] at hxp
      exact ⟨p, ⟨rfl, hp x p hxp⟩, hxp⟩
    · obtain ⟨m, rfl⟩ := Nat.exists_eq_add_of_le hge
      obtain ⟨k, hk, hu⟩ := hnode
      exact .inr ⟨m, k, hk, up_of_up_graft_add hp hanchor hu⟩
  · rintro (⟨node, hnode⟩ | ⟨m, hm⟩)
    · refine ⟨node, .of_related (R := Eq) ?_ (fun x' hx' => hx'.symm) rfl hnode⟩
      rintro x p _ rfl hxp
      exact ⟨p, rfl, governor_graft_of_governor hxp⟩
    · refine ⟨ps.length + m, .of_related (R := fun x x' => ps.length + x = x') ?_
        (fun x' hx' => hx'.symm) rfl hm⟩
      rintro x p _ rfl hxp
      exact ⟨ps.length + p, rfl, governor_graft_add_of_governor hxp⟩

end Entailment.Parents
