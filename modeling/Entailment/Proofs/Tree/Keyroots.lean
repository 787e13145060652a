import Entailment.Tree.PostOrder
import Mathlib.Data.List.Sort
import Mathlib.Data.Nat.Find

/-! # Keyroots

A keyroot is the last position with its leftmost leaf. Every position shares its leftmost leaf with
one keyroot, and inside the subtree of a keyroot that keyroot comes no later.

* **`PostOrder.mem_keyroots`** — which positions are keyroots;
* **`PostOrder.exists_keyroot`** — the keyroot of a position;
* **`PostOrder.keyroot_le`** — where it stands. -/

namespace Entailment

namespace PostOrder

variable {o : PostOrder} {p k : Nat}

/-- A keyroot is the last position with its leftmost leaf. -/
theorem mem_keyroots :
    k ∈ o.keyroots ↔ k < o.size ∧ ∀ q < o.size, o.leftmost q = o.leftmost k → q ≤ k := by
  simp only [keyroots, List.mem_filter, List.mem_range, List.all_eq_true, Bool.or_eq_true,
    decide_eq_true_eq, bne_iff_ne, ne_eq]
  refine and_congr_right fun _ => forall₂_congr fun q _ => ?_
  rw [or_iff_not_imp_right, not_not]

/-- On the spine are the positions of the run whose leftmost leaf is the first. -/
theorem mem_spine {first count : Nat} :
    p ∈ o.spine first count ↔ first ≤ p ∧ p < first + count ∧ o.leftmost p = first := by
  simp [spine, List.mem_range'_1, and_assoc]

/-- The keyroots are listed in increasing order. -/
theorem pairwise_keyroots (o : PostOrder) : o.keyroots.Pairwise (· < ·) :=
  List.Pairwise.filter _ List.pairwise_lt_range

/-- Every position shares its leftmost leaf with a keyroot. -/
theorem exists_keyroot (hp : p < o.size) :
    ∃ k ∈ o.keyroots, p ≤ k ∧ o.leftmost k = o.leftmost p := by
  let same := fun q => o.leftmost q = o.leftmost p
  have hle : p ≤ o.size - 1 := by omega
  refine ⟨Nat.findGreatest same (o.size - 1), mem_keyroots.2 ⟨?_, fun q hq h => ?_⟩,
    Nat.le_findGreatest hle rfl, Nat.findGreatest_spec (P := same) hle rfl⟩
  · have := Nat.findGreatest_le (P := same) (o.size - 1)
    omega
  · refine Nat.le_findGreatest (by omega) ?_
    rw [show same q ↔ o.leftmost q = o.leftmost p from Iff.rfl, h]
    exact Nat.findGreatest_spec (P := same) hle rfl

/-- What shares its leftmost leaf with a keyroot is in the subtree of that keyroot. -/
theorem mem_subtree_of_keyroot {r : Nat} (hr : r ∈ o.keyroots) (hp : p < o.size)
    (h : o.leftmost r = o.leftmost p) : o.leftmost r ≤ p ∧ p ≤ r :=
  ⟨h ▸ o.leftmost_le_self p, (mem_keyroots.1 hr).2 p hp h.symm⟩

/-- No two keyroots share their leftmost leaf. -/
theorem keyroot_unique {r : Nat} (hr : r ∈ o.keyroots) (hk : k ∈ o.keyroots)
    (h : o.leftmost r = o.leftmost k) : r = k :=
  Nat.le_antisymm ((mem_keyroots.1 hk).2 r (mem_keyroots.1 hr).1 h)
    ((mem_keyroots.1 hr).2 k (mem_keyroots.1 hk).1 h.symm)

/-- Inside the subtree of a keyroot, keyroots come no later. -/
theorem keyroot_le {r : Nat} (hr : r ∈ o.keyroots) (hk : k ∈ o.keyroots)
    (hleft : o.leftmost r ≤ p) (hp : p ≤ r) (h : o.leftmost k = o.leftmost p) :
    k ≤ r := by
  by_contra hlt
  -- The subtree of a later keyroot would hold `r`, and so begin where that of `r` begins.
  have houter : o.leftmost k ≤ o.leftmost r :=
    leftmost_le_leftmost (by have := o.leftmost_le_self p; omega) (by omega)
  have hinner : o.leftmost r ≤ o.leftmost p := leftmost_le_leftmost hleft hp
  have := (mem_keyroots.1 hr).2 k (mem_keyroots.1 hk).1 (by omega)
  omega

end PostOrder

end Entailment
