import Mathlib.Data.List.Forall2

/-! # When a computation succeeds, and when it fails

* **`bind_eq_ok_iff`**, **`bind_eq_error_iff`** — one computation after another;
* **`mapM_eq_ok_iff`** — the same computation on every element of a list;
* **`FirstError`**, **`mapM_eq_error_iff`** — it fails with the error of the first element that has
  one. -/

namespace Entailment

variable {ε α β γ : Type}

/-- One computation after another succeeds if both do. -/
theorem bind_eq_ok_iff {x : Except ε α} {f : α → Except ε β} {b : β} :
    x >>= f = .ok b ↔ ∃ a, x = .ok a ∧ f a = .ok b := by
  cases x <;> simp [bind, Except.bind]

/-- A change of the value does not bear on success. -/
theorem map_eq_ok_iff {x : Except ε α} {f : α → β} {b : β} :
    x.map f = .ok b ↔ ∃ a, x = .ok a ∧ f a = b := by
  cases x <;> simp [Except.map]

/-- Nor does a change of the error. -/
theorem mapError_eq_ok_iff {x : Except ε α} {f : ε → β} {a : α} :
    x.mapError f = .ok a ↔ x = .ok a := by
  cases x <;> simp [Except.mapError]

/-- A bare value succeeds with itself only. -/
theorem pure_eq_ok_iff {a b : α} : (pure a : Except ε α) = .ok b ↔ a = b := by
  simp [pure, Except.pure]

/-- A computation on every element succeeds with the values of each. -/
theorem mapM_eq_ok_iff {f : α → Except ε β} {xs : List α} {ys : List β} :
    xs.mapM f = .ok ys ↔ List.Forall₂ (fun x y => f x = .ok y) xs ys := by
  induction xs generalizing ys with
  | nil => rw [List.mapM_nil, pure_eq_ok_iff, List.forall₂_nil_left_iff, eq_comm]
  | cons x xs ih =>
      rw [List.mapM_cons, bind_eq_ok_iff, List.forall₂_cons_left_iff]
      simp only [bind_eq_ok_iff, pure_eq_ok_iff, ih]
      constructor
      · rintro ⟨y, hy, ys, hys, rfl⟩
        exact ⟨y, ys, hy, hys, rfl⟩
      · rintro ⟨y, ys, hy, hys, rfl⟩
        exact ⟨y, hy, ys, hys, rfl⟩

/-- Every element has a partner exactly if the elements have partners in order. -/
theorem exists_forall₂_iff {R : α → β → Prop} {xs : List α} :
    (∃ ys, List.Forall₂ R xs ys) ↔ ∀ x ∈ xs, ∃ y, R x y := by
  induction xs with
  | nil => simp
  | cons x xs ih =>
      rw [List.forall_mem_cons, ← ih]
      constructor
      · rintro ⟨_, hx | ⟨hx, hxs⟩⟩
        exact ⟨⟨_, hx⟩, _, hxs⟩
      · rintro ⟨⟨y, hx⟩, ys, hxs⟩
        exact ⟨y :: ys, .cons hx hxs⟩

/-- Only the partners of the elements of the list matter. -/
theorem forall₂_congr_of_mem {R S : α → β → Prop} {xs : List α} {ys : List β}
    (h : ∀ x ∈ xs, ∀ y, R x y ↔ S x y) : List.Forall₂ R xs ys ↔ List.Forall₂ S xs ys := by
  induction xs generalizing ys with
  | nil => simp
  | cons x xs ih =>
      obtain ⟨hx, hxs⟩ := List.forall_mem_cons.1 h
      simp only [List.forall₂_cons_left_iff, hx, ih hxs]

/-- Partners in two stages, the second of which looks at positions as well. -/
theorem exists_forall₂_zipIdx_iff (R : α → β → Prop) (S : β → Nat → γ → Prop) {xs : List α}
    {zs : List γ} {n : Nat} :
    (∃ ys, List.Forall₂ R xs ys ∧ List.Forall₂ (fun p z => S p.1 p.2 z) (ys.zipIdx n) zs) ↔
      List.Forall₂ (fun p z => ∃ y, R p.1 y ∧ S y p.2 z) (xs.zipIdx n) zs := by
  induction xs generalizing n zs with
  | nil => simp
  | cons x xs ih =>
      rw [List.zipIdx_cons, List.forall₂_cons_left_iff]
      constructor
      · rintro ⟨_, hx | ⟨hx, hxs⟩, hS⟩
        rw [List.zipIdx_cons, List.forall₂_cons_left_iff] at hS
        obtain ⟨z, zs, hz, hzs, rfl⟩ := hS
        exact ⟨z, zs, ⟨_, hx, hz⟩, ih.1 ⟨_, hxs, hzs⟩, rfl⟩
      · rintro ⟨z, zs, ⟨y, hx, hz⟩, h, rfl⟩
        obtain ⟨ys, hxs, hzs⟩ := ih.2 h
        exact ⟨y :: ys, .cons hx hxs, .cons hz hzs⟩

/-! ## Failing -/

/-- One computation after another fails where the first of the two fails. -/
theorem bind_eq_error_iff {x : Except ε α} {f : α → Except ε β} {e : ε} :
    x >>= f = .error e ↔ x = .error e ∨ ∃ a, x = .ok a ∧ f a = .error e := by
  cases x <;> simp [bind, Except.bind]

/-- A change of the value does not bear on failure. -/
theorem map_eq_error_iff {x : Except ε α} {f : α → β} {e : ε} :
    x.map f = .error e ↔ x = .error e := by
  cases x <;> simp [Except.map]

/-- A computation fails exactly if it gives no value. -/
theorem forall_ne_error_iff {x : Except ε α} : (∀ e, x ≠ .error e) ↔ ∃ a, x = .ok a := by
  cases x <;> simp

/-- The error of the first element of a list that has one, where `R k x e` says that the element `x`
at the position `k` has the error `e`. -/
def FirstError (R : Nat → α → ε → Prop) (xs : List α) (e : ε) : Prop :=
  ∃ k x, xs[k]? = some x ∧ R k x e ∧ ∀ j < k, ∀ y, xs[j]? = some y → ∀ e', ¬R j y e'

/-- An empty list has no first error. -/
theorem not_firstError_nil {R : Nat → α → ε → Prop} {e : ε} : ¬FirstError R [] e := by
  rintro ⟨k, x, hx, -⟩
  simp at hx

/-- The first error is that of the head, or the first of the tail if the head has none. -/
theorem firstError_cons {R : Nat → α → ε → Prop} {x : α} {xs : List α} {e : ε} :
    FirstError R (x :: xs) e ↔
      R 0 x e ∨ (∀ e', ¬R 0 x e') ∧ FirstError (fun k => R (k + 1)) xs e := by
  constructor
  · rintro ⟨k, y, hy, hR, hbefore⟩
    cases k with
    | zero =>
        cases hy
        exact .inl hR
    | succ k =>
        exact .inr ⟨hbefore 0 (Nat.succ_pos k) x rfl,
          k, y, hy, hR, fun j hj => hbefore (j + 1) (Nat.succ_lt_succ hj)⟩
  · rintro (hR | ⟨hx, k, y, hy, hR, hbefore⟩)
    · exact ⟨0, x, rfl, hR, fun j hj => absurd hj (Nat.not_lt_zero j)⟩
    · refine ⟨k + 1, y, hy, hR, fun j hj z hz => ?_⟩
      cases j with
      | zero =>
          cases hz
          exact hx
      | succ j => exact hbefore j (Nat.lt_of_succ_lt_succ hj) z hz

/-- Only the errors of the elements of the list matter. -/
theorem FirstError.congr {R S : Nat → α → ε → Prop} {xs : List α} {e : ε}
    (h : ∀ k x, xs[k]? = some x → ∀ e, R k x e ↔ S k x e) :
    FirstError R xs e ↔ FirstError S xs e := by
  refine exists_congr fun k => exists_congr fun x => and_congr_right fun hx => ?_
  refine and_congr (h k x hx e) (forall₂_congr fun j _ => forall₂_congr fun y hy => ?_)
  exact forall_congr' fun e' => not_congr (h j y hy e')

/-- Reading with positions fails with the first error. -/
theorem mapM_zipIdx_eq_error_iff {f : α × Nat → Except ε β} {xs : List α} {n : Nat} {e : ε} :
    (xs.zipIdx n).mapM f = .error e ↔
      FirstError (fun k x e => f (x, n + k) = .error e) xs e := by
  induction xs generalizing n with
  | nil => simp [not_firstError_nil, pure, Except.pure]
  | cons x xs ih =>
      rw [List.zipIdx_cons, List.mapM_cons, bind_eq_error_iff, firstError_cons]
      have hshift : (fun k x e => f (x, n + (k + 1)) = .error e) =
          fun k (x : α) (e : ε) => f (x, n + 1 + k) = .error e := by
        funext k x e
        rw [Nat.add_right_comm, Nat.add_assoc]
      rw [hshift, ← ih, Nat.add_zero, forall_ne_error_iff]
      -- The values that are read are put together, which does not fail.
      simp [bind_eq_error_iff, pure, Except.pure]

/-- Reading fails with the first error. -/
theorem mapM_eq_error_iff {f : α → Except ε β} {xs : List α} {e : ε} :
    xs.mapM f = .error e ↔ FirstError (fun _ x e => f x = .error e) xs e := by
  have hpositions : xs.zipIdx.mapM (f ∘ Prod.fst) = xs.mapM f := by
    rw [← List.mapM_map, List.zipIdx_map_fst]
  rw [← hpositions, mapM_zipIdx_eq_error_iff]
  rfl

/-- Computations in two stages, the second of which looks at positions as well, may be done element
by element once the first stage has succeeded. -/
theorem mapM_zipIdx_of_mapM {f : α → Except ε β} {g : β × Nat → Except ε γ} {xs : List α}
    {ys : List β} (h : xs.mapM f = .ok ys) (n : Nat) :
    (ys.zipIdx n).mapM g = (xs.zipIdx n).mapM fun p => f p.1 >>= fun y => g (y, p.2) := by
  rw [mapM_eq_ok_iff] at h
  induction h generalizing n with
  | nil => rfl
  | cons hx _ ih =>
      rw [List.zipIdx_cons, List.zipIdx_cons, List.mapM_cons, List.mapM_cons, ih (n + 1)]
      dsimp only
      rw [hx]
      rfl

end Entailment
