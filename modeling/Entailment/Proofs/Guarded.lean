import Entailment.Edit.Table
import Mathlib.Data.Nat.PSub

/-! # Guarded arrays and loops

Reading and writing in place, with no answer where an index is out of range. Differences of numbers
are those of `Nat.psub`, which has no answer below zero.

* **`Guarded.write`** — an array with one entry written;
* **`Table.read`**, **`Table.write`** — the same of a table;
* **`Table.HoldsAt`** — what some entries of a table are;
* **`Guarded.countUp`**, **`Guarded.countDown`**, **`Guarded.countPairs`** — loops over the numbers
  from one on;
* **`Guarded.fill`**, **`Table.fillPairs`** — arrays and tables whose entries are computed one after
  another;
* **`Guarded.countUp_spec`** — what each step of a loop keeps, the loop keeps, and it has an answer
  if each step has one. -/

namespace Entailment

namespace Guarded

variable {β σ : Type}

/-- One can be taken away from a successor. -/
theorem succ_psub_one (n : Nat) : (n + 1).psub 1 = some n := Nat.psub_eq_some.2 rfl

/-- The array with the given entry at an index, if the index is in range. -/
def write (xs : Array β) (i : Nat) (v : β) : Option (Array β) :=
  if h : i < xs.size then some (xs.set i v h) else none

/-- An entry that is in range can be written. It changes that entry and no other. -/
theorem exists_write (xs : Array β) {i : Nat} (h : i < xs.size) (v : β) :
    ∃ ys, write xs i v = some ys ∧ ys.size = xs.size ∧
      ∀ k : Nat, ys[k]? = if k = i then some v else xs[k]? := by
  refine ⟨xs.set i v h, dif_pos h, Array.size_set h, fun k => ?_⟩
  rw [Array.getElem?_set]
  simp only [eq_comm]

example : write #[7, 8] 1 9 = some #[7, 9] ∧ write #[7, 8] 2 9 = none := by decide

/-- The loop over `1`, `2`, … up to a number. -/
def countUp (step : Nat → σ → Option σ) : Nat → σ → Option σ
  | 0, s => some s
  | n + 1, s => do step (n + 1) (← countUp step n s)

/-- The loop over a number and those below it down to `1`. -/
def countDown (step : Nat → σ → Option σ) : Nat → σ → Option σ
  | 0, s => some s
  | n + 1, s => do countDown step n (← step (n + 1) s)

/-- A loop whose steps have answers and keep an invariant has an answer and keeps it. -/
theorem countUp_spec {step : Nat → σ → Option σ} {n : Nat} (invariant : Nat → σ → Prop) {s : σ}
    (start : invariant 0 s)
    (next : ∀ i < n, ∀ s, invariant i s → ∃ s', step (i + 1) s = some s' ∧ invariant (i + 1) s') :
    ∃ s', countUp step n s = some s' ∧ invariant n s' := by
  induction n with
  | zero => exact ⟨s, rfl, start⟩
  | succ n ih =>
      obtain ⟨s', hs', hn⟩ := ih fun i hi => next i (by omega)
      obtain ⟨s'', hs'', hn'⟩ := next n (by omega) s' hn
      refine ⟨s'', ?_, hn'⟩
      rw [countUp, hs']
      exact hs''

/-- A loop downwards whose steps have answers and keep an invariant has an answer and keeps it. -/
theorem countDown_spec {step : Nat → σ → Option σ} {n : Nat} (invariant : Nat → σ → Prop) {s : σ}
    (start : invariant n s)
    (next : ∀ i < n, ∀ s, invariant (i + 1) s → ∃ s', step (i + 1) s = some s' ∧ invariant i s') :
    ∃ s', countDown step n s = some s' ∧ invariant 0 s' := by
  induction n generalizing s with
  | zero => exact ⟨s, rfl, start⟩
  | succ n ih =>
      obtain ⟨s', hs', hn⟩ := next n (by omega) s start
      obtain ⟨s'', hs'', h₀⟩ := ih hn fun i hi => next i (by omega)
      refine ⟨s'', ?_, h₀⟩
      rw [countDown, hs']
      exact hs''

/-- The loop over the pairs of a number up to `m` and a number up to `n`, row by row. -/
def countPairs (step : Nat → Nat → σ → Option σ) (m n : Nat) : σ → Option σ :=
  countUp (fun a => countUp (step a) n) m

/-- A loop over pairs whose steps have answers and keep an invariant has an answer and keeps it. The
end of a row must count as the beginning of the next. -/
theorem countPairs_spec {step : Nat → Nat → σ → Option σ} {m n : Nat}
    (invariant : Nat → Nat → σ → Prop) {s : σ} (start : invariant 0 0 s)
    (nextRow : ∀ a < m, ∀ s, invariant a n s → invariant (a + 1) 0 s)
    (next : ∀ a < m, ∀ b < n, ∀ s, invariant a b s →
      ∃ s', step (a + 1) (b + 1) s = some s' ∧ invariant a (b + 1) s') :
    ∃ s', countPairs step m n s = some s' ∧ invariant m 0 s' := by
  refine countUp_spec (invariant · 0) start fun a ha s hs => ?_
  obtain ⟨s', hrun, hs'⟩ := countUp_spec (invariant a) hs (next a ha)
  exact ⟨s', hrun, nextRow a ha s' hs'⟩

/-- What each step of a loop over a list keeps, the loop keeps. -/
theorem foldlM_spec {step : σ → β → Option σ} (xs : List β) (invariant : List β → σ → Prop) {s : σ}
    (start : invariant [] s)
    (next : ∀ done x rest, xs = done ++ x :: rest → ∀ s, invariant done s →
      ∃ s', step s x = some s' ∧ invariant (done ++ [x]) s') :
    ∃ s', xs.foldlM step s = some s' ∧ invariant xs s' := by
  suffices run : ∀ rest done s, xs = done ++ rest → invariant done s →
      ∃ s', rest.foldlM step s = some s' ∧ invariant xs s' from run xs [] s rfl start
  intro rest
  induction rest with
  | nil =>
      intro done s hsplit hs
      rw [List.append_nil] at hsplit
      exact ⟨s, rfl, hsplit ▸ hs⟩
  | cons x rest ih =>
      intro done s hsplit hs
      obtain ⟨s', hstep, hs'⟩ := next done x rest hsplit s hs
      rw [List.foldlM_cons, hstep]
      exact ih (done ++ [x]) s' (by simp [hsplit]) hs'

/-! ### Loops with less state -/

section

variable {τ : Type} {f : σ → τ}

/-- Two computations that go on alike from each answer, but for what is forgotten, are alike. -/
theorem map_bind_congr {o : Option β} {g : β → Option σ} {g' : β → Option τ}
    (h : ∀ x, (g x).map f = g' x) : (o >>= g).map f = o >>= g' := by
  cases o with
  | none => rfl
  | some x => exact h x

/-- A loop whose steps are those of another one when part of the state is forgotten. -/
theorem map_countUp {step : Nat → σ → Option σ} {step' : Nat → τ → Option τ}
    (h : ∀ i s, (step i s).map f = step' i (f s)) (n : Nat) (s : σ) :
    (countUp step n s).map f = countUp step' n (f s) := by
  induction n with
  | zero => rfl
  | succ n ih =>
      rw [countUp, countUp, ← ih, Option.bind_eq_bind, Option.bind_eq_bind, Option.map_bind,
        Option.bind_map]
      exact congrArg _ (funext fun s => h (n + 1) s)

/-- A loop over pairs is that with less state when each of its steps is. -/
theorem map_countPairs {step : Nat → Nat → σ → Option σ} {step' : Nat → Nat → τ → Option τ}
    (h : ∀ a b s, (step a b s).map f = step' a b (f s)) (m n : Nat) (s : σ) :
    (countPairs step m n s).map f = countPairs step' m n (f s) :=
  map_countUp (fun a s => map_countUp (h a) n s) m s

/-- A loop over a list is that with less state when each of its steps is. -/
theorem map_foldlM {step : σ → β → Option σ} {step' : τ → β → Option τ}
    (h : ∀ s x, (step s x).map f = step' (f s) x) (xs : List β) (s : σ) :
    (xs.foldlM step s).map f = xs.foldlM step' (f s) := by
  induction xs generalizing s with
  | nil => rfl
  | cons x xs ih =>
      rw [List.foldlM_cons, List.foldlM_cons, ← h, Option.bind_eq_bind, Option.bind_eq_bind,
        Option.map_bind, Option.bind_map]
      exact congrArg _ (funext ih)

end

/-- Two nested loops over lists are one over the pairs. -/
theorem foldlM_foldlM {γ : Type} (step : σ → β → γ → Option σ) (xs : List β) (ys : List γ) (s : σ) :
    xs.foldlM (fun s x => ys.foldlM (fun s y => step s x y) s) s =
      (xs.flatMap fun x => ys.map fun y => (x, y)).foldlM (fun s p => step s p.1 p.2) s := by
  induction xs generalizing s with
  | nil => rfl
  | cons x xs ih =>
      rw [List.foldlM_cons, List.flatMap_cons, List.foldlM_append, List.foldlM_map]
      exact congrArg _ (funext ih)

/-- The array whose entries `1`, …, `n` are computed one after another, each from the array as it
is by then. -/
def fill (value : Array β → Nat → Option β) (n : Nat) (v : β) : Option (Array β) :=
  countUp (fun i xs => do write xs i (← value xs i)) n (Array.replicate (n + 1) v)

/-- An array can be filled if each of its entries can be computed from those before it. -/
theorem exists_fill {value : Array β → Nat → Option β} {n : Nat} {v : β} (f : Nat → β)
    (next : ∀ i < n, ∀ xs : Array β, (∀ k < i, xs[k + 1]? = some (f k)) →
      value xs (i + 1) = some (f i)) :
    ∃ xs, fill value n v = some xs ∧ ∀ k < n, xs[k + 1]? = some (f k) := by
  suffices h : ∃ xs : Array β, fill value n v = some xs ∧ xs.size = n + 1 ∧
      ∀ k < n, xs[k + 1]? = some (f k) by
    obtain ⟨xs, hfill, -, hget⟩ := h
    exact ⟨xs, hfill, hget⟩
  refine countUp_spec (fun i (xs : Array β) => xs.size = n + 1 ∧ ∀ k < i, xs[k + 1]? = some (f k))
    ⟨Array.size_replicate, fun k hk => by omega⟩ fun i hi xs hinv => ?_
  obtain ⟨hsize, hget⟩ := hinv
  obtain ⟨ys, hw, hsize', hget'⟩ := exists_write xs (i := i + 1) (by omega) (f i)
  refine ⟨ys, ?_, hsize'.trans hsize, fun k hk => ?_⟩
  · rw [next i hi xs hget]
    exact hw
  · rw [hget']
    rcases Nat.lt_succ_iff_lt_or_eq.1 hk with hlt | rfl
    · rw [if_neg (by omega), hget k hlt]
    · rw [if_pos rfl]

end Guarded

namespace Table

variable {α : Type}

/-- An entry of a table, if both indices are in range. -/
def read (table : Table α) (a b : Nat) : Option α := do (← table[a]?)[b]?

/-- The table with the given entry, if both indices are in range. -/
def write (table : Table α) (a b : Nat) (v : α) : Option (Table α) := do
  Guarded.write table a (← Guarded.write (← table[a]?) b v)

/-- The table of the given size with one entry throughout. -/
def blank (rows columns : Nat) (v : α) : Table α :=
  Array.replicate rows (Array.replicate columns v)

/-- The table has `m` rows of `n` entries. -/
def Fits (m n : Nat) (table : Table α) : Prop :=
  table.size = m ∧ ∀ (a : Nat) (row : Array α), table[a]? = some row → row.size = n

variable {table : Table α} {m n a b : Nat} {v : α}

/-- A blank table has the size that was asked for. -/
theorem blank_fits : (blank m n v).Fits m n := by
  refine ⟨Array.size_replicate, fun a row h => ?_⟩
  rw [blank, Array.getElem?_replicate] at h
  split at h
  · cases h
    exact Array.size_replicate
  · cases h

/-- In a blank table every entry in range is the given one. -/
theorem read_blank (ha : a < m) (hb : b < n) : (blank m n v).read a b = some v := by
  rw [read, blank, Array.getElem?_replicate, if_pos ha, Option.bind_eq_bind, Option.bind_some,
    Array.getElem?_replicate, if_pos hb]

/-- An entry that is in range can be written. It changes that entry and no other. -/
theorem Fits.exists_write (h : table.Fits m n) (ha : a < m) (hb : b < n) (v : α) :
    ∃ table', table.write a b v = some table' ∧ table'.Fits m n ∧
      ∀ a' b', table'.read a' b' = if a' = a ∧ b' = b then some v else table.read a' b' := by
  obtain ⟨row, hrow⟩ : ∃ row, table[a]? = some row :=
    ⟨_, Array.getElem?_eq_getElem (by rw [h.1]; exact ha)⟩
  have hsize := h.2 a row hrow
  obtain ⟨row', hw, hsize', hget⟩ := Guarded.exists_write row (by rw [hsize]; exact hb) v
  obtain ⟨table', hw', hsize'', hget'⟩ := Guarded.exists_write table (by rw [h.1]; exact ha) row'
  refine ⟨table', ?_, ⟨hsize''.trans h.1, fun a' row ha' => ?_⟩, fun a' b' => ?_⟩
  · rw [write, hrow, Option.bind_eq_bind, Option.bind_some, hw]
    exact hw'
  · rw [hget'] at ha'
    split at ha'
    · cases ha'
      rw [hsize', hsize]
    · exact h.2 a' row ha'
  · rw [read, read, hget']
    by_cases haa : a' = a
    · subst haa
      rw [if_pos rfl, hrow, Option.bind_eq_bind, Option.bind_some, Option.bind_some, hget]
      simp only [true_and]
    · rw [if_neg haa, if_neg fun hab => haa hab.1]

/-- What is written can be read. -/
theorem read_of_write {table' : Table α} (h : table.write a b v = some table') :
    table'.read a b = some v := by
  simp only [write, Guarded.write, Option.bind_eq_bind, Option.bind_eq_some_iff,
    Option.dite_none_right_eq_some, Option.some.injEq] at h
  obtain ⟨row, -, row', ⟨hb, rfl⟩, ha, rfl⟩ := h
  simp [read]

/-- Where nothing can be read, nothing can be written. -/
theorem read_bind_write (table : Table α) (a b : Nat) (v : α) :
    ((table.read a b).bind fun _ => table.write a b v) = table.write a b v := by
  rw [read, write]
  cases table[a]? with
  | none => rfl
  | some row =>
      simp only [Option.bind_eq_bind, Option.bind_some]
      by_cases hb : b < row.size
      · rw [Array.getElem?_eq_getElem hb]
        rfl
      · rw [Array.getElem?_eq_none (by omega), Guarded.write, dif_neg hb]
        rfl

/-- The entries that `P` singles out are those of `f`. -/
def HoldsAt (table : Table α) (f : Nat → Nat → α) (P : Nat → Nat → Prop) : Prop :=
  ∀ a b, P a b → table.read a b = some (f a b)

/-- One entry more is that of `f` when it is written. -/
theorem Fits.exists_write_next {f : Nat → Nat → α} {P Q : Nat → Nat → Prop}
    (hfits : table.Fits m n) (h : table.HoldsAt f P) (ha : a < m) (hb : b < n)
    (hQ : ∀ a' b', Q a' b' → P a' b' ∨ (a' = a ∧ b' = b)) :
    ∃ table', table.write a b (f a b) = some table' ∧ table'.Fits m n ∧ table'.HoldsAt f Q := by
  obtain ⟨table', hw, hfits', hread⟩ := hfits.exists_write ha hb (f a b)
  refine ⟨table', hw, hfits', fun a' b' hq => ?_⟩
  rw [hread]
  split
  next heq => rw [heq.1, heq.2]
  next hne => exact h a' b' ((hQ a' b' hq).resolve_right hne)

/-- The table whose entries in the rows `1`, …, `m` and the columns `1`, …, `n` are computed one
after another. -/
def fillPairs (value : Nat → Nat → Option α) (m n : Nat) (v : α) : Option (Table α) :=
  Guarded.countPairs (fun i j table => do table.write i j (← value i j)) m n
    (blank (m + 1) (n + 1) v)

/-- What holds of a table when the first `a` rows are filled, and of the next row the first `b`
columns. -/
structure Written (f : Nat → Nat → α) (m n a b : Nat) (table : Table α) : Prop where
  fits : table.Fits (m + 1) (n + 1)
  read : ∀ x < m, ∀ y < n, x < a ∨ (x = a ∧ y < b) → table.read (x + 1) (y + 1) = some (f x y)

/-- Writing the next entry of a row leaves one entry more written. -/
theorem Written.next {f : Nat → Nat → α} (h : table.Written f m n a b) (ha : a < m) (hb : b < n) :
    ∃ table', table.write (a + 1) (b + 1) (f a b) = some table' ∧
      table'.Written f m n a (b + 1) := by
  obtain ⟨table', hw, hfits, hread⟩ :=
    h.fits.exists_write (a := a + 1) (b := b + 1) (by omega) (by omega) (f a b)
  refine ⟨table', hw, hfits, fun x hx y hy hxy => ?_⟩
  rw [hread]
  split
  next heq =>
    obtain ⟨rfl, rfl⟩ : x = a ∧ y = b := by omega
    rfl
  next hne => exact h.read x hx y hy (by omega)

/-- A table can be filled if each of its entries can be computed. -/
theorem exists_fillPairs {value : Nat → Nat → Option α} {f : Nat → Nat → α}
    (h : ∀ x < m, ∀ y < n, value (x + 1) (y + 1) = some (f x y)) :
    ∃ table, fillPairs value m n v = some table ∧
      ∀ x < m, ∀ y < n, table.read (x + 1) (y + 1) = some (f x y) := by
  suffices hrun : ∃ table, fillPairs value m n v = some table ∧ table.Written f m n m 0 by
    obtain ⟨table, hfill, hwritten⟩ := hrun
    exact ⟨table, hfill, fun x hx y hy => hwritten.read x hx y hy (.inl hx)⟩
  refine Guarded.countPairs_spec (Written f m n) ⟨blank_fits, fun x _ y _ hxy => by omega⟩
    (fun a _ table hw => ⟨hw.fits, fun x hx y hy hxy => hw.read x hx y hy (by omega)⟩)
    fun a ha b hb table hw => ?_
  rw [h a ha b hb]
  exact hw.next ha hb

end Table

end Entailment
