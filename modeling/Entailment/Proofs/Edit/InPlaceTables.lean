import Entailment.Proofs.Edit.InPlace
import Entailment.Proofs.Edit.SubtreeTable

/-! # The tables filled in place

Filling the tables of the distance in place never leaves them and never falls below zero, and the
tables hold what they are meant to hold.

* **`Guarded.Tables.Lists`** — the tables are those of a comparison;
* **`Guarded.Tables.Knows`** — a table knows the distance of a pair of subtrees;
* **`Guarded.Tables.exists_forestTable`** — a forest table of closed runs is filled with the costs
  of its forests, and what is known about subtrees stays known;
* **`Guarded.Tables.exists_whole`** — so is the table of the whole forests. -/

namespace Entailment.Guarded

variable {α : Type} [Cost α]

/-! ## Prices -/

/-- Nodes have prices by their numbers. -/
theorem exists_priceEach {d : Numbering} {o : PostOrder} (h : d.Lists o) (price : Nat → α) :
    ∃ prices, priceEach price d o.size = some prices ∧
      ∀ p < o.size, prices[p + 1]? = some (price (o.node p)) := by
  refine exists_fill (fun p => price (o.node p)) fun p hp _ _ => ?_
  rw [h.node p hp]
  rfl

/-- Pairs of nodes have prices by their numbers. -/
theorem exists_pricePairs {t h : Numbering} {o₁ o₂ : PostOrder} (ht : t.Lists o₁) (hh : h.Lists o₂)
    (price : Nat → Nat → α) :
    ∃ prices, pricePairs price t h o₁.size o₂.size = some prices ∧
      ∀ x < o₁.size, ∀ y < o₂.size,
        prices.read (x + 1) (y + 1) = some (price (o₁.node x) (o₂.node y)) := by
  refine Table.exists_fillPairs fun x hx y hy => ?_
  rw [ht.node x hx, hh.node y hy]
  rfl

namespace Tables

/-- The tables are those of a comparison. -/
structure Lists (T : Tables α) (c : Comparison α) : Prop where
  t : T.t.Lists c.t
  h : T.h.Lists c.h
  delete : ∀ x < c.t.size, T.delete[x + 1]? = some (c.deleteCost x)
  insert : ∀ y < c.h.size, T.insert[y + 1]? = some (c.insertCost y)
  replace : ∀ x < c.t.size, ∀ y < c.h.size,
    T.replace.read (x + 1) (y + 1) = some (c.replaceCost x y)

/-- The tables of two trees are filled without leaving them. -/
theorem exists_ofTrees (t h : Tree) (costs : CostModel α) :
    ∃ T, ofTrees t h costs = some T ∧ T.Lists (t.compare h costs) := by
  obtain ⟨t', ht, hlt⟩ := Numbering.exists_ofTree t
  obtain ⟨h', hh, hlh⟩ := Numbering.exists_ofTree h
  obtain ⟨delete, hdelete, hd⟩ := exists_priceEach hlt costs.delete
  obtain ⟨insert, hinsert, hi⟩ := exists_priceEach hlh costs.insert
  obtain ⟨replace, hreplace, hr⟩ := exists_pricePairs hlt hlh costs.replace
  refine ⟨⟨t', h', delete, insert, replace⟩, ?_, hlt, hlh, hd, hi, hr⟩
  simp only [ofTrees, ht, hh, hlt.size, hlh.size, hdelete, hinsert, hreplace, Option.bind_eq_bind,
    Option.bind_some]

variable {T : Tables α} {c : Comparison α} {l₁ l₂ m n a b : Nat} {forests subtrees : Table α}

/-! ## Entries of a forest table -/

/-- Next to an entry that holds its cost, deleting costs that and the deletion. -/
theorem deleting_eq (hT : T.Lists c) (hx : l₁ + a < c.t.size)
    (h : forests.read a b = some (c.forestCost l₁ l₂ a b)) :
    T.deleting forests (l₁ + a + 1) (a + 1) b =
      some (Cost.add (c.forestCost l₁ l₂ a b) (c.deleteCost (l₁ + a))) := by
  simp only [deleting, succ_psub_one, Option.bind_eq_bind, Option.bind_some, h, hT.delete _ hx]

/-- Next to an entry that holds its cost, inserting costs that and the insertion. -/
theorem inserting_eq (hT : T.Lists c) (hy : l₂ + b < c.h.size)
    (h : forests.read a b = some (c.forestCost l₁ l₂ a b)) :
    T.inserting forests (l₂ + b + 1) a (b + 1) =
      some (Cost.add (c.forestCost l₁ l₂ a b) (c.insertCost (l₂ + b))) := by
  simp only [inserting, succ_psub_one, Option.bind_eq_bind, Option.bind_some, h, hT.insert _ hy]

/-- The table knows the distance of a pair of subtrees. -/
def Knows (c : Comparison α) (subtrees : Table α) (x y : Nat) : Prop :=
  subtrees.read (x + 1) (y + 1) = some (c.subtreeCost x y)

/-- An entry whose neighbours hold the costs of their forests is filled with the cost of its own. If
these are subtrees, their distance is recorded, and otherwise it must be known. -/
theorem cellStep_eq {forests' subtrees' : Table α} (hT : T.Lists c) (hx : l₁ + a < c.t.size)
    (hy : l₂ + b < c.h.size) (hl₁ : l₁ ≤ c.t.leftmost (l₁ + a)) (hl₂ : l₂ ≤ c.h.leftmost (l₂ + b))
    (h : forests.HoldsAt (c.forestCost l₁ l₂)
      fun a' b' => a' ≤ a + 1 ∧ b' ≤ b + 1 ∧ (a' ≤ a ∨ b' ≤ b))
    (hw : forests.write (a + 1) (b + 1) (c.forestCost l₁ l₂ (a + 1) (b + 1)) = some forests')
    (hwhole : c.t.leftmost (l₁ + a) = l₁ ∧ c.h.leftmost (l₂ + b) = l₂ →
      subtrees.write (l₁ + a + 1) (l₂ + b + 1) (c.forestCost l₁ l₂ (a + 1) (b + 1)) =
        some subtrees')
    (hapart : ¬(c.t.leftmost (l₁ + a) = l₁ ∧ c.h.leftmost (l₂ + b) = l₂) →
      Knows c subtrees (l₁ + a) (l₂ + b) ∧ subtrees' = subtrees) :
    T.cellStep (l₁ + 1) (l₂ + 1) (a + 1) (b + 1) (forests, subtrees) =
      some (forests', subtrees') := by
  have hx' := c.t.leftmost_le_self (l₁ + a)
  have hy' := c.h.leftmost_le_self (l₂ + b)
  have hdelete := deleting_eq hT hx (h a (b + 1) (by omega))
  have hinsert := inserting_eq hT hy (h (a + 1) b (by omega))
  rw [Comparison.forestCost_succ_succ, Comparison.pairing] at hw hwhole
  simp only [cellStep, succ_psub_one, Option.bind_eq_bind, Option.bind_some, hdelete, hinsert,
    ← Nat.add_assoc, hT.t.leftmost _ hx, hT.h.leftmost _ hy, Nat.add_right_cancel_iff]
  by_cases whole : c.t.leftmost (l₁ + a) = l₁ ∧ c.h.leftmost (l₂ + b) = l₂
  · rw [if_pos whole] at hw hwhole
    simp only [if_pos whole, h a b (by omega), hT.replace _ hx _ hy, Option.bind_some]
    rw [← Comparison.deleting, ← Comparison.inserting, hw, hwhole whole]
    rfl
  · obtain ⟨hknown, rfl⟩ := hapart whole
    rw [if_neg whole] at hw
    have hbefore₁ : (c.t.leftmost (l₁ + a) + 1).psub (l₁ + 1) = some (c.t.leftmost (l₁ + a) - l₁) :=
      Nat.psub_eq_some.2 (by omega)
    have hbefore₂ : (c.h.leftmost (l₂ + b) + 1).psub (l₂ + 1) = some (c.h.leftmost (l₂ + b) - l₂) :=
      Nat.psub_eq_some.2 (by omega)
    rw [Knows] at hknown
    simp only [if_neg whole, hbefore₁, hbefore₂, Option.bind_some, hknown,
      h (c.t.leftmost (l₁ + a) - l₁) (c.h.leftmost (l₂ + b) - l₂) (by omega)]
    rw [← Comparison.deleting, ← Comparison.inserting, hw]
    rfl

/-! ## Subtree distances -/

/-- A table of subtree distances of full size that knows what another one knows. -/
structure Keeps (c : Comparison α) (subtrees subtrees' : Table α) : Prop where
  fits : subtrees'.Fits (c.t.size + 1) (c.h.size + 1)
  knows : ∀ x y, Knows c subtrees x y → Knows c subtrees' x y

/-- What is kept from one table to the next and from that to a third is kept to the third. -/
theorem Keeps.trans {subtrees' subtrees'' : Table α} (h : Keeps c subtrees subtrees')
    (h' : Keeps c subtrees' subtrees'') : Keeps c subtrees subtrees'' :=
  ⟨h'.fits, fun x y hxy => h'.knows x y (h.knows x y hxy)⟩

/-- Recording the distance of a pair of subtrees overwrites nothing that is known. -/
theorem exists_recorded {x y : Nat} (hfits : subtrees.Fits (c.t.size + 1) (c.h.size + 1))
    (hx : x < c.t.size) (hy : y < c.h.size) :
    ∃ subtrees', subtrees.write (x + 1) (y + 1) (c.subtreeCost x y) = some subtrees' ∧
      Keeps c subtrees subtrees' ∧ Knows c subtrees' x y := by
  obtain ⟨subtrees', hw, hfits', hread⟩ :=
    hfits.exists_write (a := x + 1) (b := y + 1) (by omega) (by omega) (c.subtreeCost x y)
  refine ⟨subtrees', hw, ⟨hfits', fun x' y' h => ?_⟩, ?_⟩
  · rw [Knows, hread]
    split
    next heq =>
      obtain ⟨rfl, rfl⟩ : x' = x ∧ y' = y := by omega
      rfl
    next => exact h
  · rw [Knows, hread, if_pos ⟨rfl, rfl⟩]

/-- The two forests of a forest table, and the subtree distances that are known beforehand: those of
all pairs in the two forests but for those that begin where the forests begin. -/
structure Ready (c : Comparison α) (l₁ l₂ m n : Nat) (subtrees : Table α) : Prop where
  le₁ : l₁ + m ≤ c.t.size
  le₂ : l₂ + n ≤ c.h.size
  closed₁ : c.t.Closed l₁ (l₁ + m)
  closed₂ : c.h.Closed l₂ (l₂ + n)
  fits : subtrees.Fits (c.t.size + 1) (c.h.size + 1)
  knows : ∀ a < m, ∀ b < n, ¬(c.t.leftmost (l₁ + a) = l₁ ∧ c.h.leftmost (l₂ + b) = l₂) →
    Knows c subtrees (l₁ + a) (l₂ + b)

/-- What holds of the two tables when the first `a` rows below row zero are filled, and of the next
row the first `b` columns to the right of column zero. -/
structure Filled (c : Comparison α) (l₁ l₂ m n : Nat) (subtrees : Table α) (a b : Nat)
    (s : Table α × Table α) : Prop where
  fits : s.1.Fits (m + 1) (n + 1)
  holds : s.1.HoldsAt (c.forestCost l₁ l₂) fun a' b' =>
    a' ≤ m ∧ b' ≤ n ∧ (a' ≤ a ∨ b' = 0 ∨ (a' = a + 1 ∧ b' ≤ b))
  keeps : Keeps c subtrees s.2
  records : ∀ a' < m, ∀ b' < n, a' < a ∨ (a' = a ∧ b' < b) →
    c.t.leftmost (l₁ + a') = l₁ → c.h.leftmost (l₂ + b') = l₂ → Knows c s.2 (l₁ + a') (l₂ + b')

/-- One entry more is filled. -/
theorem Filled.next (hT : T.Lists c) (hr : Ready c l₁ l₂ m n subtrees) (ha : a < m) (hb : b < n)
    {s : Table α × Table α} (h : Filled c l₁ l₂ m n subtrees a b s) :
    ∃ s', T.cellStep (l₁ + 1) (l₂ + 1) (a + 1) (b + 1) s = some s' ∧
      Filled c l₁ l₂ m n subtrees a (b + 1) s' := by
  have hx : l₁ + a < c.t.size := by have := hr.le₁; omega
  have hy : l₂ + b < c.h.size := by have := hr.le₂; omega
  have hl₁ := hr.closed₁ (l₁ + a) (by omega) (by omega)
  have hl₂ := hr.closed₂ (l₂ + b) (by omega) (by omega)
  have hnear : s.1.HoldsAt (c.forestCost l₁ l₂)
      fun a' b' => a' ≤ a + 1 ∧ b' ≤ b + 1 ∧ (a' ≤ a ∨ b' ≤ b) :=
    fun a' b' hab => h.holds a' b' (by omega)
  obtain ⟨forests', hw, hfits, hholds⟩ := h.fits.exists_write_next h.holds
    (Q := fun a' b' => a' ≤ m ∧ b' ≤ n ∧ (a' ≤ a ∨ b' = 0 ∨ (a' = a + 1 ∧ b' ≤ b + 1)))
    (a := a + 1) (b := b + 1) (by omega) (by omega) fun a' b' hab => by omega
  by_cases whole : c.t.leftmost (l₁ + a) = l₁ ∧ c.h.leftmost (l₂ + b) = l₂
  · obtain ⟨subtrees', hw', hkeeps, hknows⟩ := exists_recorded h.keeps.fits hx hy
    rw [Comparison.subtreeCost_of_whole whole.1 whole.2] at hw'
    refine ⟨(forests', subtrees'),
      cellStep_eq hT hx hy hl₁ hl₂ hnear hw (fun _ => hw') (absurd whole), hfits, hholds,
      h.keeps.trans hkeeps, fun a' ha' b' hb' hab hleaf₁ hleaf₂ => ?_⟩
    by_cases heq : a' = a ∧ b' = b
    · rw [heq.1, heq.2]
      exact hknows
    · exact hkeeps.knows _ _ (h.records a' ha' b' hb' (by omega) hleaf₁ hleaf₂)
  · have hknows := h.keeps.knows _ _ (hr.knows a ha b hb whole)
    refine ⟨(forests', s.2),
      cellStep_eq hT hx hy hl₁ hl₂ hnear hw (absurd · whole) (fun _ => ⟨hknows, rfl⟩), hfits,
      hholds, h.keeps, fun a' ha' b' hb' hab hleaf₁ hleaf₂ =>
        h.records a' ha' b' hb' ?_ hleaf₁ hleaf₂⟩
    have hne : ¬(a' = a ∧ b' = b) := by
      rintro ⟨rfl, rfl⟩
      exact whole ⟨hleaf₁, hleaf₂⟩
    omega

/-- The column of the empty forest is filled. -/
theorem exists_column (hT : T.Lists c) (hm : l₁ + m ≤ c.t.size) (l₂ n : Nat) :
    ∃ forests, countUp (T.columnStep (l₁ + 1)) m (Table.blank (m + 1) (n + 1) Cost.zero) =
        some forests ∧
      forests.Fits (m + 1) (n + 1) ∧
      forests.HoldsAt (c.forestCost l₁ l₂) fun a b => a ≤ m ∧ b = 0 := by
  refine countUp_spec (fun k (forests : Table α) => forests.Fits (m + 1) (n + 1) ∧
    forests.HoldsAt (c.forestCost l₁ l₂) fun a b => a ≤ k ∧ b = 0)
    ⟨Table.blank_fits, fun a b hab => ?_⟩ fun k hk forests hinv => ?_
  · obtain ⟨rfl, rfl⟩ : a = 0 ∧ b = 0 := by omega
    rw [Table.read_blank (by omega) (by omega), Comparison.forestCost_zero_zero]
  · obtain ⟨hfits, hholds⟩ := hinv
    obtain ⟨forests', hw, h'⟩ := hfits.exists_write_next hholds (Q := fun a b => a ≤ k + 1 ∧ b = 0)
      (a := k + 1) (b := 0) (by omega) (by omega) fun a b hab => by omega
    refine ⟨forests', ?_, h'⟩
    rw [Comparison.forestCost_succ_zero] at hw
    simp only [columnStep, succ_psub_one, Option.bind_eq_bind, Option.bind_some, ← Nat.add_assoc,
      deleting_eq hT (by omega : l₁ + k < c.t.size) (hholds k 0 (by omega)), hw]

/-- The row of the empty forest is filled. -/
theorem exists_row (hT : T.Lists c) (hn : l₂ + n ≤ c.h.size)
    (hfits : forests.Fits (m + 1) (n + 1))
    (hholds : forests.HoldsAt (c.forestCost l₁ l₂) fun a b => a ≤ m ∧ b = 0) :
    ∃ forests', countUp (T.rowStep (l₂ + 1)) n forests = some forests' ∧
      forests'.Fits (m + 1) (n + 1) ∧
      forests'.HoldsAt (c.forestCost l₁ l₂) fun a b => (a ≤ m ∧ b = 0) ∨ (a = 0 ∧ b ≤ n) := by
  refine countUp_spec (fun k (forests : Table α) => forests.Fits (m + 1) (n + 1) ∧
    forests.HoldsAt (c.forestCost l₁ l₂) fun a b => (a ≤ m ∧ b = 0) ∨ (a = 0 ∧ b ≤ k))
    ⟨hfits, fun a b hab => hholds a b (by omega)⟩ fun k hk forests hinv => ?_
  obtain ⟨hfits, hholds⟩ := hinv
  obtain ⟨forests', hw, h'⟩ := hfits.exists_write_next hholds
    (Q := fun a b => (a ≤ m ∧ b = 0) ∨ (a = 0 ∧ b ≤ k + 1))
    (a := 0) (b := k + 1) (by omega) (by omega) fun a b hab => by omega
  refine ⟨forests', ?_, h'⟩
  rw [Comparison.forestCost_zero_succ] at hw
  simp only [rowStep, succ_psub_one, Option.bind_eq_bind, Option.bind_some, ← Nat.add_assoc,
    inserting_eq hT (by omega : l₂ + k < c.h.size) (hholds 0 k (by omega)), hw]

/-- The column and the row of the empty forest are filled before anything else. -/
theorem exists_borders (hT : T.Lists c) (hr : Ready c l₁ l₂ m n subtrees) :
    ∃ column row, countUp (T.columnStep (l₁ + 1)) m (Table.blank (m + 1) (n + 1) Cost.zero) =
        some column ∧
      countUp (T.rowStep (l₂ + 1)) n column = some row ∧
      Filled c l₁ l₂ m n subtrees 0 0 (row, subtrees) := by
  obtain ⟨column, hcolumn, hfits, hholds⟩ := exists_column hT hr.le₁ l₂ n
  obtain ⟨row, hrow, hfits, hholds⟩ := exists_row hT hr.le₂ hfits hholds
  exact ⟨column, row, hcolumn, hrow, hfits, fun a b hab => hholds a b (by omega),
    ⟨hr.fits, fun _ _ h => h⟩, fun a _ b _ hab => by omega⟩

/-- A full row counts as the beginning of the next. -/
theorem Filled.nextRow {s : Table α × Table α} (h : Filled c l₁ l₂ m n subtrees a n s) :
    Filled c l₁ l₂ m n subtrees (a + 1) 0 s :=
  ⟨h.fits, fun a' b' hab => h.holds a' b' (by omega), h.keeps,
    fun a' ha' b' hb' hab => h.records a' ha' b' hb' (by omega)⟩

/-- The forest table of two closed runs is filled with the costs of their forests, and the subtrees
that begin where the forests begin are recorded. -/
theorem exists_forestTable (hT : T.Lists c) (hr : Ready c l₁ l₂ m n subtrees) :
    ∃ forests subtrees', T.forestTable (l₁ + m) (l₁ + 1) (l₂ + n) (l₂ + 1) subtrees =
        some (forests, subtrees') ∧
      forests.HoldsAt (c.forestCost l₁ l₂) (fun a b => a ≤ m ∧ b ≤ n) ∧ Keeps c subtrees subtrees' ∧
      ∀ a < m, ∀ b < n, c.t.leftmost (l₁ + a) = l₁ → c.h.leftmost (l₂ + b) = l₂ →
        Knows c subtrees' (l₁ + a) (l₂ + b) := by
  obtain ⟨column, row, hcolumn, hrow, hstart⟩ := exists_borders hT hr
  obtain ⟨⟨forests, subtrees'⟩, hrun, hfilled⟩ := countPairs_spec (Filled c l₁ l₂ m n subtrees)
    hstart (fun a _ s h => h.nextRow) fun a ha b hb s h => h.next hT hr ha hb
  refine ⟨forests, subtrees', ?_, fun a b hab => hfilled.holds a b (by omega), hfilled.keeps,
    fun a ha b hb => hfilled.records a ha b hb (.inl ha)⟩
  have hrows : (l₁ + m + 2).psub (l₁ + 1) = some (m + 1) := Nat.psub_eq_some.2 (by omega)
  have hcolumns : (l₂ + n + 2).psub (l₂ + 1) = some (n + 1) := Nat.psub_eq_some.2 (by omega)
  simp only [forestTable, hrows, hcolumns, Option.bind_eq_bind, Option.bind_some,
    Nat.add_sub_cancel, hcolumn, hrow, hrun]

/-! ## All pairs of subtrees -/

/-- The distances of all pairs of subtrees are known. -/
structure Complete (c : Comparison α) (subtrees : Table α) : Prop where
  fits : subtrees.Fits (c.t.size + 1) (c.h.size + 1)
  knows : ∀ x < c.t.size, ∀ y < c.h.size, Knows c subtrees x y

/-- A table that keeps what a complete one knows is complete. -/
theorem Complete.keeps {subtrees' : Table α} (h : Complete c subtrees)
    (hkeeps : Keeps c subtrees subtrees') : Complete c subtrees' :=
  ⟨hkeeps.fits, fun x hx y hy => hkeeps.knows x y (h.knows x hx y hy)⟩

/-- A complete table is ready for every pair of closed runs. -/
theorem Complete.ready (h : Complete c subtrees) (hm : l₁ + m ≤ c.t.size)
    (hn : l₂ + n ≤ c.h.size) (closed₁ : c.t.Closed l₁ (l₁ + m))
    (closed₂ : c.h.Closed l₂ (l₂ + n)) : Ready c l₁ l₂ m n subtrees :=
  ⟨hm, hn, closed₁, closed₂, h.fits, fun _ _ _ _ _ => h.knows _ (by omega) _ (by omega)⟩

/-- The distances of the pairs of subtrees that share their leftmost leaves with one of the given
pairs are known. -/
structure Recorded (c : Comparison α) (done : List (Nat × Nat)) (subtrees : Table α) : Prop where
  fits : subtrees.Fits (c.t.size + 1) (c.h.size + 1)
  knows : ∀ x < c.t.size, ∀ y < c.h.size,
    (∃ q ∈ done, c.t.leftmost q.1 = c.t.leftmost x ∧ c.h.leftmost q.2 = c.h.leftmost y) →
      Knows c subtrees x y

/-- What a pair of keyroots reads was recorded before it. -/
theorem Recorded.ready {done rest : List (Nat × Nat)} {p : Nat × Nat}
    (hsplit : c.keyrootPairs = done ++ p :: rest) (h : Recorded c done subtrees) :
    Ready c (c.t.leftmost p.1) (c.h.leftmost p.2) (c.t.width p.1) (c.h.width p.2) subtrees := by
  obtain ⟨hlt₁, hlt₂⟩ := Comparison.lt_of_mem_keyrootPairs
    (show p ∈ c.keyrootPairs by simp [hsplit])
  have hend₁ := c.t.leftmost_add_width p.1
  have hend₂ := c.h.leftmost_add_width p.2
  exact ⟨by omega, by omega, c.t.closed_subtree _, c.h.closed_subtree _, h.fits,
    fun a ha b hb apart => h.knows _ (by omega) _ (by omega)
      (Comparison.exists_earlier_keyroots hsplit (by omega) (by omega) (by omega) (by omega)
        apart)⟩

/-- What a pair of keyroots tells is recorded. -/
theorem Recorded.next (hT : T.Lists c) {done rest : List (Nat × Nat)} {p : Nat × Nat}
    (hsplit : c.keyrootPairs = done ++ p :: rest) (h : Recorded c done subtrees) :
    ∃ subtrees', T.keyrootStep subtrees (p.1 + 1) (p.2 + 1) = some subtrees' ∧
      Recorded c (done ++ [p]) subtrees' := by
  have hp : p ∈ c.keyrootPairs := by simp [hsplit]
  obtain ⟨hr₁, hr₂⟩ := Comparison.mem_keyrootPairs.1 hp
  obtain ⟨hlt₁, hlt₂⟩ := Comparison.lt_of_mem_keyrootPairs hp
  have hend₁ := c.t.leftmost_add_width p.1
  have hend₂ := c.h.leftmost_add_width p.2
  obtain ⟨forests, subtrees', hrun, -, hkeeps, hrecords⟩ :=
    exists_forestTable hT (h.ready hsplit)
  rw [hend₁, hend₂] at hrun
  refine ⟨subtrees', ?_, hkeeps.fits, fun x hx y hy hxy => ?_⟩
  · simp only [keyrootStep, hT.t.leftmost _ hlt₁, hT.h.leftmost _ hlt₂, Option.bind_eq_bind,
      Option.bind_some, hrun]
  · obtain ⟨q, hq, hleft₁, hleft₂⟩ := hxy
    rcases List.mem_append.1 hq with hq | hq
    · exact hkeeps.knows x y (h.knows x hx y hy ⟨q, hq, hleft₁, hleft₂⟩)
    · obtain rfl := List.mem_singleton.1 hq
      obtain ⟨hx₁, hx₂⟩ := PostOrder.mem_subtree_of_keyroot hr₁ hx hleft₁
      obtain ⟨hy₁, hy₂⟩ := PostOrder.mem_subtree_of_keyroot hr₂ hy hleft₂
      obtain ⟨a, rfl⟩ := Nat.exists_eq_add_of_le hx₁
      obtain ⟨b, rfl⟩ := Nat.exists_eq_add_of_le hy₁
      exact hrecords a (by omega) b (by omega) hleft₁.symm hleft₂.symm

omit [Cost α] in
/-- The loops over the keyroots are one over the pairs of keyroots. -/
theorem foldlM_keyroots {σ : Type} {T : Tables α} {c : Comparison α} (ht : T.t.Lists c.t)
    (hh : T.h.Lists c.h) (step : σ → Nat → Nat → Option σ) (s : σ) :
    T.t.keyroots.foldlM (fun s i => T.h.keyroots.foldlM (fun s j => step s i j) s) s =
      c.keyrootPairs.foldlM (fun s p => step s (p.1 + 1) (p.2 + 1)) s := by
  rw [ht.keyroots, hh.keyroots, List.foldlM_map]
  simp only [List.foldlM_map]
  exact foldlM_foldlM (fun s x y => step s (x + 1) (y + 1)) _ _ _

/-- What all pairs of keyroots tell is everything. -/
theorem Recorded.complete (h : Recorded c c.keyrootPairs subtrees) : Complete c subtrees := by
  refine ⟨h.fits, fun x hx y hy => ?_⟩
  obtain ⟨k₁, hk₁, -, hleft₁⟩ := c.t.exists_keyroot hx
  obtain ⟨k₂, hk₂, -, hleft₂⟩ := c.h.exists_keyroot hy
  exact h.knows x hx y hy
    ⟨(k₁, k₂), Comparison.mem_keyrootPairs.2 ⟨hk₁, hk₂⟩, hleft₁, hleft₂⟩

/-- Before any pair of keyroots, nothing need be known. -/
theorem recorded_nil (c : Comparison α) :
    Recorded c [] (Table.blank (c.t.size + 1) (c.h.size + 1) Cost.zero) :=
  ⟨Table.blank_fits, fun x _ y _ h => by simp at h⟩

/-- All pairs of keyroots together tell the distances of all pairs of subtrees. -/
theorem exists_subtrees (hT : T.Lists c) :
    ∃ subtrees, T.subtrees (Table.blank (c.t.size + 1) (c.h.size + 1) Cost.zero) = some subtrees ∧
      Complete c subtrees := by
  obtain ⟨subtrees, hfold, hrecorded⟩ := foldlM_spec c.keyrootPairs (Recorded c) (recorded_nil c)
    fun done p rest hsplit subtrees h => h.next hT hsplit
  exact ⟨subtrees, (foldlM_keyroots hT.t hT.h T.keyrootStep _).trans hfold, hrecorded.complete⟩

/-- The table of the whole forests is filled, and tells their distance. -/
theorem exists_whole (hT : T.Lists c) :
    ∃ subtrees, T.whole = some (c.distance, subtrees) ∧ Complete c subtrees := by
  obtain ⟨subtrees, hsubtrees, hcomplete⟩ := exists_subtrees hT
  have hready : Ready c 0 0 c.t.size c.h.size subtrees :=
    hcomplete.ready (by omega) (by omega) (c.t.closed_zero _) (c.h.closed_zero _)
  obtain ⟨forests, subtrees', hrun, hholds, hkeeps, -⟩ := exists_forestTable hT hready
  simp only [Nat.zero_add] at hrun
  refine ⟨subtrees', ?_, hcomplete.keeps hkeeps⟩
  simp only [whole, hT.t.size, hT.h.size, Option.bind_eq_bind, Option.bind_some, hsubtrees, hrun,
    hholds _ _ ⟨Nat.le_refl _, Nat.le_refl _⟩, c.distance_eq]

end Tables

end Entailment.Guarded
