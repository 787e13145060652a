import Entailment.Proofs.Edit.InPlaceScript
import Entailment.Proofs.Edit.Journal
import Mathlib.Data.List.ProdSigma

/-! # The calls of a computation

What each call reads and writes among the subtree distances, told by the positions of the two trees.
An entry of a forest table makes one access. If its forests are two subtrees, it writes their
distance, and otherwise it reads that of the last two subtrees in them.

* **`Guarded.Call.Tells`** — what the call for two runs of positions tells;
* **`Guarded.Tables.exists_notedTable`** — the call for two closed runs tells that;
* **`Guarded.Tables.exists_notedWhole`** — the calls of the keyroots, and then that of the distance;
* **`Guarded.Tables.exists_notedBacktrack`** — the calls of the script. -/

namespace Entailment

namespace Guarded

variable {α : Type} [Cost α] {T : Tables α} {c : Comparison α} {l₁ l₂ m n a b x y : Nat}
  {known : Prop} {p : Nat × Nat}

/-! ## What a call tells -/

/-- What an entry of a forest table from the positions `l₁` and `l₂` on does. The distance of
subtrees that begin there is written, which changes nothing if all distances were known before. Any
other distance is read. -/
inductive Access.Tells (c : Comparison α) (known : Prop) (l₁ l₂ : Nat) : Access α → Prop
  | read {x y : Nat} (apart : ¬(c.t.leftmost x = l₁ ∧ c.h.leftmost y = l₂)) :
    Tells c known l₁ l₂ (.read (x + 1) (y + 1) (c.subtreeCost x y))
  | write {x y : Nat} {held : α} (whole : c.t.leftmost x = l₁ ∧ c.h.leftmost y = l₂)
    (again : known → held = c.subtreeCost x y) :
    Tells c known l₁ l₂ (.write (x + 1) (y + 1) held (c.subtreeCost x y))

/-- What the call for the forest table of two runs of positions tells: its entries are the costs of
the forests, and there is one access for each pair of numbers, in order. -/
structure Call.Tells (c : Comparison α) (known : Prop) (l₁ l₂ m n : Nat) (k : Call α) : Prop where
  begins : k.l₁ = l₁ + 1 ∧ k.l₂ = l₂ + 1
  ends : k.i = l₁ + m ∧ k.j = l₂ + n
  forests : k.forests.HoldsAt (c.forestCost l₁ l₂) fun a b => a ≤ m ∧ b ≤ n
  numbers : k.accesses.map Access.numbers = List.range' (l₁ + 1) m ×ˢ List.range' (l₂ + 1) n
  tells : ∀ e ∈ k.accesses, e.Tells c known l₁ l₂

/-- What the call for two whole subtrees tells. -/
def Call.TellsSubtrees (c : Comparison α) (known : Prop) (p : Nat × Nat) (k : Call α) : Prop :=
  k.Tells c known (c.t.leftmost p.1) (c.h.leftmost p.2) (c.t.width p.1) (c.h.width p.2)

namespace Call

variable {k : Call α} {v held : α}

/-- Each pair of numbers of the two runs has its access. -/
theorem Tells.numbers_eq (h : k.Tells c known l₁ l₂ m n) : k.accesses.map Access.numbers =
    List.range' k.l₁ (k.i + 1 - k.l₁) ×ˢ List.range' k.l₂ (k.j + 1 - k.l₂) := by
  rw [h.numbers, h.begins.1, h.begins.2, h.ends.1, h.ends.2,
    show l₁ + m + 1 - (l₁ + 1) = m by omega, show l₂ + n + 1 - (l₂ + 1) = n by omega]

/-- The numbers of an access are those of a pair of positions in the two runs. -/
theorem Tells.numbers_mem {e : Access α} (h : k.Tells c known l₁ l₂ m n) (he : e ∈ k.accesses)
    (hxy : e.numbers = (x + 1, y + 1)) : (l₁ ≤ x ∧ x < l₁ + m) ∧ l₂ ≤ y ∧ y < l₂ + n := by
  have hmem : (x + 1, y + 1) ∈ k.accesses.map Access.numbers := List.mem_map.2 ⟨e, he, hxy⟩
  rw [h.numbers, List.mem_product, List.mem_range'_1, List.mem_range'_1] at hmem
  omega

/-- What is read is the distance of two subtrees in the runs, one of which begins later. -/
theorem Tells.of_read (h : k.Tells c known l₁ l₂ m n) (he : .read x y v ∈ k.accesses) :
    ∃ p q, (x = p + 1 ∧ y = q + 1) ∧ ((l₁ ≤ p ∧ p < l₁ + m) ∧ l₂ ≤ q ∧ q < l₂ + n) ∧
      ¬(c.t.leftmost p = l₁ ∧ c.h.leftmost q = l₂) ∧ v = c.subtreeCost p q := by
  cases h.tells _ he with
  | read apart => exact ⟨_, _, ⟨rfl, rfl⟩, h.numbers_mem he rfl, apart, rfl⟩

/-- What is written is the distance of two subtrees that begin with the runs. -/
theorem Tells.of_write (h : k.Tells c known l₁ l₂ m n) (he : .write x y held v ∈ k.accesses) :
    ∃ p q, (x = p + 1 ∧ y = q + 1) ∧ ((l₁ ≤ p ∧ p < l₁ + m) ∧ l₂ ≤ q ∧ q < l₂ + n) ∧
      (c.t.leftmost p = l₁ ∧ c.h.leftmost q = l₂) ∧ v = c.subtreeCost p q ∧ (known → held = v) := by
  cases h.tells _ he with
  | write whole again => exact ⟨_, _, ⟨rfl, rfl⟩, h.numbers_mem he rfl, whole, rfl, again⟩

/-- The distance of two subtrees that begin with the runs is written. -/
theorem Tells.exists_write (h : k.Tells c known l₁ l₂ m n) (hx : x < l₁ + m) (hy : y < l₂ + n)
    (whole : c.t.leftmost x = l₁ ∧ c.h.leftmost y = l₂) :
    ∃ held, .write (x + 1) (y + 1) held (c.subtreeCost x y) ∈ k.accesses ∧
      (known → held = c.subtreeCost x y) := by
  have hx' := c.t.leftmost_le_self x
  have hy' := c.h.leftmost_le_self y
  have hmem : (x + 1, y + 1) ∈ k.accesses.map Access.numbers := by
    rw [h.numbers, List.mem_product, List.mem_range'_1, List.mem_range'_1]
    omega
  obtain ⟨e, he, hnumbers⟩ := List.mem_map.1 hmem
  cases h.tells e he with
  | read apart =>
      obtain ⟨hx, hy⟩ := Prod.mk.inj hnumbers
      rw [Nat.add_right_cancel hx, Nat.add_right_cancel hy] at apart
      exact absurd whole apart
  | write _ again =>
      obtain ⟨hx, hy⟩ := Prod.mk.inj hnumbers
      obtain rfl := Nat.add_right_cancel hx
      obtain rfl := Nat.add_right_cancel hy
      exact ⟨_, he, again⟩

/-- The call for two subtrees ends with their roots. -/
theorem ends_eq (h : k.TellsSubtrees c known p) : k.ends = (p.1 + 1, p.2 + 1) := by
  rw [ends, h.ends.1, h.ends.2, c.t.leftmost_add_width, c.h.leftmost_add_width]

/-- The roots that the call ends with are those of the two subtrees. -/
theorem tellsSubtrees_of_ends {q : Nat × Nat} (h : k.TellsSubtrees c known q)
    (hends : k.ends = (p.1 + 1, p.2 + 1)) : k.TellsSubtrees c known p := by
  rw [ends_eq h, Prod.mk.injEq, Nat.add_right_cancel_iff, Nat.add_right_cancel_iff] at hends
  obtain rfl : q = p := Prod.ext hends.1 hends.2
  exact h

end Call

namespace Tables

/-! ## One forest table -/

/-- The one access that an entry makes. -/
theorem notedCell_cases {s s' : Table α × Noted (Access α) α} (hT : T.Lists c)
    (hx : l₁ + a < c.t.size) (hy : l₂ + b < c.h.size)
    (h : T.notedCell (l₁ + 1) (l₂ + 1) (a + 1) (b + 1) s = some s') :
    (¬(c.t.leftmost (l₁ + a) = l₁ ∧ c.h.leftmost (l₂ + b) = l₂) ∧
      ∃ v, s.2.subtrees.read (l₁ + a + 1) (l₂ + b + 1) = some v ∧
        s'.2.notes = s.2.notes ++ [.read (l₁ + a + 1) (l₂ + b + 1) v]) ∨
    ((c.t.leftmost (l₁ + a) = l₁ ∧ c.h.leftmost (l₂ + b) = l₂) ∧
      ∃ held v, s.2.subtrees.read (l₁ + a + 1) (l₂ + b + 1) = some held ∧
        s'.2.subtrees.read (l₁ + a + 1) (l₂ + b + 1) = some v ∧
        s'.2.notes = s.2.notes ++ [.write (l₁ + a + 1) (l₂ + b + 1) held v]) := by
  simp only [notedCell, succ_psub_one, Option.bind_eq_bind, Option.bind_some, ← Nat.add_assoc,
    hT.t.leftmost _ hx, hT.h.leftmost _ hy, Nat.add_right_cancel_iff] at h
  by_cases whole : c.t.leftmost (l₁ + a) = l₁ ∧ c.h.leftmost (l₂ + b) = l₂
  · simp only [if_pos whole, Option.bind_eq_some_iff, Option.some.injEq] at h
    obtain ⟨_, -, _, -, _, -, _, -, _, -, noted, hwrite, rfl⟩ := h
    obtain ⟨held, h⟩ := Noted.of_write hwrite
    exact .inr ⟨whole, held, _, h⟩
  · simp only [if_neg whole, Option.bind_eq_some_iff, Option.some.injEq] at h
    obtain ⟨_, -, _, -, _, -, _, -, _, -, ⟨v, noted⟩, hread, _, -, rfl⟩ := h
    exact .inl ⟨whole, v, Noted.of_read hread⟩

/-- The pairs of numbers of the first `a` rows of a forest table, and of the first `b` columns of
the next row. -/
def pairs (l₁ l₂ n a b : Nat) : List (Nat × Nat) :=
  List.range' l₁ a ×ˢ List.range' l₂ n ++ (List.range' l₂ b).map (l₁ + a, ·)

/-- The next entry of a row adds its pair of numbers. -/
theorem pairs_succ (l₁ l₂ n a b : Nat) :
    pairs l₁ l₂ n a (b + 1) = pairs l₁ l₂ n a b ++ [(l₁ + a, l₂ + b)] := by
  rw [pairs, pairs, List.range'_1_concat, List.map_append, List.append_assoc]
  rfl

/-- A full row counts as the beginning of the next. -/
theorem pairs_row (l₁ l₂ n a : Nat) : pairs l₁ l₂ n (a + 1) 0 = pairs l₁ l₂ n a n := by
  rw [pairs, pairs, List.range'_1_concat]
  simp [SProd.sprod, List.product]

/-- What holds when a forest table is filled up to some entry: each entry made the access that it
tells. -/
structure Noting (c : Comparison α) (known : Prop) (l₁ l₂ m n : Nat) (subtrees : Table α)
    (a b : Nat) (s : Table α × Noted (Access α) α) : Prop where
  filled : Filled c l₁ l₂ m n subtrees a b (Prod.map id Noted.subtrees s)
  numbers : s.2.notes.map Access.numbers = pairs (l₁ + 1) (l₂ + 1) n a b
  tells : ∀ e ∈ s.2.notes, e.Tells c known l₁ l₂

variable {subtrees : Table α}

/-- One entry more makes its access. -/
theorem Noting.next (hT : T.Lists c) (hr : Ready c l₁ l₂ m n subtrees)
    (hknown : known → Complete c subtrees) (ha : a < m) (hb : b < n)
    {s : Table α × Noted (Access α) α} (h : Noting c known l₁ l₂ m n subtrees a b s) :
    ∃ s', T.notedCell (l₁ + 1) (l₂ + 1) (a + 1) (b + 1) s = some s' ∧
      Noting c known l₁ l₂ m n subtrees a (b + 1) s' := by
  have hx : l₁ + a < c.t.size := by have := hr.le₁; omega
  have hy : l₂ + b < c.h.size := by have := hr.le₂; omega
  obtain ⟨_, hcell, hfilled⟩ := h.filled.next hT hr ha hb
  rw [← map_notedCell] at hcell
  obtain ⟨s', hrun, rfl⟩ := Option.map_eq_some_iff.1 hcell
  -- The access is noted at the end. What it tells depends on whether it reads or writes.
  suffices h' : ∃ e : Access α, s'.2.notes = s.2.notes ++ [e] ∧
      e.numbers = (l₁ + a + 1, l₂ + b + 1) ∧ e.Tells c known l₁ l₂ by
    obtain ⟨e, hnotes, hnumbers, he⟩ := h'
    refine ⟨s', hrun, hfilled, ?_, ?_⟩
    · rw [hnotes, List.map_append, h.numbers, pairs_succ, List.map_singleton, hnumbers,
        Nat.add_right_comm l₁, Nat.add_right_comm l₂]
    · rw [hnotes]
      exact List.forall_mem_append.2 ⟨h.tells, List.forall_mem_singleton.2 he⟩
  rcases notedCell_cases hT hx hy hrun with
    ⟨apart, v, hread, hnotes⟩ | ⟨whole, held, v, hread, hwritten, hnotes⟩
  · -- What is read was known from the start.
    have hv := h.filled.keeps.knows _ _ (hr.knows a ha b hb apart)
    rw [Knows, Prod.map_snd, hread, Option.some.injEq] at hv
    subst hv
    exact ⟨_, hnotes, rfl, .read apart⟩
  · have hv := hfilled.records a ha b hb (by omega) whole.1 whole.2
    rw [Knows, Prod.map_snd, hwritten, Option.some.injEq] at hv
    subst hv
    refine ⟨_, hnotes, rfl, .write whole fun hknown' => ?_⟩
    have hheld := h.filled.keeps.knows _ _ ((hknown hknown').knows _ hx _ hy)
    rwa [Knows, Prod.map_snd, hread, Option.some.injEq] at hheld

/-- The call of a forest table tells what it is meant to tell. -/
theorem exists_notedTable {s : Noted (Call α) α} (hT : T.Lists c) (known : Prop)
    (hr : Ready c l₁ l₂ m n s.subtrees) (hknown : known → Complete c s.subtrees) :
    ∃ subtrees k, T.notedTable (l₁ + m) (l₁ + 1) (l₂ + n) (l₂ + 1) s =
        some (k.forests, ⟨subtrees, s.notes ++ [k]⟩) ∧
      Keeps c s.subtrees subtrees ∧ k.Tells c known l₁ l₂ m n := by
  obtain ⟨column, row, hcolumn, hrow, hstart⟩ := exists_borders hT hr
  obtain ⟨⟨forests, noted⟩, hrun, hnoting⟩ := countPairs_spec
    (s := (row, (⟨s.subtrees, []⟩ : Noted (Access α) α)))
    (Noting c known l₁ l₂ m n s.subtrees) ⟨hstart, rfl, fun _ he => by cases he⟩
    (fun a _ s h => ⟨h.filled.nextRow, h.numbers.trans (pairs_row _ _ n a).symm, h.tells⟩)
    fun a ha b hb s h => h.next hT hr hknown ha hb
  have hnumbers := hnoting.numbers
  rw [pairs, List.range'_zero, List.map_nil, List.append_nil] at hnumbers
  refine ⟨noted.subtrees, ⟨_, _, _, _, noted.notes, forests⟩, ?_, hnoting.filled.keeps, ⟨rfl, rfl⟩,
    ⟨rfl, rfl⟩, fun a b hab => hnoting.filled.holds a b (by omega), hnumbers, hnoting.tells⟩
  have hrows : (l₁ + m + 2).psub (l₁ + 1) = some (m + 1) := Nat.psub_eq_some.2 (by omega)
  have hcolumns : (l₂ + n + 2).psub (l₂ + 1) = some (n + 1) := Nat.psub_eq_some.2 (by omega)
  simp only [notedTable, hrows, hcolumns, Option.bind_eq_bind, Option.bind_some,
    Nat.add_sub_cancel, hcolumn, hrow, hrun]

/-! ## The calls of the keyroots -/

variable {s s' : Noted (Call α) α} {done rest : List (Nat × Nat)}

/-- The calls of the given pairs of keyroots, one for each of them. -/
structure CallsOf (c : Comparison α) (done : List (Nat × Nat)) (calls : List (Call α)) : Prop where
  ends : calls.map Call.ends = done.map fun p => (p.1 + 1, p.2 + 1)
  tells : ∀ k ∈ calls, ∃ p, k.TellsSubtrees c False p

section

variable {before after calls : List (Call α)} {k : Call α}

/-- Each of the calls is that of one of the pairs. -/
theorem CallsOf.exists_pair (h : CallsOf c done calls) (hk : k ∈ calls) :
    ∃ p ∈ done, k.TellsSubtrees c False p := by
  obtain ⟨q, hq⟩ := h.tells k hk
  have hmem : k.ends ∈ calls.map Call.ends := List.mem_map_of_mem hk
  rw [h.ends, List.mem_map] at hmem
  obtain ⟨p, hp, hends⟩ := hmem
  exact ⟨p, hp, Call.tellsSubtrees_of_ends hq hends.symm⟩

/-- Each of the pairs has its call. -/
theorem CallsOf.exists_call (h : CallsOf c done calls) (hp : p ∈ done) :
    ∃ k ∈ calls, k.TellsSubtrees c False p := by
  have hmem : (p.1 + 1, p.2 + 1) ∈ done.map fun p => (p.1 + 1, p.2 + 1) :=
    List.mem_map.2 ⟨p, hp, rfl⟩
  rw [← h.ends, List.mem_map] at hmem
  obtain ⟨k, hk, hends⟩ := hmem
  obtain ⟨q, hq⟩ := h.tells k hk
  exact ⟨k, hk, Call.tellsSubtrees_of_ends hq hends⟩

/-- The calls before a call are those of the pairs before its pair. -/
theorem CallsOf.exists_split {pairs : List (Nat × Nat)}
    (h : CallsOf c pairs (before ++ k :: after)) :
    ∃ done p rest, pairs = done ++ p :: rest ∧ CallsOf c done before ∧
      k.TellsSubtrees c False p := by
  have hends := h.ends
  rw [List.map_append, List.map_cons, eq_comm, List.map_eq_append_iff] at hends
  obtain ⟨done, rest, rfl, hdone, hrest⟩ := hends
  obtain ⟨p, rest, rfl, hp, -⟩ := List.map_eq_cons_iff.1 hrest
  obtain ⟨q, hq⟩ := h.tells k (by simp)
  exact ⟨done, p, rest, rfl, ⟨hdone.symm, fun k' hk' => h.tells k' (by simp [hk'])⟩,
    Call.tellsSubtrees_of_ends hq hp.symm⟩

end

/-- What pairs of keyroots tell is recorded by their calls. -/
structure Called (c : Comparison α) (done : List (Nat × Nat)) (s : Noted (Call α) α) : Prop where
  recorded : Recorded c done s.subtrees
  calls : CallsOf c done s.notes

/-- One pair of keyroots more makes its call. -/
theorem Called.next (hT : T.Lists c) (hsplit : c.keyrootPairs = done ++ p :: rest)
    (h : Called c done s) :
    ∃ s', T.notedKeyroots s (p.1 + 1) (p.2 + 1) = some s' ∧ Called c (done ++ [p]) s' := by
  obtain ⟨hlt₁, hlt₂⟩ := Comparison.lt_of_mem_keyrootPairs
    (show p ∈ c.keyrootPairs by simp [hsplit])
  obtain ⟨subtrees, k, hrun, -, hk⟩ :=
    exists_notedTable hT False (h.recorded.ready hsplit) False.elim
  rw [c.t.leftmost_add_width, c.h.leftmost_add_width] at hrun
  have hstep : T.notedKeyroots s (p.1 + 1) (p.2 + 1) = some ⟨subtrees, s.notes ++ [k]⟩ := by
    simp only [notedKeyroots, hT.t.leftmost _ hlt₁, hT.h.leftmost _ hlt₂, Option.bind_eq_bind,
      Option.bind_some, hrun]
  obtain ⟨subtrees', hstep', hrecorded⟩ := h.recorded.next hT hsplit
  rw [← map_notedKeyroots, hstep, Option.map_some, Option.some.injEq] at hstep'
  refine ⟨_, hstep, hstep' ▸ hrecorded, ?_, ?_⟩
  · rw [List.map_append, List.map_append, h.calls.ends, List.map_singleton, List.map_singleton,
      Call.ends_eq hk]
  · exact List.forall_mem_append.2 ⟨h.calls.tells, List.forall_mem_singleton.2 ⟨p, hk⟩⟩

/-- All pairs of keyroots make their calls, and then all distances are known. -/
theorem exists_notedSubtrees (hT : T.Lists c) :
    ∃ s, T.notedSubtrees ⟨Table.blank (c.t.size + 1) (c.h.size + 1) Cost.zero, []⟩ = some s ∧
      Complete c s.subtrees ∧ CallsOf c c.keyrootPairs s.notes := by
  obtain ⟨s, hfold, hcalled⟩ := foldlM_spec c.keyrootPairs (Called c) (s := ⟨_, []⟩)
    ⟨recorded_nil c, rfl, fun _ hk => by cases hk⟩ fun done p rest hsplit s h => h.next hT hsplit
  exact ⟨s, (foldlM_keyroots hT.t hT.h T.notedKeyroots _).trans hfold, hcalled.recorded.complete,
    hcalled.calls⟩

/-- The distance takes one call more. -/
theorem exists_notedWhole (hT : T.Lists c) :
    ∃ s first whole, T.notedWhole = some (c.distance, s) ∧ s.notes = first ++ [whole] ∧
      Complete c s.subtrees ∧ CallsOf c c.keyrootPairs first ∧
      whole.Tells c True 0 0 c.t.size c.h.size := by
  obtain ⟨s, hsubtrees, hcomplete, hfirst⟩ := exists_notedSubtrees hT
  have hready : Ready c 0 0 c.t.size c.h.size s.subtrees :=
    hcomplete.ready (by omega) (by omega) (c.t.closed_zero _) (c.h.closed_zero _)
  obtain ⟨subtrees, whole, hrun, hkeeps, hwhole⟩ :=
    exists_notedTable hT True hready fun _ => hcomplete
  simp only [Nat.zero_add] at hrun
  refine ⟨⟨subtrees, s.notes ++ [whole]⟩, s.notes, whole, ?_, rfl, hcomplete.keeps hkeeps, hfirst,
    hwhole⟩
  simp only [notedWhole, hT.t.size, hT.h.size, Option.bind_eq_bind, Option.bind_some, hsubtrees,
    hrun, hwhole.forests _ _ ⟨Nat.le_refl _, Nat.le_refl _⟩, c.distance_eq]

/-! ## The calls of backtracking -/

/-- All distances are known, and since the given calls there were only calls for two subtrees. -/
structure Again (c : Comparison α) (before : List (Call α)) (s : Noted (Call α) α) : Prop where
  complete : Complete c s.subtrees
  calls : ∃ nested, s.notes = before ++ nested ∧
    ∀ k ∈ nested, ∃ x < c.t.size, ∃ y < c.h.size, k.TellsSubtrees c True (x, y)

variable {before : List (Call α)} {forests inside : Table α} {r : Nat}

/-- Two subtrees have their call. -/
theorem Again.next (hT : T.Lists c) (hx : x < c.t.size) (hy : y < c.h.size) (h : Again c before s)
    (hrun : T.notedTable (x + 1) (c.t.leftmost x + 1) (y + 1) (c.h.leftmost y + 1) s =
      some (inside, s')) : Again c before s' := by
  have hend₁ := c.t.leftmost_add_width x
  have hend₂ := c.h.leftmost_add_width y
  have hready : Ready c (c.t.leftmost x) (c.h.leftmost y) (c.t.width x) (c.h.width y) s.subtrees :=
    h.complete.ready (by omega) (by omega) (c.t.closed_subtree _) (c.h.closed_subtree _)
  obtain ⟨subtrees, k, hrun', hkeeps, hk⟩ :=
    exists_notedTable hT True hready fun _ => h.complete
  rw [hend₁, hend₂, hrun, Option.some.injEq, Prod.mk.injEq] at hrun'
  obtain ⟨-, rfl⟩ := hrun'
  obtain ⟨nested, hnotes, hnested⟩ := h.calls
  refine ⟨h.complete.keeps hkeeps, nested ++ [k], by simp [hnotes], fun k' hk' => ?_⟩
  rcases List.mem_append.1 hk' with hk' | hk'
  · exact hnested k' hk'
  · obtain rfl := List.mem_singleton.1 hk'
    exact ⟨x, hx, y, hy, hk⟩

/-- Only runs that are not empty end with a pair. -/
theorem ne_zero_of_lastEdit (h : T.lastEdit forests x y a b = some .pair) : a ≠ 0 ∧ b ≠ 0 := by
  rw [lastEdit, Option.bind_eq_bind, Option.bind_eq_some_iff] at h
  obtain ⟨here, -, h⟩ := h
  refine ⟨?_, ?_⟩
  · rintro rfl
    simp [lastEdit.deletes, ite_eq_iff] at h
  · rintro rfl
    simp at h

/-- Backtracking makes no calls but for two subtrees. -/
theorem again_of_replay (hT : T.Lists c) {s s' : Noted (Call α) α × List Operation}
    (hrun : T.notedReplay r forests l₁ l₂ x y s = some s') (hl₁ : 0 < l₁) (hl₂ : 0 < l₂)
    (hx : x ≤ c.t.size) (hy : y ≤ c.h.size) (h : Again c before s.1) : Again c before s'.1 := by
  -- Nothing is asked of the forest table: whatever edits it leads to, the calls are for subtrees.
  induction r generalizing forests l₁ l₂ x y s s' with
  | zero => cases hrun
  | succ r ih =>
      rw [notedReplay] at hrun
      split at hrun
      · simp only [Option.bind_eq_bind, Option.bind_eq_some_iff] at hrun
        obtain ⟨a, ha, b, hb, edit, hedit, hrun⟩ := hrun
        rw [Nat.psub_eq_some] at ha hb
        cases edit with
        | delete =>
            simp only [Option.bind_eq_some_iff, Nat.psub_eq_some] at hrun
            obtain ⟨x', rfl, _, -, hrun⟩ := hrun
            exact ih hrun hl₁ hl₂ (by omega) hy h
        | insert =>
            simp only [Option.bind_eq_some_iff, Nat.psub_eq_some] at hrun
            obtain ⟨y', rfl, _, -, hrun⟩ := hrun
            exact ih hrun hl₁ hl₂ hx (by omega) h
        | pair =>
            obtain ⟨ha₀, hb₀⟩ := ne_zero_of_lastEdit hedit
            obtain ⟨x, rfl⟩ : ∃ x', x = x' + 1 := ⟨x - 1, by omega⟩
            obtain ⟨y, rfl⟩ : ∃ y', y = y' + 1 := ⟨y - 1, by omega⟩
            have hle₁ := c.t.leftmost_le_self x
            have hle₂ := c.h.leftmost_le_self y
            simp only [hT.t.leftmost x hx, hT.h.leftmost y hy, Option.bind_some] at hrun
            split at hrun
            · simp only [succ_psub_one, Option.bind_some, Option.bind_eq_some_iff] at hrun
              obtain ⟨_, -, _, -, hrun⟩ := hrun
              exact ih hrun hl₁ hl₂ (by omega) (by omega) h
            · simp only [succ_psub_one, Option.bind_some, Option.bind_eq_some_iff] at hrun
              obtain ⟨⟨inside, noted⟩, hcall, s'', hinside, hbefore⟩ := hrun
              exact ih hbefore hl₁ hl₂ (by omega) (by omega)
                (ih hinside (by omega) (by omega) hx hy (h.next hT hx hy hcall))
      · cases hrun
        exact h

/-- Backtracking from the whole forests takes up their table again, and makes its calls. -/
theorem exists_notedBacktrack (hT : T.Lists c) (hcomplete : Complete c s.subtrees)
    (hr : 2 * (c.t.size + c.h.size) + 1 < r) :
    ∃ s' top nested, T.notedBacktrack r c.t.size 1 c.h.size 1 (s, []) =
        some (s', c.script.operations) ∧
      s'.notes = s.notes ++ top :: nested ∧ top.Tells c True 0 0 c.t.size c.h.size ∧
      ∀ k ∈ nested, ∃ x < c.t.size, ∃ y < c.h.size, k.TellsSubtrees c True (x, y) := by
  obtain ⟨_, hscript⟩ := exists_script hT hcomplete hr
  have hmap := T.map_notedBacktrack r c.t.size 1 c.h.size 1 (s, [])
  rw [Prod.map_apply, id_eq, hscript, Option.map_eq_some_iff] at hmap
  obtain ⟨⟨s', operations⟩, hrun, hs'⟩ := hmap
  obtain ⟨-, rfl⟩ := Prod.mk.inj hs'
  have hready : Ready c 0 0 c.t.size c.h.size s.subtrees :=
    hcomplete.ready (by omega) (by omega) (c.t.closed_zero _) (c.h.closed_zero _)
  obtain ⟨subtrees, top, htable, hkeeps, htop⟩ :=
    exists_notedTable hT True hready fun _ => hcomplete
  simp only [Nat.zero_add] at htable
  have hreplay := hrun
  simp only [notedBacktrack, htable, Option.bind_eq_bind, Option.bind_some] at hreplay
  have hagain : Again c (s.notes ++ [top]) ⟨subtrees, s.notes ++ [top]⟩ :=
    ⟨hcomplete.keeps hkeeps, [], (List.append_nil _).symm, fun _ hk => by cases hk⟩
  obtain ⟨nested, hnotes, hnested⟩ :=
    (again_of_replay hT hreplay Nat.one_pos Nat.one_pos (Nat.le_refl _) (Nat.le_refl _)
      hagain).calls
  exact ⟨s', top, nested, hrun, by rw [hnotes, List.append_assoc, List.singleton_append], htop,
    hnested⟩

end Tables

end Guarded

end Entailment
