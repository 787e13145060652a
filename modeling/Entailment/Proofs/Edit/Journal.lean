import Entailment.Proofs.Edit.InPlace

/-! # The distance computed in place, with a journal

All forest tables of a computation share one table of subtree distances. Here every computation that
uses that table also notes down what it reads there and what it writes, and what stood there before.
The notes change nothing: without them, the answers are those of the computation itself.

* **`Guarded.Access`** — one entry of the table of subtree distances is read or written;
* **`Guarded.Call`** — a forest table is filled, with all accesses from the first to the last;
* **`Guarded.Tables.notedTable`**, **`notedSubtrees`**, **`notedWhole`**, **`notedReplay`**,
  **`notedBacktrack`** — the parts of the computation, with notes;
* **`Guarded.journal`** — the whole computation, with all its calls in order;
* **`Guarded.map_journal`** — without its calls, it is the computation in place. -/

namespace Entailment.Guarded

/-- One use of the table of subtree distances. -/
inductive Access (α : Type) where
  /-- The distance of two numbers is read. -/
  | read (x y : Nat) (v : α)
  /-- The distance of two numbers is written where there was `held`. -/
  | write (x y : Nat) (held v : α)

/-- The numbers whose distance is read or written. -/
def Access.numbers {α : Type} : Access α → Nat × Nat
  | .read x y _ => (x, y)
  | .write x y _ _ => (x, y)

/-- One forest table, and how it was filled. -/
structure Call (α : Type) where
  /-- The last text number. -/
  i : Nat
  /-- The first text number. -/
  l₁ : Nat
  /-- The last hypothesis number. -/
  j : Nat
  /-- The first hypothesis number. -/
  l₂ : Nat
  /-- What was read and written among the subtree distances, in order. -/
  accesses : List (Access α)
  /-- The forest table when it is filled. -/
  forests : Table α

/-- The numbers that the forest table ends with. -/
def Call.ends {α : Type} (k : Call α) : Nat × Nat := (k.i, k.j)

/-- The table of subtree distances, and notes on what was done so far. -/
structure Noted (note α : Type) where
  /-- The subtree distances. -/
  subtrees : Table α
  /-- The notes, in order. -/
  notes : List note

variable {α : Type}

namespace Noted

/-- Reading a subtree distance. -/
def read (s : Noted (Access α) α) (x y : Nat) : Option (α × Noted (Access α) α) := do
  let v ← s.subtrees.read x y
  some (v, ⟨s.subtrees, s.notes ++ [.read x y v]⟩)

/-- Writing a subtree distance. -/
def write (s : Noted (Access α) α) (x y : Nat) (v : α) : Option (Noted (Access α) α) := do
  let held ← s.subtrees.read x y
  some ⟨← s.subtrees.write x y v, s.notes ++ [.write x y held v]⟩

variable {s s' : Noted (Access α) α} {x y : Nat} {v : α}

/-- What reading leads to. -/
theorem of_read {r : α × Noted (Access α) α} (h : s.read x y = some r) :
    s.subtrees.read x y = some r.1 ∧ r.2.notes = s.notes ++ [.read x y r.1] := by
  simp only [read, Option.bind_eq_bind, Option.bind_eq_some_iff, Option.some.injEq] at h
  obtain ⟨v, hv, rfl⟩ := h
  exact ⟨hv, rfl⟩

/-- What writing leads to. -/
theorem of_write (h : s.write x y v = some s') : ∃ held, s.subtrees.read x y = some held ∧
    s'.subtrees.read x y = some v ∧ s'.notes = s.notes ++ [.write x y held v] := by
  simp only [write, Option.bind_eq_bind, Option.bind_eq_some_iff, Option.some.injEq] at h
  obtain ⟨held, hheld, table, htable, rfl⟩ := h
  exact ⟨held, hheld, Table.read_of_write htable, rfl⟩

/-- That the old distance is looked up for its note does not keep the new one from being written. -/
theorem map_write (s : Noted (Access α) α) (x y : Nat) (v : α) :
    (s.write x y v).map Noted.subtrees = s.subtrees.write x y v := by
  rw [← Table.read_bind_write]
  simp [write, Option.map_bind]

end Noted

variable [Cost α]

namespace Tables

/-- An entry of a forest table, with a note on the access it makes. -/
def notedCell (T : Tables α) (l₁ l₂ a b : Nat) (s : Table α × Noted (Access α) α) :
    Option (Table α × Noted (Access α) α) := do
  let (forests, subtrees) := s
  let x := (← l₁.psub 1) + a
  let y := (← l₂.psub 1) + b
  let least := Cost.least (← T.deleting forests x a b) (← T.inserting forests y a b)
  let k₁ ← T.t.leftmost[x]?
  let k₂ ← T.h.leftmost[y]?
  if k₁ = l₁ ∧ k₂ = l₂ then
    let replacing := Cost.add (← forests.read (← a.psub 1) (← b.psub 1)) (← T.replace.read x y)
    let best := Cost.least least replacing
    some (← forests.write a b best, ← subtrees.write x y best)
  else
    let before ← forests.read (← k₁.psub l₁) (← k₂.psub l₂)
    let (inside, subtrees) ← subtrees.read x y
    some (← forests.write a b (Cost.least least (Cost.add before inside)), subtrees)

/-- A forest table, which is a call more. -/
def notedTable (T : Tables α) (i l₁ j l₂ : Nat) (s : Noted (Call α) α) :
    Option (Table α × Noted (Call α) α) := do
  let rows ← (i + 2).psub l₁
  let columns ← (j + 2).psub l₂
  let forests ← countUp (T.columnStep l₁) (rows - 1) (Table.blank rows columns Cost.zero)
  let forests ← countUp (T.rowStep l₂) (columns - 1) forests
  let (forests, subtrees) ←
    countPairs (T.notedCell l₁ l₂) (rows - 1) (columns - 1) (forests, ⟨s.subtrees, []⟩)
  some (forests, ⟨subtrees.subtrees, s.notes ++ [⟨i, l₁, j, l₂, subtrees.notes, forests⟩]⟩)

/-- The call of one pair of keyroots. -/
def notedKeyroots (T : Tables α) (s : Noted (Call α) α) (i j : Nat) :
    Option (Noted (Call α) α) := do
  let tables ← T.notedTable i (← T.t.leftmost[i]?) j (← T.h.leftmost[j]?) s
  some tables.2

/-- The calls of all pairs of keyroots. -/
def notedSubtrees (T : Tables α) (s : Noted (Call α) α) : Option (Noted (Call α) α) :=
  T.t.keyroots.foldlM (fun s i => T.h.keyroots.foldlM (fun s j => T.notedKeyroots s i j) s) s

/-- The distance of the whole forests, with one call more after those of the keyroots. -/
def notedWhole (T : Tables α) : Option (α × Noted (Call α) α) := do
  let m ← T.t.size
  let n ← T.h.size
  let s ← T.notedSubtrees ⟨Table.blank (m + 1) (n + 1) Cost.zero, []⟩
  let (forests, s) ← T.notedTable m 1 n 1 s
  some (← forests.read m n, s)

/-- The edits behind an entry of a forest table, with a call for every table of two subtrees. -/
def notedReplay (T : Tables α) (rounds : Nat) (forests : Table α) (l₁ l₂ x y : Nat)
    (s : Noted (Call α) α × List Operation) : Option (Noted (Call α) α × List Operation) :=
  match rounds with
  | 0 => none
  | rounds + 1 => do
    if l₁ < x + 1 ∨ l₂ < y + 1 then
      let a ← (x + 1).psub l₁
      let b ← (y + 1).psub l₂
      match ← T.lastEdit forests x y a b with
      | .delete =>
        T.notedReplay rounds forests l₁ l₂ (← x.psub 1) y (s.1, .delete (← T.t.nodes[x]?) :: s.2)
      | .insert =>
        T.notedReplay rounds forests l₁ l₂ x (← y.psub 1) (s.1, .insert (← T.h.nodes[y]?) :: s.2)
      | .pair =>
        let k₁ ← T.t.leftmost[x]?
        let k₂ ← T.h.leftmost[y]?
        if k₁ = l₁ ∧ k₂ = l₂ then
          T.notedReplay rounds forests l₁ l₂ (← x.psub 1) (← y.psub 1)
            (s.1, .replace (← T.t.nodes[x]?) (← T.h.nodes[y]?) :: s.2)
        else
          let (inside, noted) ← T.notedTable x k₁ y k₂ s.1
          let s ← T.notedReplay rounds inside k₁ k₂ x y (noted, s.2)
          T.notedReplay rounds forests l₁ l₂ (← k₁.psub 1) (← k₂.psub 1) s
    else some s

/-- The edits behind the last entry of a forest table, with a call for that table first. -/
def notedBacktrack (T : Tables α) (rounds i l₁ j l₂ : Nat)
    (s : Noted (Call α) α × List Operation) : Option (Noted (Call α) α × List Operation) := do
  let (forests, noted) ← T.notedTable i l₁ j l₂ s.1
  T.notedReplay rounds forests l₁ l₂ i j (noted, s.2)

end Tables

/-- The least cost of turning one tree into another, the edits behind it, and all calls that were
made on the way. -/
def journal (rounds : Nat) (t h : Tree) (costs : CostModel α) :
    Option ((α × EditScript) × List (Call α)) := do
  let T ← Tables.ofTrees t h costs
  let (distance, s) ← T.notedWhole
  let (s, operations) ← T.notedBacktrack rounds (← T.t.size) 1 (← T.h.size) 1 (s, [])
  some ((distance, ⟨operations⟩), s.notes)

/-! ## Without the notes

Each part of the computation with notes is the same part without them when the notes are left out
of what it answers. Neither has an answer where the other has none. -/

namespace Tables

/-- An entry with notes is filled as without. -/
theorem map_notedCell (T : Tables α) (l₁ l₂ a b : Nat) (s : Table α × Noted (Access α) α) :
    (T.notedCell l₁ l₂ a b s).map (Prod.map id Noted.subtrees) =
      T.cellStep l₁ l₂ a b (Prod.map id Noted.subtrees s) := by
  obtain ⟨forests, subtrees⟩ := s
  rw [notedCell, cellStep]
  -- The two differ only in how they use the subtree distances, which comes last.
  refine map_bind_congr fun x => map_bind_congr fun y => map_bind_congr fun delete =>
    map_bind_congr fun insert => map_bind_congr fun k₁ => map_bind_congr fun k₂ => ?_
  split
  · simp only [← Noted.map_write, Option.bind_eq_bind, Option.map_bind, Option.bind_map,
      Function.comp_def, Option.map_some, Prod.map_apply, id_eq]
  · simp only [Noted.read, Option.bind_eq_bind, Option.map_bind, Option.bind_assoc,
      Option.bind_some, Function.comp_def, Option.map_some, Prod.map_apply, id_eq]

/-- A forest table with notes is filled as without. -/
theorem map_notedTable (T : Tables α) (i l₁ j l₂ : Nat) (s : Noted (Call α) α) :
    (T.notedTable i l₁ j l₂ s).map (Prod.map id Noted.subtrees) =
      T.forestTable i l₁ j l₂ s.subtrees := by
  have hcells := fun rows columns (forests : Table α) =>
    map_countPairs (T.map_notedCell l₁ l₂) rows columns (forests, ⟨s.subtrees, []⟩)
  simp only [Prod.map_apply, id_eq] at hcells
  simp only [notedTable, forestTable, ← hcells, Option.bind_eq_bind, Option.map_eq_bind,
    Option.bind_assoc, Option.bind_some, Function.comp_def, Prod.map_def, id_eq]

/-- The step for a pair of keyroots with notes is that without. -/
theorem map_notedKeyroots (T : Tables α) (s : Noted (Call α) α) (i j : Nat) :
    (T.notedKeyroots s i j).map Noted.subtrees = T.keyrootStep s.subtrees i j := by
  simp only [notedKeyroots, keyrootStep, ← map_notedTable, Option.bind_eq_bind, Option.map_bind,
    Function.comp_def, Option.map_some, Option.bind_map, Prod.map_snd]

/-- The subtree distances with notes are those without. -/
theorem map_notedSubtrees (T : Tables α) (s : Noted (Call α) α) :
    (T.notedSubtrees s).map Noted.subtrees = T.subtrees s.subtrees :=
  map_foldlM (fun s i => map_foldlM (fun s j => T.map_notedKeyroots s i j) _ s) _ s

/-- The distance of the whole forests with notes is that without. -/
theorem map_notedWhole (T : Tables α) :
    T.notedWhole.map (Prod.map id Noted.subtrees) = T.whole := by
  have hsubtrees := fun m n => T.map_notedSubtrees ⟨Table.blank (m + 1) (n + 1) Cost.zero, []⟩
  simp only at hsubtrees
  simp only [notedWhole, whole, ← hsubtrees, ← map_notedTable, Option.bind_eq_bind,
    Option.map_bind, Option.bind_map, Function.comp_def, Option.map_some, Prod.map_def, id_eq]

/-- The edits behind an entry with notes are those without. -/
theorem map_notedReplay (T : Tables α) (rounds : Nat) (forests : Table α) (l₁ l₂ x y : Nat)
    (s : Noted (Call α) α × List Operation) :
    (T.notedReplay rounds forests l₁ l₂ x y s).map (Prod.map Noted.subtrees id) =
      T.replay rounds forests l₁ l₂ x y (Prod.map Noted.subtrees id s) := by
  induction rounds generalizing forests l₁ l₂ x y s with
  | zero => rfl
  | succ rounds ih =>
      rw [notedReplay, replay]
      by_cases left : l₁ < x + 1 ∨ l₂ < y + 1
      · rw [if_pos left, if_pos left]
        refine map_bind_congr fun a => map_bind_congr fun b => map_bind_congr fun edit => ?_
        cases edit with
        | delete => exact map_bind_congr fun x' => map_bind_congr fun node => ih _ _ _ _ _ _
        | insert => exact map_bind_congr fun y' => map_bind_congr fun node => ih _ _ _ _ _ _
        | pair =>
            -- The table of two subtrees goes back by rounds of its own, before the outer one.
            have inside := fun (forests : Table α) l₁ l₂ x y noted out =>
              ih forests l₁ l₂ x y (noted, out)
            simp only [Prod.map_apply, id_eq] at inside
            refine map_bind_congr fun k₁ => map_bind_congr fun k₂ => ?_
            split
            · exact map_bind_congr fun x' => map_bind_congr fun y' => map_bind_congr fun node =>
                map_bind_congr fun node' => ih _ _ _ _ _ _
            · simp only [Prod.map_fst, Prod.map_snd, id_eq, ← map_notedTable, ← inside, ← ih,
                Option.bind_eq_bind, Option.map_bind, Option.bind_map, Function.comp_def]
      · rw [if_neg left, if_neg left]
        rfl

/-- Backtracking with notes answers as without. -/
theorem map_notedBacktrack (T : Tables α) (rounds i l₁ j l₂ : Nat)
    (s : Noted (Call α) α × List Operation) :
    (T.notedBacktrack rounds i l₁ j l₂ s).map (Prod.map Noted.subtrees id) =
      T.backtrack rounds i l₁ j l₂ (Prod.map Noted.subtrees id s) := by
  simp only [notedBacktrack, backtrack, ← map_notedTable, map_notedReplay, Prod.map_apply', id_eq,
    Option.bind_eq_bind, Option.map_bind, Function.comp_def, Option.bind_map]

end Tables

/-- Without its calls, the journal is what is computed in place. -/
theorem map_journal (rounds : Nat) (t h : Tree) (costs : CostModel α) :
    (journal rounds t h costs).map Prod.fst = distanceAndScript rounds t h costs := by
  have hbacktrack := fun (T : Tables α) i l₁ j l₂ (s : Noted (Call α) α) =>
    T.map_notedBacktrack rounds i l₁ j l₂ (s, [])
  simp only [Prod.map_def, id_eq] at hbacktrack
  simp only [journal, distanceAndScript, ← Tables.map_notedWhole, ← hbacktrack, Prod.map_def, id_eq,
    Option.bind_eq_bind, Option.map_bind, Option.bind_map, Function.comp_def, Option.map_some]

end Entailment.Guarded
