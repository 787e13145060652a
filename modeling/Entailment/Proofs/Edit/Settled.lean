import Entailment.Proofs.Edit.Calls

/-! # Subtree distances settle

The calls of the keyroots come first, and each of them reads only what calls before it wrote. Each
distance is written by the call of its keyroots, and no other of these calls writes it. Whatever is
called afterwards writes what is there already.

* **`Guarded.Call.OfKeyroots`** — the call that first writes the distance of two numbers;
* **`Guarded.Settled`** — what the calls of a computation read and write, from first to last;
* **`subtree_distances_settle`** — so do the calls of the distance and its script. -/

namespace Entailment

namespace Guarded

/-! ## Reading and writing -/

section

variable {α : Type}

/-- The call fills the table of two whole subtrees. -/
structure Call.OnSubtrees (T : Tables α) (k : Call α) : Prop where
  t : T.t.leftmost[k.i]? = some k.l₁
  h : T.h.leftmost[k.j]? = some k.l₂

/-- The call is that of the keyroots of two numbers, which share their leftmost leaves. -/
structure Call.OfKeyroots (T : Tables α) (x y : Nat) (k : Call α) : Prop extends
    k.OnSubtrees T where
  keyroots : k.i ∈ T.t.keyroots ∧ k.j ∈ T.h.keyroots
  leaves : T.t.leftmost[x]? = some k.l₁ ∧ T.h.leftmost[y]? = some k.l₂

/-- The call writes the distance of two numbers. -/
def Call.Writes (k : Call α) (x y : Nat) (v : α) : Prop := ∃ held, .write x y held v ∈ k.accesses

/-- The last entry of the table that the call fills. -/
def Call.last (k : Call α) : Option α := do
  k.forests.read (← (k.i + 1).psub k.l₁) (← (k.j + 1).psub k.l₂)

/-- Subtree distances are written before they are read, and then they stay as they are. -/
structure Settled (T : Tables α) (first later : List (Call α)) : Prop where
  /-- First there is one call for each pair of keyroots, in order. -/
  keyroots : first.map Call.ends = T.t.keyroots ×ˢ T.h.keyroots ∧ ∀ k ∈ first, k.OnSubtrees T
  /-- Then there are two calls for the whole forests, and calls for two subtrees. The last entry of
  the table of two subtrees is their distance, which stood there already. -/
  others : ∃ whole top nested, later = whole :: top :: nested ∧
    (∀ k ∈ [whole, top], k.l₁ = 1 ∧ k.l₂ = 1 ∧ T.t.size = some k.i ∧ T.h.size = some k.j) ∧
    ∀ k ∈ nested, k.OnSubtrees T ∧ ∃ v, k.last = some v ∧ .write k.i k.j v v ∈ k.accesses
  /-- Each call uses the distance of each pair of its numbers once. -/
  numbers : ∀ k ∈ first ++ later, k.accesses.map Access.numbers =
    List.range' k.l₁ (k.i + 1 - k.l₁) ×ˢ List.range' k.l₂ (k.j + 1 - k.l₂)
  /-- The calls of the keyroots read what was written before, by the call of the keyroots of the
  two numbers. -/
  reads : ∀ before k after, first = before ++ k :: after → ∀ x y v, .read x y v ∈ k.accesses →
    ∃ q ∈ before, q.OfKeyroots T x y ∧ q.Writes x y v
  /-- They write only distances of which they are the keyroots, and that were not written before. -/
  writes : ∀ before k after, first = before ++ k :: after → ∀ x y v, k.Writes x y v →
    k.OfKeyroots T x y ∧ ∀ q ∈ before, ∀ w, ¬q.Writes x y w
  /-- The later calls read what the calls of the keyroots wrote. -/
  reads_later : ∀ k ∈ later, ∀ x y v, .read x y v ∈ k.accesses →
    ∃ q ∈ first, q.OfKeyroots T x y ∧ q.Writes x y v
  /-- They write what the calls of the keyroots wrote, and that is still there. -/
  writes_later : ∀ k ∈ later, ∀ x y held v, .write x y held v ∈ k.accesses →
    held = v ∧ ∃ q ∈ first, q.OfKeyroots T x y ∧ q.Writes x y v

end

variable {α : Type} [Cost α] {T : Tables α} {c : Comparison α} {k : Call α} {l₁ l₂ m n x y : Nat}
  {p : Nat × Nat} {known : Prop} {v held : α}

namespace Call

/-! ## Calls by numbers -/

/-- The call for two subtrees by position is the one for two subtrees by number. -/
theorem onSubtrees (hT : T.Lists c) (h : k.TellsSubtrees c known p) (h₁ : p.1 < c.t.size)
    (h₂ : p.2 < c.h.size) : k.OnSubtrees T := by
  obtain ⟨hi, hj⟩ := Prod.mk.inj (ends_eq h)
  exact ⟨by rw [hi, h.begins.1, hT.t.leftmost _ h₁], by rw [hj, h.begins.2, hT.h.leftmost _ h₂]⟩

/-- Where all distances were known, the last entry of the table of two subtrees is their distance,
which is written where it stood. -/
theorem rewrites_last (hT : T.Lists c) (h : k.TellsSubtrees c True p) (h₁ : p.1 < c.t.size)
    (h₂ : p.2 < c.h.size) :
    k.OnSubtrees T ∧ ∃ v, k.last = some v ∧ .write k.i k.j v v ∈ k.accesses := by
  have hend₁ := c.t.leftmost_add_width p.1
  have hend₂ := c.h.leftmost_add_width p.2
  obtain ⟨hi, hj⟩ := Prod.mk.inj (ends_eq h)
  refine ⟨onSubtrees hT h h₁ h₂, c.subtreeCost p.1 p.2, ?_, ?_⟩
  · have hrow : (k.i + 1).psub k.l₁ = some (c.t.width p.1) := by
      rw [hi, h.begins.1, Nat.psub_eq_some]
      omega
    have hcolumn : (k.j + 1).psub k.l₂ = some (c.h.width p.2) := by
      rw [hj, h.begins.2, Nat.psub_eq_some]
      omega
    simp only [last, hrow, hcolumn, Option.bind_eq_bind, Option.bind_some]
    exact h.forests _ _ ⟨Nat.le_refl _, Nat.le_refl _⟩
  · obtain ⟨held, hwrite, again⟩ :=
      h.exists_write (x := p.1) (y := p.2) (by omega) (by omega) ⟨rfl, rfl⟩
    rw [again trivial] at hwrite
    rw [hi, hj]
    exact hwrite

/-- The call of a pair of keyroots is that of all numbers that share their leftmost leaves. -/
theorem ofKeyroots (hT : T.Lists c) (h : k.TellsSubtrees c known p) (hp : p ∈ c.keyrootPairs)
    (hx : x < c.t.size) (hy : y < c.h.size)
    (hleft : c.t.leftmost p.1 = c.t.leftmost x ∧ c.h.leftmost p.2 = c.h.leftmost y) :
    k.OfKeyroots T (x + 1) (y + 1) := by
  obtain ⟨hr₁, hr₂⟩ := Comparison.mem_keyrootPairs.1 hp
  obtain ⟨hi, hj⟩ := Prod.mk.inj (ends_eq h)
  obtain ⟨hlt₁, hlt₂⟩ := Comparison.lt_of_mem_keyrootPairs hp
  refine ⟨onSubtrees hT h hlt₁ hlt₂, ⟨?_, ?_⟩, ?_, ?_⟩
  · rw [hi, hT.t.keyroots]
    exact List.mem_map_of_mem hr₁
  · rw [hj, hT.h.keyroots]
    exact List.mem_map_of_mem hr₂
  · rw [hT.t.leftmost _ hx, h.begins.1, hleft.1]
  · rw [hT.h.leftmost _ hy, h.begins.2, hleft.2]

end Call

namespace Tables

/-! ## The calls of the keyroots -/

variable {first before after calls : List (Call α)} {done : List (Nat × Nat)}

/-- A pair of keyroots had its call, which wrote the distances that it was to write. -/
theorem CallsOf.exists_written (hT : T.Lists c) (h : CallsOf c done calls) (hdone : p ∈ done)
    (hp : p ∈ c.keyrootPairs) (hx : x < c.t.size) (hy : y < c.h.size)
    (hleft : c.t.leftmost p.1 = c.t.leftmost x ∧ c.h.leftmost p.2 = c.h.leftmost y) :
    ∃ q ∈ calls, q.OfKeyroots T (x + 1) (y + 1) ∧ q.Writes (x + 1) (y + 1) (c.subtreeCost x y) := by
  obtain ⟨q, hq, hcall⟩ := h.exists_call hdone
  obtain ⟨hr₁, hr₂⟩ := Comparison.mem_keyrootPairs.1 hp
  have hx' := (PostOrder.mem_subtree_of_keyroot hr₁ hx hleft.1).2
  have hy' := (PostOrder.mem_subtree_of_keyroot hr₂ hy hleft.2).2
  obtain ⟨held, hwrite, -⟩ := Call.Tells.exists_write hcall (x := x) (y := y)
    (by rw [c.t.leftmost_add_width]; omega) (by rw [c.h.leftmost_add_width]; omega)
    ⟨hleft.1.symm, hleft.2.symm⟩
  exact ⟨q, hq, Call.ofKeyroots hT hcall hp hx hy hleft, held, hwrite⟩

variable (hT : T.Lists c) (hfirst : CallsOf c c.keyrootPairs first)

include hT hfirst

/-- The distance of every pair of subtrees is written by the call of their keyroots. -/
theorem exists_first (hx : x < c.t.size) (hy : y < c.h.size) :
    ∃ q ∈ first, q.OfKeyroots T (x + 1) (y + 1) ∧ q.Writes (x + 1) (y + 1) (c.subtreeCost x y) := by
  obtain ⟨r₁, hr₁, -, hleft₁⟩ := c.t.exists_keyroot hx
  obtain ⟨r₂, hr₂, -, hleft₂⟩ := c.h.exists_keyroot hy
  have hp : (r₁, r₂) ∈ c.keyrootPairs := Comparison.mem_keyrootPairs.2 ⟨hr₁, hr₂⟩
  exact hfirst.exists_written hT hp hp hx hy ⟨hleft₁, hleft₂⟩

/-- What the call of a pair of keyroots reads was written before. -/
theorem reads_first (hsplit : first = before ++ k :: after) (he : .read x y v ∈ k.accesses) :
    ∃ q ∈ before, q.OfKeyroots T x y ∧ q.Writes x y v := by
  subst hsplit
  obtain ⟨done, p, rest, hpairs, hbefore, hcall⟩ := hfirst.exists_split
  obtain ⟨hlt₁, hlt₂⟩ := Comparison.lt_of_mem_keyrootPairs
    (show p ∈ c.keyrootPairs by simp [hpairs])
  obtain ⟨x, y, ⟨rfl, rfl⟩, ⟨hx, hy⟩, apart, rfl⟩ := hcall.of_read he
  rw [c.t.leftmost_add_width] at hx
  rw [c.h.leftmost_add_width] at hy
  obtain ⟨q, hq, hleft⟩ := Comparison.exists_earlier_keyroots hpairs hx.1 (by omega) hy.1
    (by omega) apart
  exact hbefore.exists_written hT hq (by simp [hpairs, hq]) (by omega) (by omega) hleft

/-- What the call of a pair of keyroots writes was not written before. -/
theorem writes_first (hsplit : first = before ++ k :: after) (he : k.Writes x y v) :
    k.OfKeyroots T x y ∧ ∀ q ∈ before, ∀ w, ¬q.Writes x y w := by
  subst hsplit
  obtain ⟨done, p, rest, hpairs, hbefore, hcall⟩ := hfirst.exists_split
  have hp : p ∈ c.keyrootPairs := by simp [hpairs]
  obtain ⟨hlt₁, hlt₂⟩ := Comparison.lt_of_mem_keyrootPairs hp
  obtain ⟨held, he⟩ := he
  obtain ⟨x, y, ⟨rfl, rfl⟩, ⟨hx, hy⟩, whole, -, -⟩ := hcall.of_write he
  rw [c.t.leftmost_add_width] at hx
  rw [c.h.leftmost_add_width] at hy
  refine ⟨Call.ofKeyroots hT hcall hp (by omega) (by omega) ⟨whole.1.symm, whole.2.symm⟩, ?_⟩
  rintro q hq w ⟨held', he'⟩
  obtain ⟨p', hp', hcall'⟩ := hbefore.exists_pair hq
  obtain ⟨_, _, ⟨hx', hy'⟩, -, whole', -, -⟩ := hcall'.of_write he'
  obtain rfl := Nat.add_right_cancel hx'
  obtain rfl := Nat.add_right_cancel hy'
  -- Both calls are those of the keyroots of the two numbers, but no pair has two calls.
  have heq : p' = p := Comparison.keyrootPairs_unique (by simp [hpairs, hp']) hp
    (whole'.1.symm.trans whole.1) (whole'.2.symm.trans whole.2)
  have hpw := c.pairwise_keyrootPairs
  rw [hpairs, List.pairwise_append] at hpw
  have := hpw.2.2 p' hp' p List.mem_cons_self
  rw [heq] at this
  omega

/-! ## The later calls -/

variable (hm : l₁ + m ≤ c.t.size) (hn : l₂ + n ≤ c.h.size) (hk : k.Tells c True l₁ l₂ m n)

include hm hn hk

/-- What a later call reads is what the call of the keyroots wrote. -/
theorem reads_later (he : .read x y v ∈ k.accesses) :
    ∃ q ∈ first, q.OfKeyroots T x y ∧ q.Writes x y v := by
  obtain ⟨x, y, ⟨rfl, rfl⟩, hxy, -, rfl⟩ := hk.of_read he
  exact exists_first hT hfirst (by omega) (by omega)

/-- What a later call writes is what the call of the keyroots wrote, and still there. -/
theorem writes_later (he : .write x y held v ∈ k.accesses) :
    held = v ∧ ∃ q ∈ first, q.OfKeyroots T x y ∧ q.Writes x y v := by
  obtain ⟨x, y, ⟨rfl, rfl⟩, hxy, -, rfl, again⟩ := hk.of_write he
  exact ⟨again trivial, exists_first hT hfirst (by omega) (by omega)⟩

omit hm hn hk

/-- The calls of the keyroots and the later calls together. -/
theorem settled {whole top : Call α} {nested : List (Call α)}
    (hwhole : whole.Tells c True 0 0 c.t.size c.h.size)
    (htop : top.Tells c True 0 0 c.t.size c.h.size)
    (hnested : ∀ k ∈ nested, ∃ x < c.t.size, ∃ y < c.h.size, k.TellsSubtrees c True (x, y)) :
    Settled T first (whole :: top :: nested) := by
  have hwholes : ∀ k ∈ [whole, top], k.Tells c True 0 0 c.t.size c.h.size := by
    rintro k hk
    rcases List.mem_pair.1 hk with rfl | rfl
    · exact hwhole
    · exact htop
  have hlater : ∀ k ∈ whole :: top :: nested, ∃ l₁ l₂ m n,
      l₁ + m ≤ c.t.size ∧ l₂ + n ≤ c.h.size ∧ k.Tells c True l₁ l₂ m n := by
    intro k hk
    rcases List.mem_append.1 (show k ∈ [whole, top] ++ nested from hk) with hk | hk
    · exact ⟨0, 0, _, _, by omega, by omega, hwholes k hk⟩
    · obtain ⟨x, hx, y, hy, hcall⟩ := hnested k hk
      exact ⟨_, _, _, _, by rw [c.t.leftmost_add_width]; exact hx,
        by rw [c.h.leftmost_add_width]; exact hy, hcall⟩
  refine
    { keyroots := ⟨?_, fun k hk => ?_⟩
      others := ⟨whole, top, nested, rfl, fun k hk => ?_, fun k hk => ?_⟩
      numbers := fun k hk => ?_
      reads := fun _ _ _ hsplit _ _ _ he => reads_first hT hfirst hsplit he
      writes := fun _ _ _ hsplit _ _ _ he => writes_first hT hfirst hsplit he
      reads_later := fun k hk _ _ _ he => ?_
      writes_later := fun k hk _ _ _ _ he => ?_ }
  · rw [hfirst.ends, hT.t.keyroots, hT.h.keyroots, Comparison.keyrootPairs]
    simp [SProd.sprod, List.product, List.map_flatMap, List.flatMap_map, Function.comp_def]
  · obtain ⟨p, hp, hcall⟩ := hfirst.exists_pair hk
    obtain ⟨hx, hy⟩ := Comparison.lt_of_mem_keyrootPairs hp
    exact Call.onSubtrees hT hcall hx hy
  · have hcall := hwholes k hk
    refine ⟨hcall.begins.1, hcall.begins.2, ?_, ?_⟩
    · rw [hT.t.size, hcall.ends.1, Nat.zero_add]
    · rw [hT.h.size, hcall.ends.2, Nat.zero_add]
  · obtain ⟨x, hx, y, hy, hcall⟩ := hnested k hk
    exact Call.rewrites_last hT hcall hx hy
  · rcases List.mem_append.1 hk with hk | hk
    · obtain ⟨p, -, hcall⟩ := hfirst.exists_pair hk
      exact hcall.numbers_eq
    · obtain ⟨_, _, _, _, -, -, hcall⟩ := hlater k hk
      exact hcall.numbers_eq
  · obtain ⟨_, _, _, _, hm, hn, hcall⟩ := hlater k hk
    exact reads_later hT hfirst hm hn hcall he
  · obtain ⟨_, _, _, _, hm, hn, hcall⟩ := hlater k hk
    exact writes_later hT hfirst hm hn hcall he

end Tables

end Guarded

open Guarded in
/-- Whatever the costs are and however they compare, the distance of two subtrees is written before
it is read, by the call of their keyroots, and never changes afterwards. The calls of the distance
of the whole forests, and of backtracking at every depth, write what stands there already. -/
theorem subtree_distances_settle {α : Type} [Cost α] (t h : Tree) (costs : CostModel α)
    (spare : Nat) :
    ∃ T first later, Tables.ofTrees t h costs = some T ∧
      journal (2 * (t.size + h.size) + 2 + spare) t h costs =
        some (((t.compare h costs).distance, (t.compare h costs).script), first ++ later) ∧
      Settled T first later := by
  obtain ⟨T, hT, hlists⟩ := Tables.exists_ofTrees t h costs
  obtain ⟨s, first, whole, hwhole, hnotes, hcomplete, hfirst, hcall⟩ :=
    Tables.exists_notedWhole hlists
  have hsizes : (t.compare h costs).t.size = t.size ∧ (t.compare h costs).h.size = h.size :=
    ⟨t.size_positions, h.size_positions⟩
  obtain ⟨s', top, nested, hscript, hnotes', htop, hnested⟩ :=
    Tables.exists_notedBacktrack (r := 2 * (t.size + h.size) + 2 + spare) hlists hcomplete
      (by omega)
  refine ⟨T, first, whole :: top :: nested, hT, ?_, Tables.settled hlists hfirst hcall htop hnested⟩
  simp only [journal, hT, hwhole, hlists.t.size, hlists.h.size, hscript, Option.bind_eq_bind,
    Option.bind_some, hnotes', hnotes, List.append_assoc, List.singleton_append]

end Entailment
