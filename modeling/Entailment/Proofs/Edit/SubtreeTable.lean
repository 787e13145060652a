import Entailment.Edit.Distance
import Entailment.Proofs.Edit.ForestCost
import Entailment.Proofs.Tree.Keyroots

/-! # The subtree table

When all pairs of keyroots have been recorded in order, the subtree table holds the cost of every
pair of subtrees. A forest table reads from it only pairs whose keyroots were recorded before.

* **`SubtreeTable.get?_set`** — what an entry of the table is after another was set;
* **`Comparison.get?_record`** — which entries one forest table records;
* **`Comparison.get?_subtreeTable`** — the subtree table holds the costs of all pairs;
* **`Comparison.distance_eq`** — the distance is the cost of the whole forests. -/

namespace Entailment

variable {α : Type}

namespace SubtreeTable

/-- The table has `m` rows of `n` entries. -/
def Fits (m n : Nat) (d : SubtreeTable α) : Prop :=
  d.rows.size = m ∧ ∀ (x : Nat) (row : Array (Option α)), d.rows[x]? = some row → row.size = n

variable {d : SubtreeTable α} {m n x y : Nat} {v : α}

/-- A table in which nothing is known has the size that was asked for. -/
theorem unknown_fits (m n : Nat) : (unknown m n : SubtreeTable α).Fits m n := by
  refine ⟨by simp [unknown], fun x row h => ?_⟩
  simp only [unknown, Array.getElem?_replicate] at h
  split at h
  · cases h
    simp
  · cases h

/-- Setting an entry keeps the size. -/
theorem Fits.set (h : d.Fits m n) : (d.set x y v).Fits m n := by
  refine ⟨by simp [SubtreeTable.set, h.1], fun x' row hrow => ?_⟩
  simp only [SubtreeTable.set, Array.getElem?_modify] at hrow
  split at hrow
  · obtain ⟨row', hrow', rfl⟩ := Option.map_eq_some_iff.1 hrow
    rw [Array.size_modify]
    exact h.2 _ _ hrow'
  · exact h.2 _ _ hrow

/-- Setting an entry changes that entry and no other. -/
theorem get?_set (h : d.Fits m n) (hx : x < m) (hy : y < n) (x' y' : Nat) :
    (d.set x y v).get? x' y' = if x = x' ∧ y = y' then some v else d.get? x' y' := by
  obtain ⟨row, hrow⟩ : ∃ row, d.rows[x]? = some row :=
    ⟨_, Array.getElem?_eq_getElem (by rw [h.1]; exact hx)⟩
  obtain ⟨entry, hentry⟩ : ∃ entry, row[y]? = some entry :=
    ⟨_, Array.getElem?_eq_getElem (by rw [h.2 x row hrow]; exact hy)⟩
  simp only [get?, SubtreeTable.set, Array.getElem?_modify]
  by_cases hxx : x = x'
  · subst hxx
    rw [if_pos rfl, hrow, Option.map_some, Option.getD_some, Option.getD_some,
      Array.getElem?_modify]
    by_cases hyy : y = y'
    · subst hyy
      rw [if_pos rfl, if_pos ⟨rfl, rfl⟩, hentry]
      rfl
    · rw [if_neg hyy, if_neg (fun h => hyy h.2)]
  · rw [if_neg hxx, if_neg (fun h => hxx h.1)]

/-- Setting several entries by a rule changes them and no others. -/
theorem get?_foldl_set (f : Nat → Nat → α) (pairs : List (Nat × Nat)) (h : d.Fits m n)
    (hpairs : ∀ p ∈ pairs, p.1 < m ∧ p.2 < n) :
    (pairs.foldl (fun d p => d.set p.1 p.2 (f p.1 p.2)) d).Fits m n ∧
      ∀ x y, (pairs.foldl (fun d p => d.set p.1 p.2 (f p.1 p.2)) d).get? x y =
        if (x, y) ∈ pairs then some (f x y) else d.get? x y := by
  induction pairs generalizing d with
  | nil => exact ⟨h, fun x y => by simp⟩
  | cons p pairs ih =>
      obtain ⟨hp, hrest⟩ := List.forall_mem_cons.1 hpairs
      obtain ⟨hfits, hget⟩ := ih (h.set (x := p.1) (y := p.2) (v := f p.1 p.2)) hrest
      refine ⟨hfits, fun x y => ?_⟩
      rw [List.foldl_cons, hget, get?_set h hp.1 hp.2]
      by_cases hmem : (x, y) ∈ pairs
      · rw [if_pos hmem, if_pos (List.mem_cons_of_mem _ hmem)]
      · rw [if_neg hmem]
        by_cases heq : p.1 = x ∧ p.2 = y
        · obtain ⟨rfl, rfl⟩ := heq
          rw [if_pos ⟨rfl, rfl⟩, if_pos List.mem_cons_self]
        · rw [if_neg heq, if_neg]
          rw [List.mem_cons, not_or]
          exact ⟨fun he => heq ⟨congrArg Prod.fst he.symm, congrArg Prod.snd he.symm⟩, hmem⟩

end SubtreeTable

namespace Comparison

variable [Cost α] {c : Comparison α} {d : SubtreeTable α} {l₁ l₂ m n x y : Nat}

/-- A forest table records the pairs of subtrees that begin where its forests begin. -/
theorem get?_record (table : Table α) (h : d.Fits c.t.size c.h.size) (hm : l₁ + m ≤ c.t.size)
    (hn : l₂ + n ≤ c.h.size) :
    (c.record l₁ l₂ m n table d).Fits c.t.size c.h.size ∧
      ∀ x y, (c.record l₁ l₂ m n table d).get? x y =
        if x ∈ c.t.spine l₁ m ∧ y ∈ c.h.spine l₂ n then
          some (table.get (x + 1 - l₁) (y + 1 - l₂))
        else d.get? x y := by
  let pairs := (c.t.spine l₁ m).flatMap fun x => (c.h.spine l₂ n).map fun y => (x, y)
  have hmem : ∀ x y, (x, y) ∈ pairs ↔ x ∈ c.t.spine l₁ m ∧ y ∈ c.h.spine l₂ n := by
    simp [pairs]
  have hfold : c.record l₁ l₂ m n table d =
      pairs.foldl (fun d p => d.set p.1 p.2 (table.get (p.1 + 1 - l₁) (p.2 + 1 - l₂))) d := by
    simp only [pairs, record, List.foldl_flatMap, List.foldl_map]
  have key := SubtreeTable.get?_foldl_set
    (fun x y => table.get (x + 1 - l₁) (y + 1 - l₂)) pairs h fun p hp => by
      have := (hmem p.1 p.2).1 hp
      rw [PostOrder.mem_spine, PostOrder.mem_spine] at this
      omega
  rw [hfold]
  refine ⟨key.1, fun x y => ?_⟩
  rw [key.2]
  simp only [hmem]

/-- The costs of the pairs of subtrees that share their leftmost leaves with one of the given
pairs are known. -/
def Known (c : Comparison α) (done : List (Nat × Nat)) (d : SubtreeTable α) : Prop :=
  ∀ x < c.t.size, ∀ y < c.h.size,
    (∃ p ∈ done, c.t.leftmost p.1 = c.t.leftmost x ∧ c.h.leftmost p.2 = c.h.leftmost y) →
      d.get? x y = some (c.subtreeCost x y)

omit [Cost α] in
/-- The pairs of keyroots are all pairs of them. -/
theorem mem_keyrootPairs : (x, y) ∈ c.keyrootPairs ↔ x ∈ c.t.keyroots ∧ y ∈ c.h.keyroots := by
  simp [keyrootPairs]

omit [Cost α] in
/-- A pair of keyroots is a pair of positions. -/
theorem lt_of_mem_keyrootPairs {p : Nat × Nat} (h : p ∈ c.keyrootPairs) :
    p.1 < c.t.size ∧ p.2 < c.h.size :=
  (mem_keyrootPairs.1 h).imp (fun hx => (PostOrder.mem_keyroots.1 hx).1)
    fun hy => (PostOrder.mem_keyroots.1 hy).1

omit [Cost α] in
/-- No two pairs of keyroots share both leftmost leaves. -/
theorem keyrootPairs_unique {p q : Nat × Nat} (hp : p ∈ c.keyrootPairs) (hq : q ∈ c.keyrootPairs)
    (h₁ : c.t.leftmost p.1 = c.t.leftmost q.1) (h₂ : c.h.leftmost p.2 = c.h.leftmost q.2) :
    p = q :=
  Prod.ext (PostOrder.keyroot_unique (mem_keyrootPairs.1 hp).1 (mem_keyrootPairs.1 hq).1 h₁)
    (PostOrder.keyroot_unique (mem_keyrootPairs.1 hp).2 (mem_keyrootPairs.1 hq).2 h₂)

omit [Cost α] in
/-- The pairs of keyroots are recorded in lexicographic order. -/
theorem pairwise_keyrootPairs (c : Comparison α) :
    c.keyrootPairs.Pairwise fun p q => p.1 < q.1 ∨ p.1 = q.1 ∧ p.2 < q.2 := by
  rw [keyrootPairs, List.pairwise_flatMap]
  refine ⟨fun x _ => ?_, ?_⟩
  · rw [List.pairwise_map]
    exact c.h.pairwise_keyroots.imp fun hlt => .inr ⟨rfl, hlt⟩
  · refine c.t.pairwise_keyroots.imp fun {x x'} hlt p hp q hq => ?_
    obtain ⟨_, -, rfl⟩ := List.mem_map.1 hp
    obtain ⟨_, -, rfl⟩ := List.mem_map.1 hq
    exact .inl hlt

omit [Cost α] in
/-- Inside the subtrees of a pair of keyroots, all other pairs of keyroots come before it. -/
theorem exists_earlier_keyroots {done rest : List (Nat × Nat)} {p : Nat × Nat}
    (hsplit : c.keyrootPairs = done ++ p :: rest)
    (hx₁ : c.t.leftmost p.1 ≤ x) (hx₂ : x ≤ p.1) (hy₁ : c.h.leftmost p.2 ≤ y) (hy₂ : y ≤ p.2)
    (apart : ¬(c.t.leftmost x = c.t.leftmost p.1 ∧ c.h.leftmost y = c.h.leftmost p.2)) :
    ∃ q ∈ done, c.t.leftmost q.1 = c.t.leftmost x ∧ c.h.leftmost q.2 = c.h.leftmost y := by
  have hp : p ∈ c.keyrootPairs := by simp [hsplit]
  obtain ⟨hr₁, hr₂⟩ := mem_keyrootPairs.1 hp
  obtain ⟨hlt₁, hlt₂⟩ := lt_of_mem_keyrootPairs hp
  obtain ⟨k₁, hk₁, -, hleft₁⟩ := c.t.exists_keyroot (p := x) (by omega)
  obtain ⟨k₂, hk₂, -, hleft₂⟩ := c.h.exists_keyroot (p := y) (by omega)
  have hle₁ := PostOrder.keyroot_le hr₁ hk₁ hx₁ hx₂ hleft₁
  have hle₂ := PostOrder.keyroot_le hr₂ hk₂ hy₁ hy₂ hleft₂
  have hk := mem_keyrootPairs.2 ⟨hk₁, hk₂⟩
  refine ⟨(k₁, k₂), ?_, hleft₁, hleft₂⟩
  have hpw := c.pairwise_keyrootPairs
  rw [hsplit] at hk hpw
  rcases List.mem_append.1 hk with hk | hk
  · exact hk
  · rcases List.mem_cons.1 hk with rfl | hk
    · exact absurd ⟨hleft₁.symm, hleft₂.symm⟩ apart
    · have := List.rel_of_pairwise_cons (List.pairwise_append.1 hpw).2.1 hk
      simp only at this
      omega

/-- What a pair of keyroots reads was recorded before it. -/
theorem Known.supplies {done rest : List (Nat × Nat)} {p : Nat × Nat} (h : c.Known done d)
    (hsplit : c.keyrootPairs = done ++ p :: rest) :
    c.Supplies (c.t.leftmost p.1) (c.h.leftmost p.2) (c.t.width p.1) (c.h.width p.2) d := by
  obtain ⟨hlt₁, hlt₂⟩ := lt_of_mem_keyrootPairs (show p ∈ c.keyrootPairs by simp [hsplit])
  intro x hx y hy hlx hly apart
  rw [c.t.leftmost_add_width] at hx
  rw [c.h.leftmost_add_width] at hy
  have hdone := exists_earlier_keyroots hsplit hlx (by omega) hly (by omega) apart
  rw [SubtreeTable.get, h x (by omega) y (by omega) hdone]
  rfl

/-- Recording a pair of keyroots makes their costs known. -/
theorem Known.recordKeyroots {done rest : List (Nat × Nat)} {p : Nat × Nat} (h : c.Known done d)
    (hfits : d.Fits c.t.size c.h.size) (hsplit : c.keyrootPairs = done ++ p :: rest) :
    (c.recordKeyroots d p.1 p.2).Fits c.t.size c.h.size ∧
      c.Known (done ++ [p]) (c.recordKeyroots d p.1 p.2) := by
  have hp : p ∈ c.keyrootPairs := by simp [hsplit]
  obtain ⟨hr₁, hr₂⟩ := mem_keyrootPairs.1 hp
  obtain ⟨hlt₁, hlt₂⟩ := lt_of_mem_keyrootPairs hp
  have htable := forestTable_holds (h.supplies hsplit)
  obtain ⟨hfits', hget⟩ := get?_record
    (c.forestTable d (c.t.leftmost p.1) (c.h.leftmost p.2) (c.h.width p.2) (c.t.width p.1))
    hfits (by rw [c.t.leftmost_add_width]; exact hlt₁)
    (by rw [c.h.leftmost_add_width]; exact hlt₂)
  refine ⟨hfits', fun x hx y hy hxy => ?_⟩
  rw [Comparison.recordKeyroots, hget]
  split
  next hspine =>
    obtain ⟨hx₁, hx₂, hx₃⟩ := PostOrder.mem_spine.1 hspine.1
    obtain ⟨hy₁, hy₂, hy₃⟩ := PostOrder.mem_spine.1 hspine.2
    rw [htable _ (by omega) _ (by omega), subtreeCost, PostOrder.width, PostOrder.width, hx₃, hy₃]
  next hspine =>
    obtain ⟨q, hq, hleft₁, hleft₂⟩ := hxy
    rcases List.mem_append.1 hq with hq | hq
    · exact h x hx y hy ⟨q, hq, hleft₁, hleft₂⟩
    · -- A pair that shares its leftmost leaves with keyroots is on their spines.
      obtain rfl := List.mem_singleton.1 hq
      have hxq := PostOrder.mem_subtree_of_keyroot hr₁ hx hleft₁
      have hyq := PostOrder.mem_subtree_of_keyroot hr₂ hy hleft₂
      refine absurd ⟨PostOrder.mem_spine.2 ⟨hxq.1, ?_, hleft₁.symm⟩,
        PostOrder.mem_spine.2 ⟨hyq.1, ?_, hleft₂.symm⟩⟩ hspine
      · rw [c.t.leftmost_add_width]
        omega
      · rw [c.h.leftmost_add_width]
        omega

/-- After all pairs of keyroots, the costs of all pairs of subtrees are known. -/
theorem get?_subtreeTable (c : Comparison α) (hx : x < c.t.size) (hy : y < c.h.size) :
    c.subtreeTable.get? x y = some (c.subtreeCost x y) := by
  have run : ∀ (rest done : List (Nat × Nat)) (d : SubtreeTable α),
      c.keyrootPairs = done ++ rest → d.Fits c.t.size c.h.size → c.Known done d →
        c.Known c.keyrootPairs (rest.foldl (fun d p => c.recordKeyroots d p.1 p.2) d) := by
    intro rest
    induction rest with
    | nil =>
        intro done d hsplit _ hknown
        rw [hsplit, List.append_nil]
        exact hknown
    | cons p rest ih =>
        intro done d hsplit hfits hknown
        have hstep := hknown.recordKeyroots hfits hsplit
        exact ih (done ++ [p]) _ (by simp [hsplit]) hstep.1 hstep.2
  obtain ⟨k₁, hk₁, -, hleft₁⟩ := c.t.exists_keyroot hx
  obtain ⟨k₂, hk₂, -, hleft₂⟩ := c.h.exists_keyroot hy
  refine run c.keyrootPairs [] _ rfl (SubtreeTable.unknown_fits _ _) ?_ x hx y hy
    ⟨(k₁, k₂), mem_keyrootPairs.2 ⟨hk₁, hk₂⟩, hleft₁, hleft₂⟩
  rintro x - y - ⟨p, hp, -⟩
  cases hp

/-- The subtree table supplies whatever lies inside the trees. -/
theorem subtreeTable_supplies (c : Comparison α) (hm : l₁ + m ≤ c.t.size)
    (hn : l₂ + n ≤ c.h.size) : c.Supplies l₁ l₂ m n c.subtreeTable := by
  intro x hx y hy _ _ _
  rw [SubtreeTable.get, get?_subtreeTable c (by omega) (by omega)]
  rfl

/-- The table of the whole trees holds the costs of their forests. -/
theorem wholeTable_holds (c : Comparison α) : c.Holds 0 0 c.t.size c.h.size c.wholeTable :=
  forestTable_holds (c.subtreeTable_supplies (by omega) (by omega))

/-- The distance is the cost of turning one whole forest into the other. -/
theorem distance_eq (c : Comparison α) :
    c.distance = c.forestCost 0 0 c.t.size c.h.size :=
  c.wholeTable_holds _ (Nat.le_refl _) _ (Nat.le_refl _)

end Comparison

end Entailment
