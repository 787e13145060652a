import Entailment.Proofs.Edit.Tolerance

/-! # The unit-cost distance is a metric

Under unit costs two forests are at distance zero exactly if they are the same ordered forest of
words, and the way over a third forest is never shorter. Mappings are composed for the latter: a
mapping costs what all deletions and insertions together cost, less what its pairs save.

* **`compose`**, **`IsMapping.compose`** — one mapping after another;
* **`IsMapping.mappingCost_eq`** — the cost of a mapping by what its pairs save;
* **`formDistance`** — the unit-cost distance in exact arithmetic;
* **`formDistance_triangle`** — the way over a third tree;
* **`formDistance_eq_zero_iff`** — the trees at distance zero;
* **`formDistance_metric`** — both together. -/

namespace Entailment

/-! ## What pairs save -/

/-- What it saves to replace a node instead of deleting it and inserting the other. -/
def CostModel.saving (costs : CostModel Rat) (p : Nat × Nat) : Rat :=
  costs.delete p.1 + costs.insert p.2 - costs.replace p.1 p.2

section

variable {t h : Tree} {m : Finset (Nat × Nat)}

/-- A mapping pairs a text node once. -/
theorem IsMapping.injOn_fst (hm : IsMapping t h m) : Set.InjOn Prod.fst (m : Set (Nat × Nat)) :=
  fun p hp q hq heq => Prod.ext heq ((hm.eq_iff p hp q hq).1 heq)

/-- A mapping pairs a hypothesis node once. -/
theorem IsMapping.injOn_snd (hm : IsMapping t h m) : Set.InjOn Prod.snd (m : Set (Nat × Nat)) :=
  fun p hp q hq heq => Prod.ext ((hm.eq_iff p hp q hq).2 heq) heq

/-- A mapping costs as much as deleting and inserting everything, less what its pairs save. -/
theorem IsMapping.mappingCost_eq (hm : IsMapping t h m) (costs : CostModel Rat) :
    mappingCost costs t h m = costs.total t h - ∑ p ∈ m, costs.saving p := by
  have htext : m.image Prod.fst ⊆ Finset.range t.size :=
    Finset.image_subset_iff.2 fun p hp => Finset.mem_range.2 (hm.text_lt p hp)
  have hhypothesis : m.image Prod.snd ⊆ Finset.range h.size :=
    Finset.image_subset_iff.2 fun p hp => Finset.mem_range.2 (hm.hypothesis_lt p hp)
  simp only [mappingCost, CostModel.total, CostModel.saving, Finset.sum_sdiff_eq_sub htext,
    Finset.sum_sdiff_eq_sub hhypothesis, Finset.sum_image hm.injOn_fst,
    Finset.sum_image hm.injOn_snd, Finset.sum_sub_distrib, Finset.sum_add_distrib]
  ring

end

/-! ## One mapping after another -/

section

variable {a b c : Tree} {m n : Finset (Nat × Nat)}

/-- The pairs of pairs that meet in the middle. -/
def meeting (m n : Finset (Nat × Nat)) : Finset ((Nat × Nat) × (Nat × Nat)) :=
  (m ×ˢ n).filter fun q => q.1.2 = q.2.1

/-- Two pairs meet if the first ends where the second begins. -/
theorem mem_meeting {q : (Nat × Nat) × (Nat × Nat)} :
    q ∈ meeting m n ↔ q.1 ∈ m ∧ q.2 ∈ n ∧ q.1.2 = q.2.1 := by
  rw [meeting, Finset.mem_filter, Finset.mem_product, and_assoc]

/-- The pairs of `m` continued by those of `n`. -/
def compose (m n : Finset (Nat × Nat)) : Finset (Nat × Nat) :=
  (meeting m n).image fun q => (q.1.1, q.2.2)

/-- A mapping continued by another is a mapping. -/
theorem IsMapping.compose (hm : IsMapping a b m) (hn : IsMapping b c n) :
    IsMapping a c (compose m n) := by
  have hpair : ∀ p ∈ Entailment.compose m n, ∃ y, (p.1, y) ∈ m ∧ (y, p.2) ∈ n := by
    intro p hp
    obtain ⟨q, hq, rfl⟩ := Finset.mem_image.1 hp
    obtain ⟨hqm, hqn, heq⟩ := mem_meeting.1 hq
    exact ⟨q.1.2, hqm, by rwa [heq]⟩
  constructor
  · intro p hp
    obtain ⟨y, hy, -⟩ := hpair p hp
    exact hm.text_lt (p.1, y) hy
  · intro p hp
    obtain ⟨y, -, hy⟩ := hpair p hp
    exact hn.hypothesis_lt (y, p.2) hy
  all_goals
    intro p hp q hq
    obtain ⟨y, hmp, hnp⟩ := hpair p hp
    obtain ⟨y', hmq, hnq⟩ := hpair q hq
  · exact (hm.eq_iff _ hmp _ hmq).trans (hn.eq_iff _ hnp _ hnq)
  · exact (hm.ancestor_iff _ hmp _ hmq).trans (hn.ancestor_iff _ hnp _ hnq)
  · exact (hm.before_iff _ hmp _ hmq).trans (hn.before_iff _ hnp _ hnq)

/-- What the pairs of a composed mapping save, pair of pairs by pair of pairs. -/
theorem IsMapping.sum_compose (hm : IsMapping a b m) (hn : IsMapping b c n)
    (f : Nat × Nat → Rat) :
    ∑ p ∈ Entailment.compose m n, f p = ∑ q ∈ meeting m n, f (q.1.1, q.2.2) := by
  refine Finset.sum_image fun q hq q' hq' heq => ?_
  obtain ⟨hq₁, hq₂, -⟩ := mem_meeting.1 hq
  obtain ⟨hq₁', hq₂', -⟩ := mem_meeting.1 hq'
  rw [Prod.mk.injEq] at heq
  exact Prod.ext (hm.injOn_fst hq₁ hq₁' heq.1) (hn.injOn_snd hq₂ hq₂' heq.2)

end

/-! ## The triangle inequality -/

/-- The unit-cost distance of two trees, in exact arithmetic. -/
def formDistance (t h : Tree) : Rat := (t.compare h (.byForm t h)).distance

/-- The exact unit cost is one. -/
@[simp] theorem Cost.one_rat : (Cost.one : Rat) = 1 := rfl

namespace CostModel

variable {a b c t h : Tree} {p : Nat × Nat}

/-- A pair saves one edit, and both of them if it has one word. -/
theorem saving_byForm (t h : Tree) (p : Nat × Nat) :
    (byForm t h : CostModel Rat).saving p =
      if t.given[p.1]?.map Token.form = h.given[p.2]?.map Token.form then 2 else 1 := by
  simp only [saving, byForm, Cost.one_rat, Cost.zero_rat]
  split_ifs <;> norm_num

/-- No pair saves more than two edits. -/
theorem saving_byForm_le (t h : Tree) (p : Nat × Nat) :
    (byForm t h : CostModel Rat).saving p ≤ 2 := by
  rw [saving_byForm]
  split_ifs <;> norm_num

/-- No pair loses anything. -/
theorem saving_byForm_nonneg (t h : Tree) (p : Nat × Nat) :
    0 ≤ (byForm t h : CostModel Rat).saving p := by
  rw [saving_byForm]
  split_ifs <;> norm_num

/-- Two pairs that meet save at most two edits more than the pair of their ends. -/
theorem saving_byForm_add_le (a b c : Tree) {p q : Nat × Nat} (hmeet : p.2 = q.1) :
    (byForm a b : CostModel Rat).saving p + (byForm b c : CostModel Rat).saving q ≤
      2 + (byForm a c : CostModel Rat).saving (p.1, q.2) := by
  simp only [saving_byForm, hmeet]
  split_ifs with hab hbc hac
  -- If the words are the same twice, they are the same from end to end.
  case neg => exact absurd (hab.trans hbc) hac
  all_goals norm_num

end CostModel

section

variable {a b c : Tree} {m n : Finset (Nat × Nat)}

/-- Where pairs are told apart by one side, there is one pair with a given node on that side or
none. -/
theorem sum_fiber_cases {g : Nat × Nat → Nat} (hg : Set.InjOn g (m : Set (Nat × Nat)))
    (f : Nat × Nat → Rat) (y : Nat) :
    (∃ p ∈ m, g p = y ∧ ∑ q ∈ m with g q = y, f q = f p) ∨ ∑ q ∈ m with g q = y, f q = 0 := by
  by_cases hy : ∃ p ∈ m, g p = y
  · obtain ⟨p, hp, rfl⟩ := hy
    have honly : m.filter (fun q => g q = g p) = {p} := by
      ext q
      rw [Finset.mem_filter, Finset.mem_singleton]
      constructor
      · rintro ⟨hq, heq⟩
        exact hg hq hp heq
      · rintro rfl
        exact ⟨hp, rfl⟩
    exact .inl ⟨p, hp, rfl, by rw [honly, Finset.sum_singleton]⟩
  · have hempty : m.filter (fun q => g q = y) = ∅ :=
      Finset.filter_eq_empty_iff.2 fun p hp heq => hy ⟨p, hp, heq⟩
    exact .inr (by rw [hempty, Finset.sum_empty])

/-- At one node of the middle tree, the pairs of both mappings save at most two edits more than what
they compose to. -/
theorem sum_saving_at_le (hm : IsMapping a b m) (hn : IsMapping b c n) (y : Nat) :
    ∑ p ∈ m with p.2 = y, (CostModel.byForm a b).saving p +
        ∑ p ∈ n with p.1 = y, (CostModel.byForm b c).saving p ≤
      2 + ∑ q ∈ meeting m n with q.1.2 = y, (CostModel.byForm a c).saving (q.1.1, q.2.2) := by
  have hnonneg : ∀ q ∈ (meeting m n).filter fun q => q.1.2 = y,
      0 ≤ (CostModel.byForm a c : CostModel Rat).saving (q.1.1, q.2.2) :=
    fun q _ => CostModel.saving_byForm_nonneg a c _
  have hmeeting := Finset.sum_nonneg hnonneg
  rcases sum_fiber_cases hm.injOn_snd (CostModel.byForm a b).saving y with
      ⟨p, hp, hpy, hleft⟩ | hleft <;>
    rcases sum_fiber_cases hn.injOn_fst (CostModel.byForm b c).saving y with
      ⟨r, hr, hry, hright⟩ | hright <;>
    rw [hleft, hright]
  · -- The two pairs meet, so the pair of their ends is composed.
    have hmeet : p.2 = r.1 := hpy.trans hry.symm
    have hmem : (p, r) ∈ (meeting m n).filter fun q => q.1.2 = y :=
      Finset.mem_filter.2 ⟨mem_meeting.2 ⟨hp, hr, hmeet⟩, hpy⟩
    have hone := Finset.single_le_sum hnonneg hmem
    linarith [CostModel.saving_byForm_add_le a b c hmeet]
  · linarith [CostModel.saving_byForm_le a b p]
  · linarith [CostModel.saving_byForm_le b c r]
  · linarith

/-- Two mappings save at most two edits for each node of the middle tree more than what they compose
to. -/
theorem sum_saving_le (hm : IsMapping a b m) (hn : IsMapping b c n) :
    ∑ p ∈ m, (CostModel.byForm a b).saving p + ∑ p ∈ n, (CostModel.byForm b c).saving p ≤
      2 * (b.size : Rat) + ∑ p ∈ compose m n, (CostModel.byForm a c).saving p := by
  rw [hm.sum_compose hn,
    ← Finset.sum_fiberwise_of_maps_to (s := m) (g := Prod.snd) (t := Finset.range b.size)
      fun p hp => Finset.mem_range.2 (hm.hypothesis_lt p hp),
    ← Finset.sum_fiberwise_of_maps_to (s := n) (g := Prod.fst) (t := Finset.range b.size)
      fun p hp => Finset.mem_range.2 (hn.text_lt p hp),
    ← Finset.sum_fiberwise_of_maps_to (s := meeting m n) (g := fun q => q.1.2)
      (t := Finset.range b.size)
      fun q hq => Finset.mem_range.2 (hm.hypothesis_lt _ (mem_meeting.1 hq).1),
    ← Finset.sum_add_distrib]
  calc _ ≤ ∑ y ∈ Finset.range b.size, (2 + ∑ q ∈ meeting m n with q.1.2 = y,
          (CostModel.byForm a c : CostModel Rat).saving (q.1.1, q.2.2)) :=
        Finset.sum_le_sum fun y _ => sum_saving_at_le hm hn y
    _ = _ := by
        rw [Finset.sum_add_distrib, Finset.sum_const, Finset.card_range, nsmul_eq_mul, mul_comm]

end

/-- The way over a third tree is not shorter. -/
theorem formDistance_triangle (a b c : Tree) :
    formDistance a c ≤ formDistance a b + formDistance b c := by
  obtain ⟨m, hm, hcost⟩ := (distance_isLeast a b (.byForm a b)).1
  obtain ⟨n, hn, hcost'⟩ := (distance_isLeast b c (.byForm b c)).1
  have hle := (distance_isLeast a c (.byForm a c)).2 ⟨_, hm.compose hn, rfl⟩
  rw [hm.mappingCost_eq, total_byForm] at hcost
  rw [hn.mappingCost_eq, total_byForm] at hcost'
  rw [(hm.compose hn).mappingCost_eq, total_byForm] at hle
  have hsaving := sum_saving_le hm hn
  rw [formDistance, formDistance, formDistance, ← hcost, ← hcost']
  linarith

/-! ## Trees at distance zero -/

namespace Tree

/-- The word of a node. -/
def word (t : Tree) (node : Nat) : String := (t.given[node]?.map Token.form).getD ""

/-- The words in post-order. -/
def words (t : Tree) : List String := t.postorder.map t.word

/-- The positions of the leftmost leaves below the nodes, in post-order. -/
def leftmostLeaves (t : Tree) : List Nat := (List.range t.size).map t.positions.leftmost

variable {t h : Tree} {i j : Nat}

/-- Two nodes have the same word. -/
theorem word_eq_iff (hi : i < t.size) (hj : j < h.size) :
    t.word i = h.word j ↔ t.given[i]?.map Token.form = h.given[j]?.map Token.form := by
  rw [size, length_parents] at hi hj
  simp [word, hi, hj]

/-- Words and leftmost leaves agree if they do at every position. -/
theorem words_eq_iff (hsize : t.size = h.size) :
    t.words = h.words ∧ t.leftmostLeaves = h.leftmostLeaves ↔
      ∀ p < t.size, t.word (t.positions.node p) = h.word (h.positions.node p) ∧
        t.positions.leftmost p = h.positions.leftmost p := by
  simp only [words, leftmostLeaves, ← map_node_range, ← hsize, List.map_map, List.map_inj_left,
    List.mem_range, Function.comp_apply, ← forall_and]

end Tree

/-- Subtrees that hold the same positions begin with the same leaf. -/
theorem PostOrder.leftmost_eq_of_above {o o' : PostOrder} {p : Nat}
    (habove : ∀ q < p, o.Above p q ↔ o'.Above p q) : o.leftmost p = o'.leftmost p := by
  have hle := o.leftmost_le_self p
  have hle' := o'.leftmost_le_self p
  rcases Nat.lt_trichotomy (o.leftmost p) (o'.leftmost p) with hlt | heq | hlt
  · have := ((habove (o.leftmost p) (by omega)).1 ⟨le_rfl, by omega⟩).1
    omega
  · exact heq
  · have := ((habove (o'.leftmost p) (by omega)).2 ⟨le_rfl, by omega⟩).1
    omega

/-- The pairs of a script of replacements are its nodes on both sides, one by one. -/
theorem pair?_of_replacements {s : List Operation} (hs : ∀ e ∈ s, ∃ i j, e = .replace i j) :
    s.filterMap Operation.pair? =
        (s.filterMap Operation.textNode?).zip (s.filterMap Operation.hypothesisNode?) ∧
      (s.filterMap Operation.textNode?).length = (s.filterMap Operation.hypothesisNode?).length := by
  induction s with
  | nil => exact ⟨rfl, rfl⟩
  | cons e s ih =>
      obtain ⟨⟨i, j, rfl⟩, htail⟩ := List.forall_mem_cons.1 hs
      obtain ⟨hpairs, hlen⟩ := ih htail
      exact ⟨congrArg ((i, j) :: ·) hpairs, congrArg (· + 1) hlen⟩

section

variable {t h : Tree}

/-- An edit costs one unit, unless it replaces a node by one of the same word. -/
theorem priceAt_byForm (e : Operation) :
    (t.compare h (.byForm t h : CostModel Rat)).priceAt e = 1 ∨
      (t.compare h (.byForm t h : CostModel Rat)).priceAt e = 0 ∧ ∃ x y, e = .replace x y ∧
        t.given[t.positions.node x]?.map Token.form =
          h.given[h.positions.node y]?.map Token.form := by
  cases e with
  | replace x y =>
      by_cases hword : t.given[t.positions.node x]?.map Token.form =
          h.given[h.positions.node y]?.map Token.form
      · exact .inr ⟨if_pos hword, x, y, rfl, hword⟩
      · exact .inl (if_neg hword)
  | insert y => exact .inl rfl
  | delete x => exact .inl rfl

/-- A script that costs nothing replaces nodes by nodes of the same word. -/
theorem eq_replace_of_price_zero {s : List Operation}
    (hzero : (s.map (t.compare h (.byForm t h : CostModel Rat)).priceAt).sum = 0) :
    ∀ e ∈ s, ∃ x y, e = .replace x y ∧
      t.given[t.positions.node x]?.map Token.form = h.given[h.positions.node y]?.map Token.form := by
  have hnonneg : ∀ u ∈ s.map (t.compare h (.byForm t h : CostModel Rat)).priceAt, 0 ≤ u := by
    intro u hu
    obtain ⟨e, -, rfl⟩ := List.mem_map.1 hu
    rcases priceAt_byForm e with hone | ⟨hzero, -⟩
    · rw [hone]
      exact zero_le_one
    · exact hzero.ge
  intro e he
  have hprice := List.all_zero_of_le_zero_le_of_sum_eq_zero hnonneg hzero
    (List.mem_map_of_mem he)
  rcases priceAt_byForm e with hone | ⟨-, hreplace⟩
  · exact absurd (hone.symm.trans hprice) one_ne_zero
  · exact hreplace

/-- Trees at distance zero have the same words in the same places. -/
theorem same_of_formDistance_eq_zero (hzero : formDistance t h = 0) :
    t.size = h.size ∧ ∀ p < t.size,
      t.word (t.positions.node p) = h.word (h.positions.node p) ∧
        t.positions.leftmost p = h.positions.leftmost p := by
  obtain ⟨s, hs, hcost⟩ := (t.compare h (.byForm t h)).exists_edits_cost_eq 0 0 t.size h.size
    (t.positions.closed_zero _) (h.positions.closed_zero _)
  have hreplace :=
    eq_replace_of_price_zero (hcost.trans ((distance_compare t h _).symm.trans hzero))
  obtain ⟨hpairs, hlen⟩ := pair?_of_replacements fun e he => by
    obtain ⟨x, y, rfl, -⟩ := hreplace e he
    exact ⟨x, y, rfl⟩
  have htext : s.filterMap Operation.textNode? = List.range' 0 t.size := hs.textNodes
  have hhyp : s.filterMap Operation.hypothesisNode? = List.range' 0 h.size := hs.hypothesisNodes
  have hsize : t.size = h.size := by simpa [htext, hhyp] using hlen
  have hmem : ∀ p < t.size, (p, p) ∈ s.filterMap Operation.pair? := by
    intro p hp
    rw [hpairs, htext, hhyp, ← hsize, List.mem_iff_getElem?]
    exact ⟨p, List.getElem?_zip_eq_some.2 (by simp [hp])⟩
  refine ⟨hsize, fun p hp => ⟨?_, ?_⟩⟩
  · obtain ⟨e, he, hep⟩ := List.mem_filterMap.1 (hmem p hp)
    obtain ⟨x, y, rfl, hword⟩ := hreplace e he
    cases hep
    exact (Tree.word_eq_iff (Tree.node_lt hp) (Tree.node_lt (hsize ▸ hp))).2 hword
  · refine PostOrder.leftmost_eq_of_above fun q hq => ?_
    exact hs.above _ (hmem p hp) _ (hmem q (by omega))

/-- Trees with the same words in the same places are paired position by position. -/
theorem isMapping_positions (hsize : t.size = h.size)
    (hleft : ∀ p < t.size, t.positions.leftmost p = h.positions.leftmost p) :
    IsMapping t h
      ((Finset.range t.size).image fun p => (t.positions.node p, h.positions.node p)) := by
  have hpair : ∀ q ∈ (Finset.range t.size).image fun p => (t.positions.node p, h.positions.node p),
      ∃ p < t.size, p < h.size ∧ (t.positions.node p, h.positions.node p) = q := by
    intro q hq
    obtain ⟨p, hp, rfl⟩ := Finset.mem_image.1 hq
    have hp := Finset.mem_range.1 hp
    exact ⟨p, hp, hsize ▸ hp, rfl⟩
  constructor
  · intro q hq
    obtain ⟨p, hp, -, rfl⟩ := hpair q hq
    exact Tree.node_lt hp
  · intro q hq
    obtain ⟨p, -, hp, rfl⟩ := hpair q hq
    exact Tree.node_lt hp
  all_goals
    intro q hq r hr
    obtain ⟨p, hpt, hph, rfl⟩ := hpair q hq
    obtain ⟨p', hpt', hph', rfl⟩ := hpair r hr
  · rw [Tree.node_eq_iff hpt hpt', Tree.node_eq_iff hph hph']
  · rw [← Tree.above_positions hpt hpt', ← Tree.above_positions hph hph', PostOrder.Above,
      PostOrder.Above, hleft p hpt]
  · simp only [Tree.Before, Tree.position_node hpt, Tree.position_node hpt',
      Tree.position_node hph, Tree.position_node hph']

/-- The distance is not negative. -/
theorem formDistance_nonneg (t h : Tree) : 0 ≤ formDistance t h := by
  have hnonneg := ((byForm_natural t h).mono fun _ => IsNatural.nonneg).nonneg
  rw [formDistance, distance_compare]
  exact hnonneg 0 0 t.size h.size (by rw [Nat.zero_add, text_size_compare])
    (by rw [Nat.zero_add, hypothesis_size_compare])

/-- Trees with the same words in the same places are at distance zero. -/
theorem formDistance_eq_zero (hsize : t.size = h.size)
    (hsame : ∀ p < t.size, t.word (t.positions.node p) = h.word (h.positions.node p) ∧
      t.positions.leftmost p = h.positions.leftmost p) : formDistance t h = 0 := by
  have hm := isMapping_positions hsize fun p hp => (hsame p hp).2
  have hle := (distance_isLeast t h (.byForm t h)).2 ⟨_, hm, rfl⟩
  have hsaving : ∀ p ∈ Finset.range t.size,
      (CostModel.byForm t h : CostModel Rat).saving (t.positions.node p, h.positions.node p) = 2 := by
    intro p hp
    have hp := Finset.mem_range.1 hp
    rw [CostModel.saving_byForm, if_pos]
    exact (Tree.word_eq_iff (Tree.node_lt hp) (Tree.node_lt (hsize ▸ hp))).1 (hsame p hp).1
  rw [hm.mappingCost_eq, total_byForm, Finset.sum_image, Finset.sum_congr rfl hsaving,
    Finset.sum_const, Finset.card_range, nsmul_eq_mul, ← hsize] at hle
  · have hzero := formDistance_nonneg t h
    rw [formDistance] at hzero ⊢
    linarith
  · intro p hp q hq heq
    exact (Tree.node_eq_iff (Finset.mem_range.1 hp) (Finset.mem_range.1 hq)).1 (Prod.mk.inj heq).1

end

/-- Two trees are at distance zero exactly if they have the same number of nodes and, read in
post-order, the same words and the same leftmost leaves. -/
theorem formDistance_eq_zero_iff (t h : Tree) :
    formDistance t h = 0 ↔
      t.size = h.size ∧ t.words = h.words ∧ t.leftmostLeaves = h.leftmostLeaves := by
  constructor
  · intro hzero
    obtain ⟨hsize, hsame⟩ := same_of_formDistance_eq_zero hzero
    exact ⟨hsize, (Tree.words_eq_iff hsize).2 hsame⟩
  · rintro ⟨hsize, hsame⟩
    exact formDistance_eq_zero hsize ((Tree.words_eq_iff hsize).1 hsame)

/-- The unit-cost distance is a metric on ordered forests of words: it is zero exactly between trees
with the same number of nodes and, read in post-order, the same words and the same leftmost leaves;
and the way over a third tree is not shorter. -/
theorem formDistance_metric (a b c : Tree) :
    (formDistance a b = 0 ↔
      a.size = b.size ∧ a.words = b.words ∧ a.leftmostLeaves = b.leftmostLeaves) ∧
    formDistance a c ≤ formDistance a b + formDistance b c :=
  ⟨formDistance_eq_zero_iff a b, formDistance_triangle a b c⟩

end Entailment
