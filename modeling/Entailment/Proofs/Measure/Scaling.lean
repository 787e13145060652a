import Entailment.Proofs.Edit.Choices
import Entailment.Proofs.Measure.Transformations
import Entailment.Proofs.Measure.Trees

/-! # Measuring in other units

With all weights multiplied, the distance is multiplied and the normalized distance stays. The
transformations need not stay: costs are compared with an absolute tolerance, which does not scale.

* **`Weights.scale`**, **`Config.scale`** — the same weights in another unit;
* **`Comparison.forestCost_scale`** — all costs are multiplied;
* **`Comparison.walk_scale`** — backtracking goes as if the floor of the tolerance were divided;
* **`measure_scale`** — what a measurement becomes, and when its transformations stay. -/

namespace Entailment

/-! ## Costs in another unit -/

/-- The costs, each multiplied by `k`. -/
def CostModel.scale (k : Rat) (costs : CostModel Rat) : CostModel Rat where
  replace i j := k * costs.replace i j
  insert j := k * costs.insert j
  delete i := k * costs.delete i

namespace Comparison

/-- The comparison with all costs multiplied by `k`. -/
def scale (k : Rat) (c : Comparison Rat) : Comparison Rat := { c with costs := c.costs.scale k }

variable {c : Comparison Rat} {k : Rat} {l₁ l₂ a b : Nat}

/-- Deleting last costs `k` times as much, if what is left does. -/
theorem deleting_scale
    (h : (c.scale k).forestCost l₁ l₂ a (b + 1) = k * c.forestCost l₁ l₂ a (b + 1)) :
    (c.scale k).deleting l₁ l₂ a b = k * c.deleting l₁ l₂ a b := by
  rw [deleting, deleting, h, Cost.add_rat, Cost.add_rat, mul_add]
  rfl

/-- Inserting last costs `k` times as much, if what is left does. -/
theorem inserting_scale
    (h : (c.scale k).forestCost l₁ l₂ (a + 1) b = k * c.forestCost l₁ l₂ (a + 1) b) :
    (c.scale k).inserting l₁ l₂ a b = k * c.inserting l₁ l₂ a b := by
  rw [inserting, inserting, h, Cost.add_rat, Cost.add_rat, mul_add]
  rfl

/-- Forests cost `k` times as much. -/
theorem forestCost_scale (hk : 0 ≤ k) (l₁ l₂ a b : Nat) :
    (c.scale k).forestCost l₁ l₂ a b = k * c.forestCost l₁ l₂ a b := by
  induction l₁, l₂, a, b using PostOrder.runs_induction c.t c.h with
  | nil l₁ l₂ => rw [forestCost_zero_zero, forestCost_zero_zero, Cost.zero_rat, mul_zero]
  | text l₁ l₂ a ih =>
      rw [forestCost_succ_zero, forestCost_succ_zero, ih, Cost.add_rat, Cost.add_rat, mul_add]
      rfl
  | hypothesis l₁ l₂ b ih =>
      rw [forestCost_zero_succ, forestCost_zero_succ, ih, Cost.add_rat, Cost.add_rat, mul_add]
      rfl
  | both l₁ l₂ a b ihDelete ihInsert ihReplace ihBefore ihInside =>
      have hpair : (c.scale k).pairing l₁ l₂ a b = k * c.pairing l₁ l₂ a b := by
        by_cases whole : c.t.leftmost (l₁ + a) = l₁ ∧ c.h.leftmost (l₂ + b) = l₂
        · rw [pairing_of_whole (c := c.scale k) whole.1 whole.2, pairing_of_whole whole.1 whole.2,
            ihReplace, mul_add]
          rfl
        · rw [pairing_of_apart (c := c.scale k) whole, pairing_of_apart whole, mul_add, ← ihBefore,
            subtreeCost, subtreeCost, ← ihInside whole]
          rfl
      rw [forestCost_succ_succ, forestCost_succ_succ, deleting_scale ihDelete,
        inserting_scale ihInsert, hpair]
      simp only [Cost.least_rat, mul_min_of_nonneg _ _ hk]

/-- The last edit is chosen as if the floor of the tolerance were divided by `k`. -/
theorem lastEdit_scale (hk : 0 < k) :
    (c.scale k).lastEdit Cost.near l₁ l₂ a b = c.lastEdit (Cost.nearFrom (1 / k)) l₁ l₂ a b := by
  rw [lastEdit, lastEdit, deleting_scale (forestCost_scale hk.le ..),
    inserting_scale (forestCost_scale hk.le ..), forestCost_scale hk.le, Cost.near_mul hk,
    Cost.near_mul hk]

/-- Backtracking goes as if the floor of the tolerance were divided by `k`. -/
theorem walk_scale (hk : 0 < k) :
    (c.scale k).walk Cost.near l₁ l₂ a b = c.walk (Cost.nearFrom (1 / k)) l₁ l₂ a b := by
  induction l₁, l₂, a, b using PostOrder.runs_induction c.t c.h with
  | nil l₁ l₂ => rw [walk_zero_zero, walk_zero_zero]
  | text l₁ l₂ a ih => rw [walk_succ_zero, walk_succ_zero, ih]
  | hypothesis l₁ l₂ b ih => rw [walk_zero_succ, walk_zero_succ, ih]
  | both l₁ l₂ a b ihDelete ihInsert ihReplace ihBefore ihInside =>
      have hsame : (c.scale k).lastEdit Cost.near l₁ l₂ a b =
          c.lastEdit (Cost.nearFrom (1 / k)) l₁ l₂ a b := lastEdit_scale hk
      cases hlast : c.lastEdit (Cost.nearFrom (1 / k)) l₁ l₂ a b with
      | delete => rw [walk_of_delete hlast, walk_of_delete (hsame.trans hlast), ihDelete]
      | insert => rw [walk_of_insert hlast, walk_of_insert (hsame.trans hlast), ihInsert]
      | pair =>
          by_cases whole : c.t.leftmost (l₁ + a) = l₁ ∧ c.h.leftmost (l₂ + b) = l₂
          · rw [walk_of_whole hlast whole, walk_of_whole (hsame.trans hlast) whole, ihReplace]
          · rw [walk_of_apart hlast whole, walk_of_apart (hsame.trans hlast) whole, ← ihBefore,
              ← ihInside whole]
            rfl

end Comparison

/-! ## Weights in another unit -/

/-- The weights, each multiplied by `k`. -/
def Weights.scale (k : Rat) (w : Weights Rat) : Weights Rat where
  matching := k * w.matching
  deletion := k * w.deletion
  insertion := k * w.insertion
  substitution := k * w.substitution

/-- No edit is rewarded. -/
structure Weights.Nonneg (w : Weights Rat) : Prop where
  /-- Matches are not. -/
  matching : 0 ≤ w.matching
  /-- Deletions are not. -/
  deletion : 0 ≤ w.deletion
  /-- Insertions are not. -/
  insertion : 0 ≤ w.insertion
  /-- Other pairs are not. -/
  substitution : 0 ≤ w.substitution

/-- The same configuration with all weights multiplied by `k`. -/
def Config.scale (k : Rat) (config : Config Rat) : Config Rat :=
  { config with weights := config.weights.scale k }

variable {a : Aligner} {mode : AlignmentMode} {w : Weights Rat} {t h : Tree} {k : Rat}

/-- Pairs are priced by the weights, so their prices are multiplied with them. -/
theorem priced_scale : priced a mode (w.scale k) t h = (priced a mode w t h).scale k := by
  have hreplace : (priced a mode (w.scale k) t h).replace =
      ((priced a mode w t h).scale k).replace := by
    funext i j
    simp only [priced, CostModel.scale]
    split
    · split <;> rfl
    · rfl
  exact congrArg (fun replace => (⟨replace, _, _⟩ : CostModel Rat)) hreplace

/-- Weights that are not negative make no negative price. -/
theorem Weights.Nonneg.priced (hw : w.Nonneg) : (priced a mode w t h).All (0 ≤ ·) t h :=
  priced_all hw.matching hw.deletion hw.insertion hw.substitution

/-- A distance in another unit is in the same relation to the sizes of the trees. -/
theorem normalized_scale (hk : k ≠ 0) (raw : Rat) (textNodes hypothesisNodes : Nat) :
    normalized (k * raw) textNodes hypothesisNodes (w.scale k) =
      normalized raw textNodes hypothesisNodes w := by
  have hnorm : Cost.add (Cost.times textNodes (w.scale k).deletion)
        (Cost.times hypothesisNodes (w.scale k).insertion) =
      k * Cost.add (Cost.times textNodes w.deletion)
        (Cost.times hypothesisNodes w.insertion) := by
    show (textNodes : Rat) * (k * w.deletion) + (hypothesisNodes : Rat) * (k * w.insertion) =
      k * (textNodes * w.deletion + hypothesisNodes * w.insertion)
    ring
  rw [normalized, normalized, hnorm]
  generalize Cost.add (Cost.times textNodes w.deletion)
    (Cost.times hypothesisNodes w.insertion) = norm
  have hzero : Cost.isZero (k * norm) = Cost.isZero norm :=
    decide_eq_decide.2 (mul_eq_zero_iff_left hk)
  have hquotient : Cost.quotient (k * raw) (k * norm) = Cost.quotient raw norm :=
    mul_div_mul_left raw norm hk
  rw [hzero, hquotient]

/-! ## The measurement -/

/-- The same edits are found in another unit exactly if the edits are chosen alike under a floor
divided by `k`. -/
theorem operations_script_scale {costs : CostModel Rat} (hk : 0 < k)
    (hcosts : costs.All (0 ≤ ·) t h) :
    (t.compare h (costs.scale k)).script.operations = (t.compare h costs).script.operations ↔
      (t.compare h costs).ChoosesAlike Cost.near (Cost.nearFrom (1 / k)) 0 0 t.size h.size := by
  have hsize₁ := text_size_compare t h costs
  have hsize₂ := hypothesis_size_compare t h costs
  have hwalk : (t.compare h (costs.scale k)).walk Cost.near 0 0 t.size h.size =
      (t.compare h costs).walk (Cost.nearFrom (1 / k)) 0 0 t.size h.size :=
    Comparison.walk_scale (c := t.compare h costs) hk
  rw [operations_script_compare, operations_script_compare, hwalk, Cost.near_eq_nearFrom,
    ← Comparison.walk_eq_walk_iff zero_le_one (one_div_pos.2 hk).le hcosts.nonneg (by omega)
      (by omega) (t.positions.closed_zero _) (h.positions.closed_zero _)]
  constructor
  · intro heq
    rw [← (edits_walk_compare t h costs _).map_position_atNodes, ← heq,
      (edits_walk_compare t h costs _).map_position_atNodes]
  · intro heq
    rw [heq]

/-- With natural costs that neither floor blurs, the edits are chosen alike. -/
theorem choosesAlike_of_natural {costs : CostModel Rat} (hk : 0 < k)
    (hcosts : costs.All IsNatural t h) (hblur : Cost.tolerance * (1 + costs.total t h) < 1)
    (hblur' : Cost.tolerance * (1 / k + costs.total t h) < 1) :
    (t.compare h costs).ChoosesAlike Cost.near (Cost.nearFrom (1 / k)) 0 0 t.size h.size := by
  have hsize₁ := text_size_compare t h costs
  have hsize₂ := hypothesis_size_compare t h costs
  rw [Cost.near_eq_nearFrom]
  exact Comparison.choosesAlike_of_slack (hcosts.slack_natural zero_le_one hblur)
    (hcosts.slack_natural (one_div_pos.2 hk).le hblur') (by omega) (by omega)

/-! ## A word and itself -/

/-- Every token matches itself. -/
theorem Aligner.classify_self (a : Aligner) (x : Token) :
    a.classify x x = some ⟨.entailment, none⟩ := by
  simp [classify]

/-- Every token matches itself in either mode. -/
theorem Aligner.isMatch_self (a : Aligner) (mode : AlignmentMode) (x : Token) :
    a.isMatch mode x x = true := by
  cases mode with
  | cost => simp [isMatch, entails, classify_self]
  | labels => exact lexicallyIdentical_self x

/-- The tree of one node. -/
def Tree.single (x : Token) : Tree where
  given := [x]
  parents := [none]
  length_parents := rfl
  governor_lt node head h := by cases node <;> cases h
  rooted node h := by
    obtain rfl : node = 0 := by simpa using h
    rfl

/-- A root by itself is the tree of one node. -/
theorem Tree.ofFragment_single {x : Token} (hid : x.id = 0) (hhead : x.head = none) :
    ofFragment [x] = .ok (single x) := by
  rw [ofFragment, List.map_singleton, List.map_singleton, hid, hhead]
  rfl

/-- Without a limit of nodes, a root by itself is measured. -/
theorem measure_single {config : Config Rat} (hmax : config.maxNodes = none) (a : Aligner)
    {x : Token} (hid : x.id = 0) (hhead : x.head = none) :
    measure config a [x] [x] = .ok (measureTrees config a (Tree.single x) (Tree.single x)) :=
  measure_eq_ok_iff.2 ⟨_, _, config.tree_of_ofFragment hmax _ (Tree.ofFragment_single hid hhead),
    config.tree_of_ofFragment hmax _ (Tree.ofFragment_single hid hhead), rfl⟩

namespace Comparison

/-- Deleting the one text node leaves the one hypothesis node to insert. -/
theorem deleting_single (c : Comparison Rat) :
    c.deleting 0 0 0 0 = c.insertCost 0 + c.deleteCost 0 := by
  rw [deleting, forestCost_zero_succ, forestCost_zero_zero, Cost.zero_rat, Cost.add_rat,
    Cost.add_rat, zero_add]

/-- Inserting the one hypothesis node leaves the one text node to delete. -/
theorem inserting_single (c : Comparison Rat) :
    c.inserting 0 0 0 0 = c.deleteCost 0 + c.insertCost 0 := by
  rw [inserting, forestCost_succ_zero, forestCost_zero_zero, Cost.zero_rat, Cost.add_rat,
    Cost.add_rat, zero_add]

section Free

variable {c : Comparison Rat} {u : Rat} (hu : 0 < u) (hdelete : c.deleteCost 0 = u)
  (hinsert : c.insertCost 0 = u) (hreplace : c.replaceCost 0 0 = 0)
  (leaves : c.t.leftmost 0 = 0 ∧ c.h.leftmost 0 = 0)

include hu hdelete hinsert hreplace leaves

/-- A free replacement of one node by one node makes their distance zero. -/
theorem forestCost_single : c.forestCost 0 0 1 1 = 0 := by
  have hpairing : c.pairing 0 0 0 0 = 0 := by
    rw [pairing_of_whole leaves.1 leaves.2, forestCost_zero_zero, hreplace, Cost.zero_rat, zero_add]
  rw [forestCost_succ_succ, deleting_single, inserting_single, hpairing, hdelete, hinsert]
  simp [hu.le]

/-- The free replacement is taken, unless an insertion and a deletion come near nothing. -/
theorem walk_single :
    c.walk Cost.near 0 0 1 1 =
      if 2 * u ≤ Cost.tolerance * (1 + 2 * u) then [.insert 0, .delete 0] else [.replace 0 0] := by
  have hcost := forestCost_single hu hdelete hinsert hreplace leaves
  have hdeleting : c.deleting 0 0 0 0 = 2 * u := by
    rw [deleting_single, hdelete, hinsert, two_mul]
  have hinserting : c.inserting 0 0 0 0 = 2 * u := by
    rw [inserting_single, hdelete, hinsert, two_mul]
  have hnear : Cost.near (2 * u) 0 = true ↔ 2 * u ≤ Cost.tolerance * (1 + 2 * u) := by
    rw [Cost.near_eq_nearFrom, Cost.nearFrom_iff_of_le le_rfl (by linarith), sub_zero]
  split_ifs with hblur
  · have hlast : c.lastEdit Cost.near 0 0 0 0 = .delete := by
      rw [lastEdit_eq_delete_iff, hdeleting, hcost]
      exact hnear.2 hblur
    rw [walk_of_delete hlast, walk_zero_succ, walk_zero_zero]
    rfl
  · have hlast : c.lastEdit Cost.near 0 0 0 0 = .pair := by
      rw [lastEdit_eq_pair_iff, hdeleting, hinserting, hcost]
      exact ⟨hnear.not.2 hblur, hnear.not.2 hblur⟩
    rw [walk_of_whole hlast leaves, walk_zero_zero]
    rfl

end Free

end Comparison

/-- A word against itself, where matches are free and all other edits cost `u`, is at no distance.
But once inserting and deleting cost no more than the tolerance, the word is not matched. -/
theorem measureTrees_single {config : Config Rat} {u : Rat} (hu : 0 < u)
    (hw : config.weights = ⟨0, u, u, u⟩) (a : Aligner) (x : Token) :
    (measureTrees config a (Tree.single x) (Tree.single x)).raw = 0 ∧
      (measureTrees config a (Tree.single x) (Tree.single x)).transformations =
        if 2 * u ≤ Cost.tolerance * (1 + 2 * u) then
          [.inserted (x.withPath x.relation), .deleted (x.withPath x.relation)]
        else [.matched none (x.withPath x.relation) (x.withPath x.relation)] := by
  let t := Tree.single x
  let c := t.compare t (priced a config.mode config.weights t t)
  have hdelete : c.deleteCost 0 = u := by
    show config.weights.deletion = u
    rw [hw]
  have hinsert : c.insertCost 0 = u := by
    show config.weights.insertion = u
    rw [hw]
  have hreplace : c.replaceCost 0 0 = 0 := by
    show (if a.isMatch config.mode x x then config.weights.matching
      else config.weights.substitution) = 0
    rw [a.isMatch_self, if_pos rfl, hw]
  have hpair : Transformation.ofPair a (x.withPath x.relation) (x.withPath x.relation) =
      .matched none (x.withPath x.relation) (x.withPath x.relation) := by
    rw [Transformation.ofPair, a.classify_self]
  have hscript : (measureTrees config a t t).transformations =
      (t.atNodes t (c.walk Cost.near 0 0 1 1)).filterMap
        (Transformation.ofOperation? a t t) := by
    show Transformation.ofScript a t t c.script = _
    rw [Transformation.ofScript, operations_script_compare]
    rfl
  refine ⟨(distance_compare ..).trans
    (Comparison.forestCost_single hu hdelete hinsert hreplace ⟨rfl, rfl⟩), ?_⟩
  rw [hscript, Comparison.walk_single hu hdelete hinsert hreplace ⟨rfl, rfl⟩, ← hpair]
  split_ifs <;> rfl

/-! ## The measurement in another unit -/

/-- With all weights multiplied, a measurement still succeeds, its distance is multiplied and its
normalized distance stays. Its transformations stay exactly if, wherever backtracking passes,
the same edit is chosen when the floor of the tolerance is divided by the factor. -/
theorem measure_scale (config : Config Rat) (a : Aligner) (text hypothesis : Fragment)
    (m : Measurement Rat) (k : Rat) (hk : 0 < k) (hweights : config.weights.Nonneg)
    (hm : measure config a text hypothesis = .ok m) :
    ∃ t h m', config.tree .text text = .ok t ∧ config.tree .hypothesis hypothesis = .ok h ∧
      measure (config.scale k) a text hypothesis = .ok m' ∧
      m'.raw = k * m.raw ∧ m'.normalized = m.normalized ∧
      (m'.transformations = m.transformations ↔
        (t.compare h (priced a config.mode config.weights t h)).ChoosesAlike Cost.near
          (Cost.nearFrom (1 / k)) 0 0 t.size h.size) := by
  obtain ⟨t, h, ht, hh, rfl⟩ := measure_eq_ok_iff.1 hm
  have hraw : (measureTrees (config.scale k) a t h).raw = k * (measureTrees config a t h).raw := by
    show (t.compare h (priced a config.mode (config.weights.scale k) t h)).distance = _
    rw [priced_scale, distance_compare]
    exact (Comparison.forestCost_scale hk.le ..).trans (congrArg _ (distance_compare ..).symm)
  refine ⟨t, h, measureTrees (config.scale k) a t h, ht, hh,
    measure_eq_ok_iff.2 ⟨t, h, ht, hh, rfl⟩, hraw, ?_, ?_⟩
  · show normalized (measureTrees (config.scale k) a t h).raw t.size h.size
      (config.weights.scale k) = _
    rw [hraw]
    exact normalized_scale hk.ne' ..
  · rw [← operations_script_scale hk hweights.priced, ← priced_scale]
    exact Transformation.ofScript_eq_iff (Config.numbered_of_tree ht) (Config.numbered_of_tree hh)
      (valid_script ..) (valid_script ..)

/-- With all standard weights doubled, two short sentences are measured as before. -/
theorem measure_scale_sentences :
    let a : Aligner := ⟨.empty, .empty⟩
    let config : Config Rat := .standard
    (0 : Rat) < 2 ∧ config.weights.Nonneg ∧
      ∃ m m', measure config a Tree.tigersRun Tree.catsRunFast = .ok m ∧
        measure (config.scale 2) a Tree.tigersRun Tree.catsRunFast = .ok m' ∧
        m'.raw = 2 * m.raw ∧ m'.normalized = m.normalized ∧
          m'.transformations = m.transformations := by
  intro a config
  have hweights : config.weights.Nonneg := ⟨le_rfl, zero_le_one, zero_le_one, zero_le_one⟩
  obtain ⟨t, ht, hsize₁⟩ := Tree.exists_tigersRun
  obtain ⟨h, hh, hsize₂⟩ := Tree.exists_catsRunFast
  have ht := config.tree_of_ofFragment rfl .text ht
  have hh := config.tree_of_ofFragment rfl .hypothesis hh
  have hm : measure config a Tree.tigersRun Tree.catsRunFast =
      .ok (measureTrees config a t h) := measure_eq_ok_iff.2 ⟨t, h, ht, hh, rfl⟩
  obtain ⟨t', h', m', ht', hh', hm', hraw, hnormalized, htransformations⟩ :=
    measure_scale config a _ _ _ 2 two_pos hweights hm
  obtain rfl : t = t' := Except.ok.inj (ht.symm.trans ht')
  obtain rfl : h = h' := Except.ok.inj (hh.symm.trans hh')
  have hnatural : (priced a config.mode config.weights t h).All IsNatural t h :=
    priced_all ⟨0, Nat.cast_zero.symm⟩ ⟨1, Nat.cast_one.symm⟩ ⟨1, Nat.cast_one.symm⟩
      ⟨1, Nat.cast_one.symm⟩
  have htotal : (priced a config.mode config.weights t h).total t h = 5 := by
    rw [total_priced, hsize₁, hsize₂]
    show ((2 : Nat) : Rat) * 1 + ((3 : Nat) : Rat) * 1 = 5
    norm_num
  refine ⟨two_pos, hweights, _, m', hm, hm', hraw, hnormalized, htransformations.2 ?_⟩
  exact choosesAlike_of_natural two_pos hnatural (by norm_num [htotal, Cost.tolerance])
    (by norm_num [htotal, Cost.tolerance])

/-- A word against itself is a match under the standard weights, but not when all weights are
multiplied by `4 / 10 ^ 10`: then the word is inserted and deleted, at no distance. -/
theorem transformations_scale_ne :
    let x : Token := .make 0 "run" "run" "VB" none "ROOT"
    let a : Aligner := ⟨.empty, .empty⟩
    let config : Config Rat := .standard
    let k : Rat := 4 / 10000000000
    0 < k ∧ config.weights.Nonneg ∧
      ∃ m m', measure config a [x] [x] = .ok m ∧ measure (config.scale k) a [x] [x] = .ok m' ∧
        m.raw = 0 ∧ m'.raw = 0 ∧
        m.transformations = [.matched none (x.withPath "ROOT") (x.withPath "ROOT")] ∧
        m'.transformations = [.inserted (x.withPath "ROOT"), .deleted (x.withPath "ROOT")] := by
  intro x a config k
  have hk : 0 < k := by norm_num [k]
  have hw : config.weights = ⟨0, 1, 1, 1⟩ := rfl
  have hw' : (config.scale k).weights = ⟨0, k, k, k⟩ := by
    show (⟨k * 0, k * 1, k * 1, k * 1⟩ : Weights Rat) = _
    rw [mul_zero, mul_one]
  obtain ⟨hraw, hmatch⟩ := measureTrees_single one_pos hw a x
  obtain ⟨hraw', hedits⟩ := measureTrees_single hk hw' a x
  rw [if_neg (by norm_num [Cost.tolerance])] at hmatch
  rw [if_pos (by norm_num [Cost.tolerance, k])] at hedits
  exact ⟨hk, ⟨le_rfl, zero_le_one, zero_le_one, zero_le_one⟩, _, _, measure_single rfl a rfl rfl,
    measure_single rfl a rfl rfl, hraw, hraw', hmatch, hedits⟩

end Entailment
