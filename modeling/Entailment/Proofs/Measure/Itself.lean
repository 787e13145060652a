import Entailment.Proofs.Edit.Diagonal
import Entailment.Proofs.Measure.Bounds

/-! # A sentence against itself

A token matches itself, whatever aligners and users say about it: lexical identity is asked first.
So a sentence is at no distance from itself where matches are free, and it is matched token by token
where a deletion and an insertion together are more than the tolerance.

* **`priced_self`** — the price of a node and itself;
* **`Transformation.ofScript_self`** — the transformations of a tree against itself;
* **`measure_self`** — the measurement of a sentence against itself. -/

namespace Entailment

variable {a : Aligner} {mode : AlignmentMode} {w : Weights Rat} {t : Tree}

/-- A node and itself are priced as a match. -/
theorem priced_self {α : Type} {w : Weights α} {i : Nat} (hi : i < t.size) :
    (priced a mode w t t).replace i i = w.matching := by
  obtain ⟨x, hx, -⟩ := t.exists_token hi
  simp only [priced, hx, a.isMatch_self mode x]
  rfl

/-- A script that replaces each node of a tree by itself matches each token with itself. -/
theorem Transformation.ofScript_self {nodes : List Nat} (hnodes : ∀ i ∈ nodes, i < t.size) :
    List.Forall₂ (fun i z => ∃ x, t.token? i = some x ∧ z = .matched none x x) nodes
      (ofScript a t t ⟨nodes.map fun i => .replace i i⟩) := by
  simp only [ofScript]
  induction nodes with
  | nil => exact .nil
  | cons i nodes ih =>
      obtain ⟨hi, hrest⟩ := List.forall_mem_cons.1 hnodes
      obtain ⟨x, -, hx⟩ := t.exists_token hi
      have hmatch : ofOperation? a t t (.replace i i) =
          some (.matched none (x.withPath (t.path i)) (x.withPath (t.path i))) := by
        rw [ofOperation?, hx, Option.bind_some, Option.map_some, ofPair, a.classify_self]
      rw [List.map_cons, List.filterMap_cons_some hmatch]
      exact .cons ⟨_, hx, rfl⟩ (ih hrest)

/-- A tree is at no distance from itself, if matches are free. -/
theorem raw_measureTrees_self {config : Config Rat} (hw : config.weights.Nonneg)
    (hmatching : config.weights.matching = 0) (a : Aligner) (t : Tree) :
    (measureTrees config a t t).raw = 0 := by
  have hcosts : (priced a config.mode config.weights t t).All (0 ≤ ·) t t := hw.priced
  have hraw : (measureTrees config a t t).raw =
      (t.compare t (priced a config.mode config.weights t t)).forestCost 0 0 t.size t.size :=
    distance_compare t t _
  rw [hraw]
  exact hcosts.forestCost_self (fun i hi => (priced_self hi).trans hmatching) (by omega)
    (t.positions.closed_zero _)

/-- A tree is matched with itself node by node, if matches are free and a deletion and an insertion
together are more than the tolerance. -/
theorem transformations_measureTrees_self {config : Config Rat} (hw : config.weights.Nonneg)
    (hmatching : config.weights.matching = 0)
    (hfar : Cost.tolerance * (1 + (config.weights.deletion + config.weights.insertion)) <
      config.weights.deletion + config.weights.insertion) (a : Aligner) (t : Tree) :
    List.Forall₂ (fun i z => ∃ x, t.token? i = some x ∧ z = .matched none x x) t.postorder
      (measureTrees config a t t).transformations := by
  have hcosts : (priced a config.mode config.weights t t).All (0 ≤ ·) t t := hw.priced
  have hscript := hcosts.operations_script_self (fun i hi => (priced_self hi).trans hmatching)
    hw.deletion hw.insertion (fun _ _ => le_rfl) (fun _ _ => le_rfl) hfar
  have htransformations : (measureTrees config a t t).transformations =
      Transformation.ofScript a t t ⟨t.postorder.map fun i => .replace i i⟩ := by
    rw [← hscript]
    rfl
  rw [htransformations]
  exact Transformation.ofScript_self fun i hi => Tree.mem_postorder.1 hi

/-- A sentence that is a tree within the limit is at distance zero from itself, plain and
normalized, if matches are free and no edit is rewarded, whatever is known about its tokens. If a
deletion and an insertion together cost at least a hundred-millionth, its transformations are, for
each node in post-order, the match of the token of the node with itself, without a link; every node
of the sentence occurs once. -/
theorem measure_self (config : Config Rat) (a : Aligner) (f : Fragment) (t : Tree)
    (ht : Tree.ofFragment f = .ok t) (hlimit : config.Admits f) (hw : config.weights.Nonneg)
    (hmatching : config.weights.matching = 0) :
    ∃ m, measure config a f f = .ok m ∧ m.raw = 0 ∧ m.normalized = 0 ∧
      (1 / 10 ^ 8 ≤ config.weights.deletion + config.weights.insertion →
        List.Forall₂ (fun i z => ∃ x, t.token? i = some x ∧ z = .matched none x x) t.postorder
          m.transformations) ∧
      t.postorder.Perm (List.range f.length) := by
  have htree : ∀ side, config.tree side f = .ok t :=
    fun _ => Config.tree_eq_ok_iff.2 ⟨hlimit, ht⟩
  have hraw := raw_measureTrees_self hw hmatching a t
  refine ⟨_, measure_eq_ok_iff.2 ⟨t, t, htree _, htree _, rfl⟩, hraw, ?_, ?_, ?_⟩
  · have hnormalized : (measureTrees config a t t).normalized =
        normalized (measureTrees config a t t).raw t.size t.size config.weights := rfl
    rw [hnormalized, hraw, normalized_eq, zero_div, ite_self]
  · intro henough
    refine transformations_measureTrees_self hw hmatching ?_ a t
    rw [Cost.tolerance]
    linarith
  · rw [← Config.size_of_tree (htree .text)]
    exact t.postorder_perm_range

/-- A user may hold that to run is the opposite of to run: a short sentence is matched with itself
all the same. -/
theorem measure_self_antonym :
    let link : Link := ⟨"WORDNET__3.0__ANTONYM", 1.0, .textToHypothesis⟩
    let a : Aligner := ⟨AlignTable.empty.insert "run__run" link, .empty⟩
    let config : Config Rat := .standard
    ∃ t, Tree.ofFragment Tree.catsRunFast = .ok t ∧ config.Admits Tree.catsRunFast ∧
      config.weights.Nonneg ∧ config.weights.matching = 0 ∧
      1 / 10 ^ 8 ≤ config.weights.deletion + config.weights.insertion ∧ t.postorder = [0, 2, 1] ∧
      ∃ m, measure config a Tree.catsRunFast Tree.catsRunFast = .ok m ∧ m.raw = 0 ∧
        m.normalized = 0 ∧
        List.Forall₂ (fun i z => ∃ x, t.token? i = some x ∧ z = .matched none x x) [0, 2, 1]
          m.transformations := by
  intro link a config
  obtain ⟨t, ht, hpostorder⟩ :
      ∃ t, Tree.ofFragment Tree.catsRunFast = .ok t ∧ t.postorder = [0, 2, 1] := ⟨_, rfl, rfl⟩
  have hlimit : config.Admits Tree.catsRunFast := fun limit hmax => by cases hmax
  have hw : config.weights.Nonneg := ⟨le_rfl, zero_le_one, zero_le_one, zero_le_one⟩
  have henough : (1 : Rat) / 10 ^ 8 ≤ config.weights.deletion + config.weights.insertion := by
    show (1 : Rat) / 10 ^ 8 ≤ 1 + 1
    norm_num
  obtain ⟨m, hm, hraw, hnormalized, hmatches, -⟩ :=
    measure_self config a Tree.catsRunFast t ht hlimit hw rfl
  exact ⟨t, ht, hlimit, hw, rfl, henough, hpostorder, m, hm, hraw, hnormalized,
    hpostorder ▸ hmatches henough⟩

end Entailment
