import Entailment.Proofs.Edit.Transposition
import Entailment.Proofs.Measure.Trees

/-! # Measuring in the other direction

Where alignments only label, it does not matter which of two tokens is the text token of a pair. So
the hypothesis is as far from the text as the text is from it, if deletions are weighted like
insertions and insertions like deletions.

* **`priced_labels_transpose`** — the prices of the other direction;
* **`distance_transposes`** — two trees, and two sentences, are at one distance in both
  directions. -/

namespace Entailment

variable {α : Type} {a a' : Aligner} {w : Weights α} {t h : Tree} {x y : Token}

/-- Tokens are lexically identical in both directions or in none. -/
theorem lexicallyIdentical_comm (x y : Token) :
    lexicallyIdentical x y = lexicallyIdentical y x := by
  rw [lexicallyIdentical, lexicallyIdentical, BEq.comm, BEq.comm (a := Text.lowercase _)]

/-- Where alignments only label, a pair matches in both directions or in none. -/
theorem Aligner.isMatch_labels_comm (a a' : Aligner) (x y : Token) :
    a'.isMatch .labels y x = a.isMatch .labels x y :=
  lexicallyIdentical_comm y x

/-- The weights of the other direction. -/
def Weights.transpose (w : Weights α) : Weights α :=
  { w with deletion := w.insertion, insertion := w.deletion }

/-- Where alignments only label, weights of the other direction lead to prices of the other
direction. -/
theorem priced_labels_transpose :
    priced a' .labels w.transpose h t = (priced a .labels w t h).transpose := by
  have hreplace : (priced a' .labels w.transpose h t).replace =
      (priced a .labels w t h).transpose.replace := by
    funext j i
    simp only [priced, CostModel.transpose]
    cases h.given[j]? with
    | none => cases t.given[i]? <;> rfl
    | some y =>
        cases t.given[i]? with
        | none => rfl
        | some x =>
            simp only [Aligner.isMatch_labels_comm a a']
            rfl
  exact congrArg (fun replace => (⟨replace, _, _⟩ : CostModel α)) hreplace

/-- Where alignments only label, two trees are at the same distance in both directions. -/
theorem raw_measureTrees_transpose {config config' : Config Rat} (hmode : config.mode = .labels)
    (hmode' : config'.mode = .labels) (hweights : config'.weights = config.weights.transpose) :
    (measureTrees config' a' h t).raw = (measureTrees config a t h).raw := by
  rw [measureTrees, measureTrees, hmode, hmode', hweights, priced_labels_transpose (a := a)]
  exact distance_compare_transpose t h _

/-- Where alignments only label, two sentences that are measured in one direction are measured in
the other, too, and at the same distance. -/
theorem exists_measure_transpose {config config' : Config Rat} {text hypothesis : Fragment}
    {r : Measurement Rat} (hmode : config.mode = .labels) (hmode' : config'.mode = .labels)
    (hweights : config'.weights = config.weights.transpose)
    (hmax : config'.maxNodes = config.maxNodes) (hr : measure config a text hypothesis = .ok r) :
    ∃ r', measure config' a' hypothesis text = .ok r' ∧ r'.raw = r.raw := by
  obtain ⟨t, h, ht, hh, rfl⟩ := measure_eq_ok_iff.1 hr
  refine ⟨_, measure_eq_ok_iff.2 ⟨h, t, ?_, ?_, rfl⟩,
    raw_measureTrees_transpose hmode hmode' hweights⟩
  · exact Config.tree_of_tree hmax hh
  · exact Config.tree_of_tree hmax ht

/-- Two trees are at the same distance in both directions, if the costs are exchanged with them. So
are two sentences where alignments only label, whatever is known about their tokens, if the weights
of deletions and insertions are exchanged with the sentences; and they are measured in one direction
exactly if they are in the other. -/
theorem distance_transposes :
    (∀ (t h : Tree) (costs : CostModel Rat),
      (h.compare t costs.transpose).distance = (t.compare h costs).distance) ∧
    ∀ (config : Config Rat) (a a' : Aligner) (text hypothesis : Fragment) (m d i s raw : Rat),
      (∃ r, measure { config with mode := .labels, weights := ⟨m, d, i, s⟩ } a text hypothesis =
        .ok r ∧ r.raw = raw) ↔
      ∃ r, measure { config with mode := .labels, weights := ⟨m, i, d, s⟩ } a' hypothesis text =
        .ok r ∧ r.raw = raw := by
  refine ⟨distance_compare_transpose, ?_⟩
  intro config a a' text hypothesis m d i s raw
  constructor
  · rintro ⟨r, hr, rfl⟩
    refine exists_measure_transpose ?_ ?_ ?_ ?_ hr <;> rfl
  · rintro ⟨r, hr, rfl⟩
    refine exists_measure_transpose ?_ ?_ ?_ ?_ hr <;> rfl

end Entailment
