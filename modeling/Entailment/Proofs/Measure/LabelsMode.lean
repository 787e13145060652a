import Entailment.Proofs.Measure.Counts

/-! # Alignments that only label

Where alignments only label the edits, they do not bear on which edits there are: two measurements
of the same sentences under different alignments show the same distances, and the same edits of the
same tokens.

* **`Transformation.unlabelled`** — a transformation without what alignments say of it;
* **`Transformation.map_unlabelled_ofScript`** — it depends on the edits alone;
* **`Aligner.classify_of_lexicallyIdentical`** — no alignment is asked about identical tokens;
* **`measure_labels_noninterference`** — two measurements under different alignments. -/

namespace Entailment

namespace Transformation

variable {a a' : Aligner} {t h : Tree} {x y : Token}

/-- The transformation without what is known about its pair: every pair is a replacement without
judgment and link. -/
def unlabelled : Transformation → Transformation
  | .matched _ t h => .replaced none none t h
  | .replaced _ _ t h => .replaced none none t h
  | .inserted h => .inserted h
  | .deleted t => .deleted t

/-- But for its label, the transformation of a pair is a replacement. -/
theorem unlabelled_ofPair (a : Aligner) (x y : Token) :
    (ofPair a x y).unlabelled = .replaced none none x y := by
  rw [ofPair]
  split <;> rfl

/-- But for its label, the transformation of an edit does not depend on the alignments. -/
theorem map_unlabelled_ofOperation? (a a' : Aligner) (t h : Tree) (e : Operation) :
    (ofOperation? a t h e).map unlabelled = (ofOperation? a' t h e).map unlabelled := by
  cases e with
  | replace i j =>
      rw [ofOperation?, ofOperation?]
      cases t.token? i with
      | none => rfl
      | some x =>
          cases h.token? j with
          | none => rfl
          | some y =>
              show some (ofPair a x y).unlabelled = some (ofPair a' x y).unlabelled
              rw [unlabelled_ofPair, unlabelled_ofPair]
  | insert j => rfl
  | delete i => rfl

/-- But for their labels, the transformations of a script depend on its edits alone. -/
theorem map_unlabelled_ofScript (a a' : Aligner) (t h : Tree) (s : EditScript) :
    (ofScript a t h s).map unlabelled = (ofScript a' t h s).map unlabelled := by
  rw [ofScript, ofScript, List.map_filterMap, List.map_filterMap]
  exact List.filterMap_congr fun e _ => map_unlabelled_ofOperation? a a' t h e

end Transformation

/-! ## Identical tokens -/

/-- Identical tokens are entailed, whatever else is known. -/
theorem Aligner.classify_of_lexicallyIdentical (a : Aligner) {x y : Token}
    (h : lexicallyIdentical x y = true) : a.classify x y = some ⟨.entailment, none⟩ := by
  rw [classify, if_neg (not_not_intro (relation_eq_of_lexicallyIdentical h)), h, Bool.true_or,
    if_pos rfl]

/-- Identical tokens are matched, and nothing is said about how. -/
theorem Transformation.ofPair_of_lexicallyIdentical (a : Aligner) {x y : Token}
    (h : lexicallyIdentical x y = true) : ofPair a x y = .matched none x y := by
  rw [ofPair, a.classify_of_lexicallyIdentical h]

/-! ## Two measurements -/

/-- Where alignments only label, prices do not depend on them. -/
theorem priced_labels {α : Type} (a a' : Aligner) (w : Weights α) (t h : Tree) :
    priced a .labels w t h = priced a' .labels w t h := rfl

/-- Where alignments only label the edits, a measurement that succeeds under one aligner succeeds
under every other, with the same distances and, but for the labels of pairs, the same
transformations in the same order. Lexically identical tokens that are paired are a match without a
link under both. -/
theorem measure_labels_noninterference {α : Type} [Cost α] (config : Config α) (a a' : Aligner)
    (text hypothesis : Fragment) (m : Measurement α) (hmode : config.mode = .labels)
    (hm : measure config a text hypothesis = .ok m) :
    ∃ m', measure config a' text hypothesis = .ok m' ∧ m'.raw = m.raw ∧
      m'.normalized = m.normalized ∧
      m'.transformations.map Transformation.unlabelled =
        m.transformations.map Transformation.unlabelled ∧
      ∀ z ∈ m.transformations ++ m'.transformations, ∀ x y, z.text? = some x →
        z.hypothesis? = some y → lexicallyIdentical x y = true → z = .matched none x y := by
  obtain ⟨t, h, ht, hh, rfl⟩ := measure_eq_ok_iff.1 hm
  -- With the same prices there is one script, and only its labelling sees the aligner.
  have hprices : priced a' config.mode config.weights t h =
      priced a config.mode config.weights t h := by
    rw [hmode, priced_labels a']
  let s := (t.compare h (priced a config.mode config.weights t h)).script
  have htransformations : (measureTrees config a' t h).transformations =
      Transformation.ofScript a' t h s := by
    rw [measureTrees, hprices]
  refine ⟨measureTrees config a' t h, measure_eq_ok_iff.2 ⟨t, h, ht, hh, rfl⟩, ?_, ?_, ?_, ?_⟩
  · rw [measureTrees, hprices, measureTrees]
  · rw [measureTrees, hprices, measureTrees]
  · rw [htransformations]
    exact Transformation.map_unlabelled_ofScript a' a t h s
  · intro z hz x y hx hy hidentical
    rcases List.mem_append.1 hz with hz | hz
    · rw [Transformation.eq_ofPair_of_mem hz hx hy,
        Transformation.ofPair_of_lexicallyIdentical a hidentical]
    · rw [Transformation.eq_ofPair_of_mem (htransformations ▸ hz) hx hy,
        Transformation.ofPair_of_lexicallyIdentical a' hidentical]

/-- A user who declares that tigers are cats changes no distance and no edit of two short sentences,
where alignments only label. -/
theorem measure_labels_noninterference_sentences :
    let a : Aligner := ⟨.empty, .empty⟩
    let a' : Aligner := ⟨.empty, ManualPairs.empty.insert "Tigers_NNS" "Cats_NNS"⟩
    let config : Config Rat := { (Config.standard : Config Rat) with mode := .labels }
    config.mode = .labels ∧ ∃ m m', measure config a Tree.tigersRun Tree.catsRunFast = .ok m ∧
      measure config a' Tree.tigersRun Tree.catsRunFast = .ok m' ∧ m'.raw = m.raw ∧
      m'.normalized = m.normalized ∧
      m'.transformations.map Transformation.unlabelled =
        m.transformations.map Transformation.unlabelled := by
  intro a a' config
  obtain ⟨m, hm⟩ := exists_measure_sentences config rfl a
  obtain ⟨m', hm', hraw, hnormalized, htransformations, -⟩ :=
    measure_labels_noninterference config a a' _ _ m rfl hm
  exact ⟨rfl, m, m', hm, hm', hraw, hnormalized, htransformations⟩

end Entailment
