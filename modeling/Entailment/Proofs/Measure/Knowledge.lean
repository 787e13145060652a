import Entailment.Proofs.Align.Layering
import Entailment.Proofs.Measure.Counts
import Entailment.Proofs.Text.Basic

/-! # What more knowledge does to the distance

The more pairs of tokens match, the smaller the distance, as long as matches cost no more than other
pairs. Pairs that match without any alignment still match where alignments change the cost, and
neither a further declared pair nor a further link of the right kind takes a match away: a link
under a form that is new hides a link under a lemma only by another one that is an entailment.

* **`Aligner.entails_iff_known`** — what makes a pair an entailment;
* **`Aligner.entails_insert_manual`**, **`Aligner.entails_insert_link`** — a further pair, and a
  further link;
* **`raw_measureTrees_le`** — more matches make no distance larger;
* **`knowledge_lowers_raw`** — so do alignments, declared pairs and links. -/

namespace Entailment

variable {a a' : Aligner} {x y : Token} {key : String} {link l : Link}

/-! ## Links -/

/-- A link is an entailment if it runs from text to hypothesis and is not one between antonyms. -/
theorem Link.judgment_eq_entailment_iff :
    l.judgment = .entailment ↔ l.direction = .textToHypothesis ∧ l.isAntonym = false := by
  rw [judgment]
  cases l.direction <;> cases l.isAntonym <;> simp

/-- A link is not one between antonyms if its description does not say so anywhere. -/
theorem Link.isAntonym_eq_false_iff :
    l.isAntonym = false ↔ ¬"ANTONYM".toList <:+: l.info.toList := by
  rw [← Bool.not_eq_true, isAntonym, Text.occursIn_iff]

/-- What two tokens were linked by stays, unless the new link takes its place. -/
theorem AlignTable.lookup_insert_of_lookup {m : AlignTable} (h : m.lookup x y = some l)
    (key : String) (link : Link) :
    (m.insert key link).lookup x y = some l ∨ (m.insert key link).lookup x y = some link := by
  rw [lookup] at h
  rw [lookup, get?_insert, get?_insert]
  cases hform : m.get? (alignKey x.form y.form) with
  | some l' =>
      rw [hform, Option.some_or] at h
      exact .inl h
  | none =>
      -- The forms had no link, so the lemmas have the old one; the new one may be under the forms.
      rw [hform, Option.none_or] at h
      rw [h]
      split_ifs <;> simp

/-! ## Entailments -/

namespace Aligner

/-- A pair is an entailment if the tokens have one relation and are lexically identical, declared,
or linked by an entailment. -/
theorem entails_iff_known : a.entails x y = true ↔
    x.relation = y.relation ∧ (lexicallyIdentical x y = true ∨ a.manual.contains x y = true ∨
      ∃ l, a.table.lookup x y = some l ∧ l.judgment = .entailment) := by
  rw [entails, classify]
  by_cases hrelation : x.relation = y.relation
  · rw [if_neg (not_not_intro hrelation)]
    by_cases hknown : (lexicallyIdentical x y || a.manual.contains x y) = true
    · rw [if_pos hknown]
      rw [Bool.or_eq_true] at hknown
      rcases hknown with h | h <;> simp [hrelation, h]
    · rw [if_neg hknown]
      rw [Bool.or_eq_true, not_or] at hknown
      rw [Option.any_map, Option.any_eq_true]
      simp [hrelation, hknown]
  · simp [hrelation]

/-- A pair that matches where alignments only label is an entailment. -/
theorem entails_of_isMatch_labels (h : a.isMatch .labels x y = true) : a.entails x y = true :=
  entails_iff_known.2 ⟨relation_eq_of_lexicallyIdentical h, .inl h⟩

/-- A further declared pair takes no entailment away. -/
theorem entails_insert_manual (t h : String) (hxy : a.entails x y = true) :
    { a with manual := a.manual.insert t h }.entails x y = true := by
  rw [entails_iff_known] at hxy ⊢
  refine hxy.imp_right fun hknown => hknown.imp_right fun hknown => hknown.imp_left fun hpair => ?_
  exact List.contains_iff_mem.2 (ManualPairs.mem_insert.2 (.inl (List.contains_iff_mem.1 hpair)))

/-- A further link that is an entailment takes no entailment away. -/
theorem entails_insert_link (key : String) (hlink : link.judgment = .entailment)
    (hxy : a.entails x y = true) :
    { a with table := a.table.insert key link }.entails x y = true := by
  rw [entails_iff_known] at hxy ⊢
  refine hxy.imp_right fun hknown => hknown.imp_right fun hknown => hknown.imp_right ?_
  rintro ⟨l, hl, hentailment⟩
  rcases AlignTable.lookup_insert_of_lookup hl key link with hsame | hnew
  · exact ⟨l, hsame, hentailment⟩
  · exact ⟨link, hnew, hlink⟩

end Aligner

/-! ## Distances -/

/-- The more pairs match, the less edits cost. -/
theorem price_priced_le {mode mode' : AlignmentMode} {w : Weights Rat} {t h : Tree}
    (hw : w.matching ≤ w.substitution)
    (hmatch : ∀ x y, a.isMatch mode x y = true → a'.isMatch mode' x y = true) (e : Operation) :
    (priced a' mode' w t h).price e ≤ (priced a mode w t h).price e := by
  cases e with
  | replace i j =>
      simp only [CostModel.price, priced]
      cases t.given[i]? with
      | none => exact le_rfl
      | some x =>
          cases h.given[j]? with
          | none => exact le_rfl
          | some y =>
              by_cases hxy : a.isMatch mode x y = true
              · simp only [hxy, hmatch x y hxy]
                exact le_rfl
              · simp only [hxy]
                split
                · exact hw
                · exact le_rfl
  | insert j => exact le_rfl
  | delete i => exact le_rfl

/-- Trees under which every pair matches that matched before are at no larger distance. -/
theorem raw_measureTrees_le {config config' : Config Rat} {t h : Tree}
    (hsame : config'.weights = config.weights)
    (hw : config.weights.matching ≤ config.weights.substitution)
    (hmatch : ∀ x y, a.isMatch config.mode x y = true → a'.isMatch config'.mode x y = true) :
    (measureTrees config' a' t h).raw ≤ (measureTrees config a t h).raw := by
  rw [measureTrees, measureTrees, distance_compare, distance_compare, hsame]
  exact Comparison.forestCost_le_of_price_le (price_priced_le hw hmatch)
    (t.positions.closed_zero _) (h.positions.closed_zero _)

/-- Alignments can only lower the distance, where matches cost no more than other pairs: it is at
most what it is where they only label the edits, and no declared pair and no link from text to
hypothesis that is not one between antonyms raises it, whatever key the link is offered under. -/
theorem knowledge_lowers_raw (config : Config Rat) (a : Aligner) (text hypothesis : Fragment)
    (m : Measurement Rat) (hmode : config.mode = .cost)
    (hw : config.weights.matching ≤ config.weights.substitution)
    (hm : measure config a text hypothesis = .ok m) :
    (∃ m', measure { config with mode := .labels } a text hypothesis = .ok m' ∧
      m.raw ≤ m'.raw) ∧
    (∀ t h, ∃ m', measure config { a with manual := a.manual.insert t h } text hypothesis =
      .ok m' ∧ m'.raw ≤ m.raw) ∧
    ∀ key link, link.direction = .textToHypothesis → ¬"ANTONYM".toList <:+: link.info.toList →
      ∃ m', measure config { a with table := a.table.insert key link } text hypothesis =
        .ok m' ∧ m'.raw ≤ m.raw := by
  obtain ⟨t, h, ht, hh, rfl⟩ := measure_eq_ok_iff.1 hm
  refine ⟨?_, fun s s' => ?_, fun key link hdirection hinfo => ?_⟩
  · refine ⟨_, measure_eq_ok_iff.2 ⟨t, h, ht, hh, rfl⟩, raw_measureTrees_le rfl hw ?_⟩
    intro x y hxy
    rw [hmode]
    exact Aligner.entails_of_isMatch_labels hxy
  · refine ⟨_, measure_eq_ok_iff.2 ⟨t, h, ht, hh, rfl⟩, raw_measureTrees_le rfl hw ?_⟩
    intro x y hxy
    rw [hmode] at hxy ⊢
    exact Aligner.entails_insert_manual s s' hxy
  · have hlink : link.judgment = .entailment :=
      Link.judgment_eq_entailment_iff.2 ⟨hdirection, Link.isAntonym_eq_false_iff.2 hinfo⟩
    refine ⟨_, measure_eq_ok_iff.2 ⟨t, h, ht, hh, rfl⟩, raw_measureTrees_le rfl hw ?_⟩
    intro x y hxy
    rw [hmode] at hxy ⊢
    exact Aligner.entails_insert_link key hlink hxy

/-- A link from tigers to cats makes two short sentences no less alike. -/
theorem knowledge_lowers_raw_sentences :
    let a : Aligner := ⟨.empty, .empty⟩
    let config : Config Rat := .standard
    let link : Link := ⟨"WORDNET__3.0__HYPERNYM", 1.0, .textToHypothesis⟩
    config.mode = .cost ∧ config.weights.matching ≤ config.weights.substitution ∧
      link.direction = .textToHypothesis ∧ ¬"ANTONYM".toList <:+: link.info.toList ∧
      ∃ m labelled declared linked, measure config a Tree.tigersRun Tree.catsRunFast = .ok m ∧
        measure { config with mode := .labels } a Tree.tigersRun Tree.catsRunFast = .ok labelled ∧
        measure config { a with manual := a.manual.insert "Tigers_NNS" "Cats_NNS" }
          Tree.tigersRun Tree.catsRunFast = .ok declared ∧
        measure config { a with table := a.table.insert "tiger__cat" link }
          Tree.tigersRun Tree.catsRunFast = .ok linked ∧
        m.raw ≤ labelled.raw ∧ declared.raw ≤ m.raw ∧ linked.raw ≤ m.raw := by
  intro a config link
  have hw : config.weights.matching ≤ config.weights.substitution := zero_le_one
  have hinfo : ¬"ANTONYM".toList <:+: link.info.toList := by decide
  obtain ⟨m, hm⟩ := exists_measure_sentences config rfl a
  obtain ⟨⟨labelled, hlabelled, hle⟩, hmanual, htable⟩ :=
    knowledge_lowers_raw config a _ _ m rfl hw hm
  obtain ⟨declared, hdeclared, hle'⟩ := hmanual "Tigers_NNS" "Cats_NNS"
  obtain ⟨linked, hlinked, hle''⟩ := htable "tiger__cat" link rfl hinfo
  exact ⟨rfl, hw, rfl, hinfo, m, labelled, declared, linked, hm, hlabelled, hdeclared, hlinked, hle,
    hle', hle''⟩

end Entailment
