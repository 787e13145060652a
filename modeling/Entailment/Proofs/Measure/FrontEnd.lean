import Entailment.Measure.Config
import Entailment.Proofs.Measure.Trees
import Entailment.Proofs.Sentence.Merge
import Entailment.Proofs.Sentence.Punctuation

/-! # What reaches a measurement

The fragments of parse files are well-formed, whatever is left out of their sentences and however
many are merged. So a pair of files that can be read is measured unless a side is too large or has
a cycle of heads, and such a cycle was in one of the sentences.

* **`Config.tree_of_headCycle`**, **`Config.exists_tree`**, **`Config.defect_of_tree`** — what
  becomes of a well-formed fragment;
* **`Config.exists_fragment`** — the fragment of a file is well-formed, with the cycles of its
  sentences;
* **`measure_of_readSentences`** — what becomes of two files that can be read. -/

namespace Entailment

variable {α : Type} {config : Config α} {side : Side} {f : Fragment} {fs : List Fragment}
  {text : String}

/-! ## One side -/

/-- A well-formed fragment with a cycle is refused for it. -/
theorem Config.tree_of_headCycle (side : Side) (hf : f.WellFormed) (hadmits : config.Admits f)
    (hcycle : f.HeadCycle) :
    ∃ k, f.heads.OnCycle k ∧ config.tree side f = .error (.malformedTree side (.cycle k)) := by
  rw [tree_of_admits hadmits]
  rcases hf.ofFragment_cases with ⟨hnot, -⟩ | ⟨-, k, hk, he⟩
  · exact absurd hcycle hnot
  · exact ⟨k, hk, by rw [he]; rfl⟩

/-- A well-formed fragment without a cycle is a tree. -/
theorem Config.exists_tree (side : Side) (hf : f.WellFormed) (hadmits : config.Admits f)
    (hcycle : ¬f.HeadCycle) : ∃ t, config.tree side f = .ok t := by
  obtain ⟨t, ht⟩ := hf.exists_tree hcycle
  exact ⟨t, by rw [tree_of_admits hadmits, ht]; rfl⟩

/-- A well-formed fragment is refused for its shape only if it has a cycle. -/
theorem Config.defect_of_tree {side' : Side} {defect : TreeError} (hf : f.WellFormed)
    (h : config.tree side f = .error (.malformedTree side' defect)) : ∃ k, defect = .cycle k := by
  by_cases hadmits : config.Admits f
  · by_cases hcycle : f.HeadCycle
    · obtain ⟨k, -, he⟩ := tree_of_headCycle side hf hadmits hcycle
      cases he.symm.trans h
      exact ⟨k, rfl⟩
    · obtain ⟨t, ht⟩ := exists_tree side hf hadmits hcycle
      cases ht.symm.trans h
  · obtain ⟨limit, hmax, hlt⟩ := not_admits_iff.1 hadmits
    cases (tree_of_limit_lt hmax hlt).symm.trans h

/-! ## Files -/

/-- A sentence as it is measured is well-formed, no longer than it was, and has a cycle if it had
one. -/
theorem Config.prepare_spec (config : Config α) (hf : f.WellFormed) :
    (config.prepare f).WellFormed ∧ (config.prepare f).length ≤ f.length ∧
      ((config.prepare f).HeadCycle ↔ f.HeadCycle) := by
  unfold prepare
  split
  · exact ⟨f.wellFormed_withoutPunctuation, f.length_withoutPunctuation_le,
      Fragment.headCycle_withoutPunctuation_iff hf⟩
  · exact ⟨hf, le_rfl, Iff.rfl⟩

/-- The fragment of a file is well-formed, and its cycles are those of the sentences. -/
theorem Config.exists_fragment (config : Config α) (hread : readSentences text = .ok fs)
    (hlen : text.length < wordSize) :
    ∃ f, config.fragment text = .ok f ∧ f.WellFormed ∧ (f.HeadCycle ↔ ∃ s ∈ fs, s.HeadCycle) := by
  have hfs := wellFormed_of_readSentences hread
  have hprepared : ∀ f ∈ fs.map config.prepare, f.WellFormed := by
    rw [List.forall_mem_map]
    exact fun f hf => (config.prepare_spec (hfs f hf)).1
  have hshort : (fs.map config.prepare).flatten.length ≤ wordSize := by
    calc (fs.map config.prepare).flatten.length
        = (fs.map fun f => (config.prepare f).length).sum := by simp [Function.comp_def]
      _ ≤ (fs.map List.length).sum :=
          List.sum_le_sum fun f hf => (config.prepare_spec (hfs f hf)).2.1
      _ = fs.flatten.length := List.length_flatten.symm
      _ ≤ wordSize := (length_flatten_le_of_readSentences hread).trans hlen.le
  refine ⟨.merge (fs.map config.prepare), by rw [fragment, hread]; rfl,
    Fragment.wellFormed_merge hprepared hshort, ?_⟩
  rw [Fragment.headCycle_merge_iff hprepared hshort]
  simp only [List.mem_map, exists_exists_and_eq_and]
  exact exists_congr fun f => and_congr_right fun hf => (config.prepare_spec (hfs f hf)).2.2

/-! ## Both sides -/

section

variable [Cost α] {a : Aligner} {ft fh : Fragment}

/-- A text that is refused is what is reported. -/
theorem measure_of_text {e : MeasureError} (h : config.tree .text ft = .error e) :
    measure config a ft fh = .error e := by
  rw [measure, h]
  rfl

/-- A hypothesis that is refused is reported if the text is not. -/
theorem measure_of_hypothesis {t : Tree} {e : MeasureError} (ht : config.tree .text ft = .ok t)
    (h : config.tree .hypothesis fh = .error e) : measure config a ft fh = .error e := by
  rw [measure, ht, h]
  rfl

/-- A well-formed pair is refused for its shape only if it has a cycle. -/
theorem defect_of_measure (hft : ft.WellFormed) (hfh : fh.WellFormed) {defect : TreeError}
    (h : measure config a ft fh = .error (.malformedTree side defect)) : ∃ k, defect = .cycle k := by
  cases ht : config.tree .text ft with
  | error e =>
      cases (measure_of_text ht).symm.trans h
      exact Config.defect_of_tree hft ht
  | ok t =>
      cases hh : config.tree .hypothesis fh with
      | error e =>
          cases (measure_of_hypothesis ht hh).symm.trans h
          exact Config.defect_of_tree hfh hh
      | ok u => cases (measure_eq_ok_iff.2 ⟨t, u, ht, hh, rfl⟩).symm.trans h

end

/-- What becomes of two files that can be read. Their fragments have the cycles of their sentences,
and a pair is never refused for another defect of its shape. The text is refused if it is too large,
and else if one of its sentences has a cycle; then the hypothesis is, in the same order; and else
there is a measurement. A text that fits into memory has no more characters than there are machine
words. -/
theorem measure_of_readSentences {α : Type} [Cost α] (config : Config α) (a : Aligner)
    (text hypothesis : String) (ts hs : List Fragment) (htext : text.length < wordSize)
    (hhypothesis : hypothesis.length < wordSize) (ht : readSentences text = .ok ts)
    (hh : readSentences hypothesis = .ok hs) :
    ∃ ft fh, config.fragment text = .ok ft ∧ config.fragment hypothesis = .ok fh ∧
      (ft.HeadCycle ↔ ∃ s ∈ ts, s.HeadCycle) ∧ (fh.HeadCycle ↔ ∃ s ∈ hs, s.HeadCycle) ∧
      (∀ side defect, measure config a ft fh = .error (.malformedTree side defect) →
        ∃ k, defect = .cycle k) ∧
      (∀ limit, config.maxNodes = some limit → limit < ft.length →
        measure config a ft fh = .error (.treeTooLarge .text ft.length limit)) ∧
      (config.Admits ft → (∃ s ∈ ts, s.HeadCycle) →
        ∃ k, ft.heads.OnCycle k ∧
          measure config a ft fh = .error (.malformedTree .text (.cycle k))) ∧
      (config.Admits ft → (∀ s ∈ ts, ¬s.HeadCycle) →
        (∀ limit, config.maxNodes = some limit → limit < fh.length →
          measure config a ft fh = .error (.treeTooLarge .hypothesis fh.length limit)) ∧
        (config.Admits fh → (∃ s ∈ hs, s.HeadCycle) →
          ∃ k, fh.heads.OnCycle k ∧
            measure config a ft fh = .error (.malformedTree .hypothesis (.cycle k))) ∧
        (config.Admits fh → (∀ s ∈ hs, ¬s.HeadCycle) → ∃ m, measure config a ft fh = .ok m)) := by
  obtain ⟨ft, hft, hwt, hct⟩ := config.exists_fragment ht htext
  obtain ⟨fh, hfh, hwh, hch⟩ := config.exists_fragment hh hhypothesis
  refine ⟨ft, fh, hft, hfh, hct, hch, fun _ _ => defect_of_measure hwt hwh,
    fun limit hmax hlt => measure_of_text (Config.tree_of_limit_lt hmax hlt), ?_, ?_⟩
  · intro hadmits hcycle
    obtain ⟨k, hk, he⟩ := Config.tree_of_headCycle .text hwt hadmits (hct.2 hcycle)
    exact ⟨k, hk, measure_of_text he⟩
  · intro hadmits hcycle
    obtain ⟨t, htree⟩ := Config.exists_tree .text hwt hadmits fun h => by
      obtain ⟨s, hs, hcs⟩ := hct.1 h
      exact hcycle s hs hcs
    refine ⟨fun limit hmax hlt => measure_of_hypothesis htree (Config.tree_of_limit_lt hmax hlt),
      ?_, ?_⟩
    · intro hadmits hcycle
      obtain ⟨k, hk, he⟩ := Config.tree_of_headCycle .hypothesis hwh hadmits (hch.2 hcycle)
      exact ⟨k, hk, measure_of_hypothesis htree he⟩
    · intro hadmits hcycle
      obtain ⟨u, hu⟩ := Config.exists_tree .hypothesis hwh hadmits fun h => by
        obtain ⟨s, hs, hcs⟩ := hch.1 h
        exact hcycle s hs hcs
      exact ⟨_, measure_eq_ok_iff.2 ⟨t, u, htree, hu, rfl⟩⟩

/-- Two sentences against one, with punctuation left out. -/
theorem measure_of_readSentences_go_run :
    let a : Aligner := ⟨.empty, .empty⟩
    let config : Config Rat := { (Config.standard : Config Rat) with removePunctuation := true }
    let text := "1 Go go VB _ _ 0 ROOT _ _\n\n1 Run run VB _ _ 0 ROOT _ _"
    let hypothesis := "1 Run run VB _ _ _ ROOT _ _"
    let go : Fragment := [.make 0 "Go" "go" "VB" none "ROOT"]
    let run : Fragment := [.make 0 "Run" "run" "VB" none "ROOT"]
    text.length < wordSize ∧ hypothesis.length < wordSize ∧
      readSentences text = .ok [go, run] ∧ readSentences hypothesis = .ok [run] ∧
      ∃ ft fh, config.fragment text = .ok ft ∧ config.fragment hypothesis = .ok fh ∧
        ∃ m, measure config a ft fh = .ok m := by
  intro a config text hypothesis go run
  have hgo : ¬go.HeadCycle := Fragment.not_headCycle_of_ofFragment rfl
  have hrun : ¬run.HeadCycle := Fragment.not_headCycle_of_ofFragment rfl
  have htext : text.length < wordSize := by decide +kernel
  have hhypothesis : hypothesis.length < wordSize := by decide +kernel
  have ht : readSentences text = .ok [go, run] := by decide +kernel
  have hh : readSentences hypothesis = .ok [run] := by decide +kernel
  have hadmits : ∀ f, config.Admits f := by
    intro f limit hmax
    cases hmax
  obtain ⟨ft, fh, hft, hfh, -, -, -, -, -, hok⟩ :=
    measure_of_readSentences config a text hypothesis _ _ htext hhypothesis ht hh
  obtain ⟨-, -, hok⟩ := hok (hadmits ft) (by simp [hgo, hrun])
  exact ⟨htext, hhypothesis, ht, hh, ft, fh, hft, hfh, hok (hadmits fh) (by simp [hrun])⟩

end Entailment
