import Entailment.Proofs.Edit.Surplus
import Entailment.Proofs.Measure.Counts
import Entailment.Proofs.Measure.Scaling
import Mathlib.Algebra.Order.Field.Basic

/-! # How large a distance can be

With weights that reward no edit, a distance lies between what the surplus of the longer sentence
costs and what deleting all of the text and inserting all of the hypothesis costs. The normalized
distance relates it to the latter, so it lies between zero and one.

* **`Weights.most`** — what deleting all and inserting all costs;
* **`raw_measureTrees_bounds`** — the bounds of the distance;
* **`normalized_dividingBy`** — the normalized distance, where no quotient by zero is taken;
* **`distance_bounded`** — the bounds of a measurement. -/

namespace Entailment

variable {a : Aligner} {w : Weights Rat} {t h : Tree} {raw : Rat} {m n : Nat}

/-- What deleting `m` tokens and inserting `n` tokens costs. -/
def Weights.most (w : Weights Rat) (m n : Nat) : Rat := w.deletion * m + w.insertion * n

/-- Deleting and inserting tokens never costs less than nothing. -/
theorem Weights.Nonneg.most (hw : w.Nonneg) (m n : Nat) : 0 ≤ w.most m n :=
  add_nonneg (mul_nonneg hw.deletion m.cast_nonneg) (mul_nonneg hw.insertion n.cast_nonneg)

/-! ## The distance -/

/-- A distance is at least what the surplus on either side costs, and at most what deleting and
inserting everything costs. -/
theorem raw_measureTrees_bounds {config : Config Rat} (hw : config.weights.Nonneg) (a : Aligner)
    (t h : Tree) :
    config.weights.deletion * (t.size - h.size) ≤ (measureTrees config a t h).raw ∧
      config.weights.insertion * (h.size - t.size) ≤ (measureTrees config a t h).raw ∧
      0 ≤ (measureTrees config a t h).raw ∧
      (measureTrees config a t h).raw ≤ config.weights.most t.size h.size := by
  let costs := priced a config.mode config.weights t h
  have hcosts : costs.All (0 ≤ ·) t h := hw.priced
  have hraw : (measureTrees config a t h).raw =
      (t.compare h costs).forestCost 0 0 t.size h.size := distance_compare t h costs
  have hm : 0 + t.size ≤ t.size := by omega
  have hn : 0 + h.size ≤ h.size := by omega
  rw [hraw]
  refine ⟨?_, ?_, ?_, ?_⟩
  · exact hcosts.deletions_le_forestCost hw.deletion hm hn (t.positions.closed_zero _)
      (h.positions.closed_zero _) fun _ _ => le_rfl
  · exact hcosts.insertions_le_forestCost hw.insertion hm hn (t.positions.closed_zero _)
      (h.positions.closed_zero _) fun _ _ => le_rfl
  · exact hcosts.nonneg 0 0 t.size h.size (by rwa [text_size_compare])
      (by rwa [hypothesis_size_compare])
  · calc (t.compare h costs).forestCost 0 0 t.size h.size
        ≤ costs.total t h :=
          (Comparison.forestCost_le_sums _ 0 0 t.size h.size).trans (hcosts.sums_le_total hm hn)
      _ = config.weights.most t.size h.size := by
          rw [total_priced, Weights.most, mul_comm, mul_comm (h.size : Rat)]

/-! ## The normalized distance -/

/-- Exact costs with another quotient. -/
@[reducible] def Cost.dividingBy (quotient : Rat → Rat → Rat) : Cost Rat :=
  { (inferInstance : Cost Rat) with quotient }

/-- A normalized distance is the quotient by what deleting and inserting everything costs, and zero
if that cost is. No quotient by zero is taken. -/
theorem normalized_dividingBy (quotient : Rat → Rat → Rat) (raw : Rat) (m n : Nat)
    (w : Weights Rat) :
    @normalized Rat (Cost.dividingBy quotient) raw m n w =
      if w.most m n = 0 then 0 else quotient raw (w.most m n) := by
  have hnorm : Cost.add (Cost.times m w.deletion) (Cost.times n w.insertion) = w.most m n := by
    rw [Weights.most, mul_comm, mul_comm w.insertion]
    rfl
  rw [← hnorm]
  exact if_congr decide_eq_true_iff rfl rfl

/-- A normalized distance is a share of what deleting and inserting everything costs, and zero if
that is nothing. -/
theorem normalized_eq (raw : Rat) (m n : Nat) (w : Weights Rat) :
    normalized raw m n w = if w.most m n = 0 then 0 else raw / w.most m n :=
  normalized_dividingBy (· / ·) raw m n w

/-- A distance that is not above what deleting and inserting everything costs is its normalized
distance, between zero and one, times that cost. -/
theorem normalized_bounds (hraw : 0 ≤ raw) (hle : raw ≤ w.most m n) :
    0 ≤ normalized raw m n w ∧ normalized raw m n w ≤ 1 ∧
      normalized raw m n w * w.most m n = raw := by
  rw [normalized_eq]
  split_ifs with hzero
  · refine ⟨le_rfl, zero_le_one, ?_⟩
    linarith
  · have hmost : 0 < w.most m n := lt_of_le_of_ne (hraw.trans hle) (Ne.symm hzero)
    exact ⟨div_nonneg hraw hmost.le, (div_le_one hmost).2 hle, div_mul_cancel₀ raw hzero⟩

/-! ## The measurement -/

/-- In a measurement with weights that reward no edit, the distance is not negative and at most what
deleting all of the text and inserting all of the hypothesis costs, and it is at least what the
surplus of tokens on either side costs. The normalized distance is between zero and one, and times
that largest cost it is the distance. It is zero if the largest cost is, as it is for two empty
sentences and without weights, and no quotient by zero is taken: any quotient that agrees with the
usual one for other divisors gives the same. -/
theorem distance_bounded (config : Config Rat) (a : Aligner) (text hypothesis : Fragment)
    (m : Measurement Rat) (hw : config.weights.Nonneg)
    (hm : measure config a text hypothesis = .ok m) :
    let d := config.weights.deletion
    let i := config.weights.insertion
    let most := d * text.length + i * hypothesis.length
    (0 ≤ m.raw ∧ m.raw ≤ most) ∧
    d * (text.length - hypothesis.length) ≤ m.raw ∧
    i * (hypothesis.length - text.length) ≤ m.raw ∧
    (0 ≤ m.normalized ∧ m.normalized ≤ 1 ∧ m.normalized * most = m.raw) ∧
    (most = 0 → m.normalized = 0) ∧
    (text = [] ∧ hypothesis = [] ∨ d = 0 ∧ i = 0 → m.normalized = 0) ∧
    ∀ quotient : Rat → Rat → Rat, (∀ u v, v ≠ 0 → quotient u v = u / v) →
      @normalized Rat (Cost.dividingBy quotient) m.raw text.length hypothesis.length
        config.weights = m.normalized := by
  obtain ⟨t, h, ht, hh, rfl⟩ := measure_eq_ok_iff.1 hm
  intro d i most
  obtain ⟨hdeletions, hinsertions, hnonneg, hle⟩ := raw_measureTrees_bounds hw a t h
  have hnormalized : (measureTrees config a t h).normalized =
      normalized (measureTrees config a t h).raw t.size h.size config.weights := rfl
  rw [Config.size_of_tree ht, Config.size_of_tree hh] at hdeletions hinsertions hle hnormalized
  have hzero : most = 0 → (measureTrees config a t h).normalized = 0 := by
    intro hmost
    rw [hnormalized, normalized_eq]
    exact if_pos hmost
  refine ⟨⟨hnonneg, hle⟩, hdeletions, hinsertions, ?_, hzero, ?_, ?_⟩
  · rw [hnormalized]
    exact normalized_bounds hnonneg hle
  · rintro (⟨rfl, rfl⟩ | ⟨hd, hi⟩)
    · exact hzero (by simp [most])
    · exact hzero (by simp [most, hd, hi])
  · intro quotient hquotient
    rw [hnormalized, normalized_dividingBy, normalized_eq]
    split_ifs with hmost
    · rfl
    · exact hquotient _ _ hmost

/-- The bounds for two short sentences, where every kind of edit has a weight of its own. -/
theorem distance_bounded_sentences :
    let a : Aligner := ⟨.empty, .empty⟩
    let config : Config Rat := { (Config.standard : Config Rat) with weights := ⟨1, 2, 3, 4⟩ }
    config.weights.Nonneg ∧
      ∃ m, measure config a Tree.tigersRun Tree.catsRunFast = .ok m ∧ 3 ≤ m.raw ∧ m.raw ≤ 13 ∧
        0 ≤ m.normalized ∧ m.normalized ≤ 1 ∧ m.normalized * 13 = m.raw := by
  intro a config
  have hw : config.weights.Nonneg := ⟨by decide, by decide, by decide, by decide⟩
  obtain ⟨m, hm⟩ := exists_measure_sentences config rfl a
  obtain ⟨⟨-, hle⟩, -, hinsertions, ⟨hnonneg, hone, hmost⟩, -⟩ :=
    distance_bounded config a _ _ m hw hm
  have hthirteen : (2 : Rat) * Tree.tigersRun.length + 3 * Tree.catsRunFast.length = 13 := by
    norm_num [Tree.tigersRun, Tree.catsRunFast]
  have hthree : (3 : Rat) * (Tree.catsRunFast.length - Tree.tigersRun.length) = 3 := by
    norm_num [Tree.tigersRun, Tree.catsRunFast]
  exact ⟨hw, m, hm, hthree ▸ hinsertions, hthirteen ▸ hle, hnonneg, hone, hthirteen ▸ hmost⟩

end Entailment
