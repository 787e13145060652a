import Entailment.Measure.Distance
import Entailment.Proofs.Edit.Tolerance
import Entailment.Proofs.Outcomes

/-! # What a measurement is made of

A fragment within the limit of nodes is measured as its tree, and reported with its defect if it is
no tree. A measurement compares the trees of two fragments, and the prices of the comparison are
weights.

* **`Config.Admits`** — a fragment is not too large;
* **`Config.tree_of_limit_lt`**, **`Config.tree_of_admits`** — what becomes of a fragment;
* **`Config.tree_eq_ok_iff`** — the tree of a side is the tree of its fragment;
* **`measure_eq_ok_iff`** — a measurement is one of two trees;
* **`priced_all`**, **`total_priced`** — what holds of the weights holds of the prices. -/

namespace Entailment

/-! ## One side of a pair -/

namespace Config

variable {α : Type} {config : Config α} {side : Side} {f : Fragment} {t : Tree}

/-- The limit of nodes, if there is one, is kept. -/
def Admits (config : Config α) (f : Fragment) : Prop :=
  ∀ limit, config.maxNodes = some limit → f.length ≤ limit

/-- A fragment is not admitted if it exceeds a limit. -/
theorem not_admits_iff :
    ¬config.Admits f ↔ ∃ limit, config.maxNodes = some limit ∧ limit < f.length := by
  simp only [Admits, not_forall, Nat.not_le, exists_prop]

/-- A fragment that exceeds the limit is refused. -/
theorem tree_of_limit_lt {limit : Nat} (hmax : config.maxNodes = some limit)
    (hlt : limit < f.length) : config.tree side f = .error (.treeTooLarge side f.length limit) := by
  rw [tree, hmax]
  exact if_pos hlt

/-- Of any other fragment the tree is built. -/
theorem tree_of_admits (h : config.Admits f) :
    config.tree side f = (Tree.ofFragment f).mapError (.malformedTree side) := by
  rw [tree]
  cases hmax : config.maxNodes with
  | none => rfl
  | some limit => exact if_neg (Nat.not_lt.2 (h limit hmax))

/-- A side has a tree exactly if it is not too large and its fragment has one. -/
theorem tree_eq_ok_iff :
    config.tree side f = .ok t ↔ config.Admits f ∧ Tree.ofFragment f = .ok t := by
  by_cases hadmits : config.Admits f
  · rw [tree_of_admits hadmits, mapError_eq_ok_iff, and_iff_right hadmits]
  · obtain ⟨limit, hmax, hlt⟩ := not_admits_iff.1 hadmits
    rw [tree_of_limit_lt hmax hlt]
    simp [hadmits]

/-- The tree of one side is the tree of the fragment. -/
theorem ofFragment_of_tree (h : config.tree side f = .ok t) : Tree.ofFragment f = .ok t :=
  (tree_eq_ok_iff.1 h).2

/-- The tree of a fragment does not depend on the side, and on the limit alone of the
configuration. -/
theorem tree_of_tree {config' : Config α} {side' : Side}
    (hmax : config'.maxNodes = config.maxNodes) (h : config.tree side f = .ok t) :
    config'.tree side' f = .ok t := by
  rw [tree_eq_ok_iff, Admits] at h ⊢
  rwa [hmax]

/-- Without a limit, the tree of the fragment is the tree of the side. -/
theorem tree_of_ofFragment (config : Config α) (hmax : config.maxNodes = none) (side : Side)
    (h : Tree.ofFragment f = .ok t) : config.tree side f = .ok t := by
  have hadmits : config.Admits f := by
    intro limit hlimit
    rw [hmax] at hlimit
    cases hlimit
  rw [tree_of_admits hadmits, h]
  rfl

end Config

/-! ## Measurements and prices -/

variable {a : Aligner} {mode : AlignmentMode} {w : Weights Rat} {t h : Tree}

/-- A measurement is one of the two trees. -/
theorem measure_eq_ok_iff {α : Type} [Cost α] {config : Config α} {text hypothesis : Fragment}
    {m : Measurement α} :
    measure config a text hypothesis = .ok m ↔
      ∃ t h, config.tree .text text = .ok t ∧ config.tree .hypothesis hypothesis = .ok h ∧
        measureTrees config a t h = m := by
  simp only [measure, bind_eq_ok_iff, pure_eq_ok_iff]
  constructor
  · rintro ⟨t, ht, h, hh, hm⟩
    exact ⟨t, h, ht, hh, hm⟩
  · rintro ⟨t, h, ht, hh, hm⟩
    exact ⟨t, ht, h, hh, hm⟩

/-- Without a limit of nodes, two short sentences are measured. -/
theorem exists_measure_sentences {α : Type} [Cost α] (config : Config α)
    (hmax : config.maxNodes = none) (a : Aligner) :
    ∃ m, measure config a Tree.tigersRun Tree.catsRunFast = .ok m := by
  obtain ⟨t, ht, -⟩ := Tree.exists_tigersRun
  obtain ⟨h, hh, -⟩ := Tree.exists_catsRunFast
  exact ⟨_, measure_eq_ok_iff.2 ⟨t, h, config.tree_of_ofFragment hmax .text ht,
    config.tree_of_ofFragment hmax .hypothesis hh, rfl⟩⟩

/-- The prices are weights. -/
theorem priced_all {P : Rat → Prop} (hmatching : P w.matching) (hdeletion : P w.deletion)
    (hinsertion : P w.insertion) (hsubstitution : P w.substitution) :
    (priced a mode w t h).All P t h where
  replace i _ j _ := by
    simp only [priced]
    split
    · split
      · exact hmatching
      · exact hsubstitution
    · exact hsubstitution
  insert _ _ := hinsertion
  delete _ _ := hdeletion

/-- Deleting and inserting everything costs a weight for each node. -/
theorem total_priced : (priced a mode w t h).total t h =
    t.size * w.deletion + h.size * w.insertion := by
  rw [CostModel.total]
  show ∑ _ ∈ Finset.range t.size, w.deletion + ∑ _ ∈ Finset.range h.size, w.insertion = _
  simp

end Entailment
