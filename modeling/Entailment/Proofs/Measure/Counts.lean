import Entailment.Proofs.Measure.Transformations
import Entailment.Proofs.Measure.Trees

/-! # The distance by kinds of transformation

Where alignments change the cost, a pair is priced by the very judgment that labels it afterwards.
So the labels of the transformations tell what the script costs, and with natural weights that the
tolerance does not blur, they tell the distance.

* **`Weights.ofKind`** — what an edit of a kind costs;
* **`Measurement.count`** — the number of transformations of a kind;
* **`Transformation.count_side`** — the kinds of the edits that have a node on a side;
* **`Transformation.weights_ofScript`** — the transformations of a script cost what its edits cost;
* **`raw_eq_sum_counts`** — the distance from the numbers of transformations. -/

namespace Entailment

/-- What an edit of a kind costs. -/
def Weights.ofKind {α : Type} (w : Weights α) : Kind → α
  | .matched => w.matching
  | .replaced => w.substitution
  | .inserted => w.insertion
  | .deleted => w.deletion

/-- The kind of the edits that have a node on one side alone. -/
def Side.loneKind : Side → Kind
  | .text => .deleted
  | .hypothesis => .inserted

/-- The number of transformations of a kind. -/
def Measurement.count {α : Type} (m : Measurement α) (k : Kind) : Nat :=
  (m.transformations.map Transformation.kind).count k

/-- Edits cost, kind by kind, their number times the weight of the kind. -/
theorem Weights.sum_ofKind (w : Weights Rat) (kinds : List Kind) :
    (kinds.map w.ofKind).sum =
      w.matching * kinds.count .matched + w.substitution * kinds.count .replaced +
        w.insertion * kinds.count .inserted + w.deletion * kinds.count .deleted := by
  induction kinds with
  | nil => simp
  | cons k kinds ih =>
      rw [List.map_cons, List.sum_cons, ih]
      cases k <;> simp [Weights.ofKind] <;> ring

/-! ## Pairs -/

/-- A pair is entailed exactly if that is its judgment. -/
theorem Aligner.entails_iff {a : Aligner} {x y : Token} :
    a.entails x y = true ↔ ∃ info, a.classify x y = some ⟨.entailment, info⟩ := by
  rw [entails]
  cases a.classify x y with
  | none => simp
  | some l =>
      obtain ⟨judgment, info⟩ := l
      simp

/-- Every node of a tree has a token, which gets its root path. -/
theorem Tree.exists_token (t : Tree) {i : Nat} (hi : i < t.size) :
    ∃ x, t.given[i]? = some x ∧ t.token? i = some (x.withPath (t.path i)) := by
  rw [size, t.length_parents] at hi
  have hget := List.getElem?_eq_getElem hi
  exact ⟨t.given[i], hget, by rw [token?, hget]; rfl⟩

namespace Transformation

variable {a : Aligner} {w : Weights Rat} {t h : Tree} {s : EditScript} {x y : Token}

/-- An entailed pair is a match and any other pair a replacement. -/
theorem kind_ofPair : (ofPair a x y).kind = if a.entails x y then .matched else .replaced := by
  rw [ofPair, Aligner.entails]
  cases a.classify x y with
  | none => rfl
  | some l =>
      obtain ⟨judgment, info⟩ := l
      cases judgment <;> rfl

/-- A transformation of two tokens is that of their pair. -/
theorem eq_ofPair_of_mem {z : Transformation} (hz : z ∈ ofScript a t h s) (hx : z.text? = some x)
    (hy : z.hypothesis? = some y) : z = ofPair a x y := by
  obtain ⟨e, -, he⟩ := List.mem_filterMap.1 hz
  cases e with
  | replace i j =>
      obtain ⟨x', -, hz⟩ := Option.bind_eq_some_iff.1 he
      obtain ⟨y', -, rfl⟩ := Option.map_eq_some_iff.1 hz
      rw [text?_ofPair, Option.some.injEq] at hx
      rw [hypothesis?_ofPair, Option.some.injEq] at hy
      rw [hx, hy]
  | insert j =>
      obtain ⟨y', -, rfl⟩ := Option.map_eq_some_iff.1 he
      cases hx
  | delete i =>
      obtain ⟨x', -, rfl⟩ := Option.map_eq_some_iff.1 he
      cases hy

/-- A transformation of two tokens is a match exactly if they are judged an entailment. -/
theorem kind_eq_matched_iff {z : Transformation} (hz : z ∈ ofScript a t h s)
    (hx : z.text? = some x) (hy : z.hypothesis? = some y) :
    z.kind = .matched ↔ ∃ info, a.classify x y = some ⟨.entailment, info⟩ := by
  rw [eq_ofPair_of_mem hz hx hy, kind_ofPair, ← Aligner.entails_iff]
  split_ifs <;> simp [*]

/-! ## Costs -/

/-- Where alignments change the cost, the transformation of an edit costs what the edit costs: a
pair is priced and labelled by one judgment. -/
theorem weight_ofOperation? {e : Operation} (hi : ∀ i, e.textNode? = some i → i < t.size)
    (hj : ∀ j, e.hypothesisNode? = some j → j < h.size) :
    (ofOperation? a t h e).map (fun z => w.ofKind z.kind) =
      some ((priced a .cost w t h).price e) := by
  cases e with
  | replace i j =>
      obtain ⟨x, hx, hx'⟩ := t.exists_token (hi i rfl)
      obtain ⟨y, hy, hy'⟩ := h.exists_token (hj j rfl)
      -- The judgment does not look at the root paths, which only the labelled tokens have.
      have hsame : a.entails (x.withPath (t.path i)) (y.withPath (h.path j)) =
          a.isMatch .cost x y := rfl
      rw [ofOperation?, hx', hy', Option.bind_some, Option.map_some, Option.map_some, kind_ofPair,
        hsame, Option.some.injEq]
      simp only [CostModel.price, priced, hx, hy]
      split_ifs <;> rfl
  | insert j =>
      obtain ⟨y, -, hy'⟩ := h.exists_token (hj j rfl)
      rw [ofOperation?, hy']
      rfl
  | delete i =>
      obtain ⟨x, -, hx'⟩ := t.exists_token (hi i rfl)
      rw [ofOperation?, hx']
      rfl

/-- Where alignments change the cost, the transformations of a script cost what its edits cost. -/
theorem weights_ofScript (hs : s.Valid t h) :
    (ofScript a t h s).map (fun z => w.ofKind z.kind) =
      s.operations.map (priced a .cost w t h).price := by
  rw [ofScript, List.map_filterMap, ← List.filterMap_eq_map]
  exact List.filterMap_congr fun e he =>
    weight_ofOperation? (fun _ => hs.node_lt .text he) (fun _ => hs.node_lt .hypothesis he)

/-! ## Counts -/

/-- Matches, replacements and the edits of a side alone are the edits of nodes of that side. -/
theorem count_side (side : Side) (l : List Transformation) :
    (l.map kind).count .matched + (l.map kind).count .replaced + (l.map kind).count side.loneKind =
      ((l.map operation).filterMap (Operation.node? side)).length := by
  rw [List.filterMap_map]
  induction l with
  | nil => rfl
  | cons z l ih =>
      cases side <;> cases z <;>
        simp [List.filterMap_cons, kind, operation, Operation.node?, Operation.textNode?,
          Operation.hypothesisNode?, Side.loneKind] at ih ⊢ <;> omega

end Transformation

/-! ## The measurement -/

/-- The tree of a side has a node for every token. -/
theorem Config.size_of_tree {α : Type} {config : Config α} {side : Side} {f : Fragment} {t : Tree}
    (h : config.tree side f = .ok t) : t.size = f.length := by
  rw [Tree.size, t.length_parents, (Tree.of_build (ofFragment_of_tree h)).2.1]

/-- In a measurement where alignments change the cost and the weights are natural numbers that the
tolerance does not blur, the distance is the sum of the weights of the transformations. Every text
token is matched, replaced or deleted, every hypothesis token is matched, a replacement or inserted,
and a pair is a match exactly if it is judged an entailment. -/
theorem raw_eq_sum_counts (config : Config Rat) (a : Aligner) (text hypothesis : Fragment)
    (r : Measurement Rat) (m d i s : Nat) (hmode : config.mode = .cost)
    (hweights : config.weights = ⟨m, d, i, s⟩)
    (hblur : Cost.tolerance * (1 + d * text.length + i * hypothesis.length) < 1)
    (hr : measure config a text hypothesis = .ok r) :
    r.raw = m * r.count .matched + s * r.count .replaced + i * r.count .inserted +
        d * r.count .deleted ∧
      r.count .matched + r.count .replaced + r.count .deleted = text.length ∧
      r.count .matched + r.count .replaced + r.count .inserted = hypothesis.length ∧
      ∀ z ∈ r.transformations, ∀ x y, z.text? = some x → z.hypothesis? = some y →
        (z.kind = .matched ↔ ∃ info, a.classify x y = some ⟨.entailment, info⟩) := by
  obtain ⟨t, h, ht, hh, rfl⟩ := measure_eq_ok_iff.1 hr
  let costs := priced a .cost config.weights t h
  let script := (t.compare h costs).script
  have hscript : (measureTrees config a t h).transformations =
      Transformation.ofScript a t h script := by
    rw [measureTrees, hmode]
  have hvalid : script.Valid t h := valid_script t h costs
  have hnodes := Transformation.map_operation_ofScript (a := a) (Config.numbered_of_tree ht)
    (Config.numbered_of_tree hh) hvalid
  have hnatural : costs.All IsNatural t h := by
    refine priced_all ?_ ?_ ?_ ?_ <;> rw [hweights]
    · exact ⟨m, rfl⟩
    · exact ⟨d, rfl⟩
    · exact ⟨i, rfl⟩
    · exact ⟨s, rfl⟩
  have htotal : 1 + costs.total t h = 1 + d * text.length + i * hypothesis.length := by
    rw [total_priced, hweights, Config.size_of_tree ht, Config.size_of_tree hh]
    ring
  have hraw : (measureTrees config a t h).raw =
      ((measureTrees config a t h).transformations.map
        fun z => config.weights.ofKind z.kind).sum := by
    rw [hscript, Transformation.weights_ofScript hvalid,
      sum_script_of_natural hnatural (htotal ▸ hblur), measureTrees, hmode]
  have hsides (side : Side) : (measureTrees config a t h).count .matched +
      (measureTrees config a t h).count .replaced + (measureTrees config a t h).count side.loneKind =
        (side.of (t, h)).size := by
    rw [Measurement.count, Measurement.count, Measurement.count, Transformation.count_side, hscript,
      hnodes, hvalid.nodes, Tree.length_postorder]
  refine ⟨?_, ?_, ?_, ?_⟩
  · have hsum := config.weights.sum_ofKind
      ((measureTrees config a t h).transformations.map Transformation.kind)
    rw [List.map_map] at hsum
    refine hraw.trans (hsum.trans ?_)
    rw [hweights]
    rfl
  · exact (hsides .text).trans (Config.size_of_tree ht)
  · exact (hsides .hypothesis).trans (Config.size_of_tree hh)
  · intro z hz x y hx hy
    exact Transformation.kind_eq_matched_iff (hscript ▸ hz) hx hy

/-- The distance of two short sentences, where every kind of edit has a weight of its own. -/
theorem raw_eq_sum_counts_sentences :
    let a : Aligner := ⟨.empty, .empty⟩
    let config : Config Rat := { (Config.standard : Config Rat) with weights := ⟨1, 2, 3, 4⟩ }
    config.mode = .cost ∧ Cost.tolerance * (1 + 2 * 2 + 3 * 3) < 1 ∧
      ∃ r, measure config a Tree.tigersRun Tree.catsRunFast = .ok r ∧
        r.raw = 1 * r.count .matched + 4 * r.count .replaced + 3 * r.count .inserted +
          2 * r.count .deleted ∧
        r.count .matched + r.count .replaced + r.count .deleted = 2 ∧
        r.count .matched + r.count .replaced + r.count .inserted = 3 ∧
        ∀ z ∈ r.transformations, ∀ x y, z.text? = some x → z.hypothesis? = some y →
          (z.kind = .matched ↔ ∃ info, a.classify x y = some ⟨.entailment, info⟩) := by
  intro a config
  obtain ⟨t, ht, -⟩ := Tree.exists_tigersRun
  obtain ⟨h, hh, -⟩ := Tree.exists_catsRunFast
  have hr : measure config a Tree.tigersRun Tree.catsRunFast = .ok (measureTrees config a t h) :=
    measure_eq_ok_iff.2 ⟨t, h, config.tree_of_ofFragment rfl .text ht,
      config.tree_of_ofFragment rfl .hypothesis hh, rfl⟩
  have hblur : Cost.tolerance * (1 + (2 : Nat) * Tree.tigersRun.length +
      (3 : Nat) * Tree.catsRunFast.length) < 1 := by
    norm_num [Cost.tolerance, Tree.tigersRun, Tree.catsRunFast]
  obtain ⟨hraw, htext, hhypothesis, hpairs⟩ :=
    raw_eq_sum_counts config a _ _ _ 1 2 3 4 rfl rfl hblur hr
  exact ⟨rfl, by norm_num [Cost.tolerance], _, hr, by simpa using hraw, htext, hhypothesis, hpairs⟩

end Entailment
