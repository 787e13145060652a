import Entailment.Proofs.Edit.Script
import Entailment.Proofs.Measure.Trees
import Entailment.Proofs.Tree.Building

/-! # Transformations tell their edits

In the tree of a fragment every token carries the number of its node, so a transformation tells
which nodes its edit is about, and equal transformations come from equal scripts.

* **`Tree.Numbered`** — every token carries the number of its node;
* **`Config.numbered_of_tree`** — the trees that are measured are numbered;
* **`Transformation.operation`** — the edit behind a transformation;
* **`Transformation.ofScript_eq_iff`** — equal transformations come from equal scripts. -/

namespace Entailment

/-- Every node has a token, and the token carries the number of the node. -/
def Tree.Numbered (t : Tree) : Prop := ∀ i < t.size, ∃ x, t.token? i = some x ∧ x.id = i

/-! ## Trees of fragments -/

namespace Tree

variable {t : Tree}

/-- The tree of a fragment is numbered. -/
theorem numbered_of_ofFragment {f : Fragment} (h : ofFragment f = .ok t) : t.Numbered := by
  obtain ⟨htree, hgiven, -⟩ := of_build h
  intro i hi
  rw [size, t.length_parents, hgiven] at hi
  have hid : f[i].id = i := htree.label_eq i _ (by simp [hi])
  exact ⟨f[i].withPath (t.path i), by rw [token?, hgiven, List.getElem?_eq_getElem hi]; rfl, hid⟩

end Tree

/-- The trees that are measured are numbered. -/
theorem Config.numbered_of_tree {α : Type} {config : Config α} {side : Side} {f : Fragment}
    {t : Tree} (h : config.tree side f = .ok t) : t.Numbered :=
  Tree.numbered_of_ofFragment (ofFragment_of_tree h)

/-! ## Back from transformations to edits -/

namespace Transformation

/-- The edit behind a transformation, by the numbers of its tokens. -/
def operation : Transformation → Operation
  | .matched _ t h => .replace t.id h.id
  | .replaced _ _ t h => .replace t.id h.id
  | .inserted h => .insert h.id
  | .deleted t => .delete t.id

variable {a : Aligner} {t h : Tree} {s s' : EditScript}

/-- The transformation of a pair has its text token. -/
@[simp] theorem text?_ofPair (a : Aligner) (x y : Token) : (ofPair a x y).text? = some x := by
  rw [ofPair]
  split <;> rfl

/-- The transformation of a pair has its hypothesis token. -/
@[simp] theorem hypothesis?_ofPair (a : Aligner) (x y : Token) :
    (ofPair a x y).hypothesis? = some y := by
  rw [ofPair]
  split <;> rfl

/-- The edit behind the transformation of a pair replaces one token by the other. -/
theorem operation_ofPair (a : Aligner) (x y : Token) :
    (ofPair a x y).operation = .replace x.id y.id := by
  rw [ofPair]
  split <;> rfl

/-- The transformation of an edit of nodes tells the edit. -/
theorem operation_ofOperation? (ht : t.Numbered) (hh : h.Numbered) {e : Operation}
    (hi : ∀ i, e.textNode? = some i → i < t.size)
    (hj : ∀ j, e.hypothesisNode? = some j → j < h.size) :
    (ofOperation? a t h e).map operation = some e := by
  cases e with
  | replace i j =>
      obtain ⟨x, hx, rfl⟩ := ht i (hi i rfl)
      obtain ⟨y, hy, rfl⟩ := hh j (hj j rfl)
      rw [ofOperation?, hx, hy]
      exact congrArg some (operation_ofPair a x y)
  | insert j =>
      obtain ⟨y, hy, rfl⟩ := hh j (hj j rfl)
      rw [ofOperation?, hy]
      rfl
  | delete i =>
      obtain ⟨x, hx, rfl⟩ := ht i (hi i rfl)
      rw [ofOperation?, hx]
      rfl

/-- The transformations of a script tell its edits. -/
theorem map_operation_ofScript (ht : t.Numbered) (hh : h.Numbered) (hs : s.Valid t h) :
    (ofScript a t h s).map operation = s.operations := by
  rw [ofScript, List.map_filterMap]
  refine (List.filterMap_congr fun e he => ?_).trans List.filterMap_some
  exact operation_ofOperation? ht hh (fun _ => hs.node_lt .text he)
    (fun _ => hs.node_lt .hypothesis he)

/-- Equal transformations come from equal scripts. -/
theorem ofScript_eq_iff (ht : t.Numbered) (hh : h.Numbered) (hs : s.Valid t h)
    (hs' : s'.Valid t h) :
    ofScript a t h s = ofScript a t h s' ↔ s.operations = s'.operations := by
  constructor
  · intro heq
    rw [← map_operation_ofScript (a := a) ht hh hs, heq, map_operation_ofScript ht hh hs']
  · intro heq
    rw [ofScript, ofScript, heq]

end Transformation

end Entailment
