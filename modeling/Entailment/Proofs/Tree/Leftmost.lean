import Entailment.Proofs.Tree.Positions

/-! # Leftmost leaves

A leaf is its own leftmost leaf, and the leftmost leaf below any other node is the one below its
first child.

* **`Forest.Follows`** — below the nodes of a forest stand their children;
* **`Parents.follows_hang`** — as they do in a forest that is hung deep enough;
* **`Tree.leftmost_leaf`**, **`Tree.leftmost_firstChild`** — the leftmost leaf by the children. -/

namespace Entailment

namespace Forest

/-- The roots of a forest from left to right. -/
def roots : Forest → List Nat
  | .nil => []
  | .node root _ right => root :: right.roots

/-- Right below every node of the forest stand its children, all of them and in order. -/
def Follows (ps : Parents) : Forest → Prop
  | .nil => True
  | .node root below right =>
    below.roots = ps.children root ∧ below.Follows ps ∧ right.Follows ps

variable {f below right : Forest} {ps : Parents} {start k root c : Nat} {cs : List Nat} {s : Span}

/-- Where the spans of a forest come from: from below the first root, from that root itself, or from
its right. -/
theorem getElem?_spans_node :
    ((node root below right).spans start)[k]? = some s ↔
      (below.spans start)[k]? = some s ∨ (k = below.size ∧ s = ⟨root, start⟩) ∨
        ∃ j, k = below.size + 1 + j ∧ (right.spans (start + below.size + 1))[j]? = some s := by
  rw [spans]
  rcases Nat.lt_trichotomy k below.size with hk | rfl | hk
  · rw [List.getElem?_append_left (by rwa [length_spans])]
    refine ⟨.inl, ?_⟩
    rintro (h | ⟨rfl, -⟩ | ⟨j, rfl, -⟩)
    · exact h
    · omega
    · omega
  · have hnone : (below.spans start)[below.size]? = none := by simp
    rw [List.getElem?_append_right (by simp), length_spans, Nat.sub_self, hnone]
    simp only [List.getElem?_cons_zero, Option.some.injEq, reduceCtorEq, true_and, false_or]
    refine ⟨fun h => .inl h.symm, ?_⟩
    rintro (rfl | ⟨j, hj, -⟩)
    · rfl
    · omega
  · obtain ⟨j, rfl⟩ : ∃ j, k = below.size + 1 + j := ⟨k - below.size - 1, by omega⟩
    have hnone : (below.spans start)[below.size + 1 + j]? = none := by simp; omega
    rw [List.getElem?_append_right (by simp; omega), length_spans, hnone,
      show below.size + 1 + j - below.size = j + 1 by omega, List.getElem?_cons_succ]
    refine ⟨fun h => .inr (.inr ⟨j, rfl, h⟩), ?_⟩
    rintro (h | ⟨h, -⟩ | ⟨i, hi, h⟩)
    · cases h
    · omega
    · obtain rfl : i = j := by omega
      exact h

/-- A node without children is its own leftmost leaf. -/
theorem Follows.span_leaf (hf : f.Follows ps) (hs : (f.spans start)[k]? = some s)
    (h : ps.children s.node = []) : s.leftmost = start + k := by
  induction f generalizing start k with
  | nil => cases hs
  | node root below right ihb ihr =>
      obtain ⟨hroots, hbelow, hright⟩ := hf
      rcases getElem?_spans_node.1 hs with hin | ⟨rfl, rfl⟩ | ⟨j, rfl, hin⟩
      · exact ihb hbelow hin
      · rw [show ps.children root = [] from h] at hroots
        cases below with
        | nil => rfl
        | node => cases hroots
      · rw [ihr hright hin]
        omega

/-- The leftmost leaf below a node with children is the one below the first of them. -/
theorem Follows.span_firstChild (hf : f.Follows ps) (hs : (f.spans start)[k]? = some s)
    (h : ps.children s.node = c :: cs) :
    ∃ j < k, (f.spans start)[j]? = some ⟨c, s.leftmost⟩ := by
  induction f generalizing start k with
  | nil => cases hs
  | node root below right ihb ihr =>
      obtain ⟨hroots, hbelow, hright⟩ := hf
      rcases getElem?_spans_node.1 hs with hin | ⟨rfl, rfl⟩ | ⟨j, rfl, hin⟩
      · obtain ⟨j, hj, hj'⟩ := ihb hbelow hin
        exact ⟨j, hj, getElem?_spans_node.2 (.inl hj')⟩
      · rw [show ps.children root = c :: cs from h] at hroots
        cases below with
        | nil => cases hroots
        | node first below' right' =>
            cases hroots
            exact ⟨below'.size, by simp only [size]; omega, getElem?_spans_node.2
              (.inl (getElem?_spans_node.2 (.inr (.inl ⟨rfl, rfl⟩))))⟩
      · obtain ⟨i, hi, hi'⟩ := ihr hright hin
        exact ⟨below.size + 1 + i, by omega, getElem?_spans_node.2 (.inr (.inr ⟨i, rfl, hi'⟩))⟩

end Forest

namespace Parents

variable {ps : Parents} {d : Nat} {nodes : List Nat}

/-- The roots of a hung forest are the nodes that it was hung below. -/
theorem roots_hang_succ (nodes : List Nat) : (ps.hang (d + 1) nodes).roots = nodes := by
  induction nodes with
  | nil => rfl
  | cons n nodes ih => rw [hang_succ_cons, Forest.roots, ih]

/-- A forest that is hung as deep as anything stands below its roots is complete. -/
theorem follows_hang (h : ∀ n ∈ nodes, ∀ k b, ps.up k b = some n → k < d) :
    (ps.hang d nodes).Follows ps := by
  induction d generalizing nodes with
  | zero => trivial
  | succ d ihd =>
      induction nodes with
      | nil => trivial
      | cons n nodes ihn =>
          have below : ∀ c ∈ ps.children n, ∀ k b, ps.up k b = some c → k < d := by
            intro c hc k b hb
            have := h n (by simp) (k + 1) b (up_succ_eq_some_iff.2 ⟨c, hb, mem_children.1 hc⟩)
            omega
          refine ⟨?_, ihd below, ihn fun m hm => h m (by simp [hm])⟩
          cases d with
          | zero =>
              -- Nothing is deep enough to stand below a root.
              cases hc : ps.children n with
              | nil => rfl
              | cons c cs => exact absurd (below c (by simp [hc]) 0 c rfl) (by omega)
          | succ d => exact roots_hang_succ _

end Parents

namespace Tree

variable {t : Tree} {p c : Nat} {cs : List Nat}

/-- The forest of a tree has under every node the children of that node. -/
theorem follows_forest (t : Tree) : t.forest.Follows t.parents := by
  refine Parents.follows_hang fun r hr k b hb => ?_
  have hroot := Parents.mem_roots.1 hr
  cases k with
  | zero => exact Nat.lt_of_le_of_lt (Nat.zero_le _) hroot.1
  | succ k =>
      -- The steps up to a root are the depth of a node, and no node is deeper than there are nodes.
      obtain ⟨d, hd, hdb⟩ := t.exists_atDepth (Parents.lt_length_of_up hb (by omega))
      have := hdb.unique ((Parents.atDepth_zero.2 hroot.2).of_up hb)
      omega

/-- A leaf is its own leftmost leaf. -/
theorem leftmost_leaf (hp : p < t.size) (h : t.children (t.positions.node p) = []) :
    t.positions.leftmost p = p := by
  obtain ⟨s, hs, hn, hl⟩ := exists_span hp
  rw [hn] at h
  rw [hl, t.follows_forest.span_leaf hs h]
  exact Nat.zero_add p

/-- The first child of a node stands before it and has the same leftmost leaf. -/
theorem leftmost_firstChild (hp : p < t.size) (h : t.children (t.positions.node p) = c :: cs) :
    ∃ q < p, t.positions.node q = c ∧ t.positions.leftmost q = t.positions.leftmost p := by
  obtain ⟨s, hs, hn, hl⟩ := exists_span hp
  rw [hn] at h
  obtain ⟨q, hq, hspan⟩ := t.follows_forest.span_firstChild hs h
  obtain ⟨u, hu, hun, hul⟩ := exists_span (t := t) (p := q) (by omega)
  rw [hspan] at hu
  cases hu
  exact ⟨q, hq, hun, hul.trans hl.symm⟩

end Tree

end Entailment
