import Entailment.Proofs.Tree.Search

/-! # When arrays are a tree

Three arrays are a tree if they agree in length, the labels are the positions, every head is a node
and no walk from child to parent comes back. Otherwise the first defect is reported, in this order;
a node that is reported for a cycle is on one.

* **`Parents.Faulty`** — the head of a node is wrong by itself;
* **`Tree.exists_build`**, **`Tree.build_of_headDefect`**, **`Tree.build_of_cycleNode`** — what is
  built from arrays, check by check;
* **`build_accepts_trees`** — which arrays are accepted, and what the reported defects say. -/

namespace Entailment

/-- The head of the node is wrong by itself: it is no node, or it is the node. -/
def Parents.Faulty (ps : Parents) (node : Nat) : Prop :=
  ∃ head, ps.governor node = some head ∧ (ps.length ≤ head ∨ head = node)

namespace Tree

variable {ps : Parents} {labels : List Nat} {tokens : List Token} {e : TreeError} {t : Tree}
  {node head : Nat}

/-! ## The checks -/

/-- No label has a defect exactly if each is its position. -/
theorem labelDefect_eq_none_iff :
    labelDefect labels = none ↔ ∀ i label : Nat, labels[i]? = some label → label = i := by
  rw [labelDefect, Option.map_eq_none_iff, List.find?_eq_none]
  simp only [Prod.forall, List.mk_mem_zipIdx_iff_getElem?, ne_eq, decide_not, Bool.not_eq_true',
    decide_eq_false_iff_not, not_not]
  exact forall_comm

/-- A defect of a label is a label that is not its position. -/
theorem of_labelDefect (h : labelDefect labels = some e) :
    ∃ node label : Nat, labels[node]? = some label ∧ label ≠ node ∧
      e = .labelMismatch node label := by
  obtain ⟨p, hp, rfl⟩ := Option.map_eq_some_iff.1 h
  exact ⟨p.2, p.1, List.mk_mem_zipIdx_iff_getElem?.1 (List.mem_of_find?_eq_some hp),
    by simpa using List.find?_some hp, rfl⟩

/-- A root has no defect of its head. -/
theorem headDefect_of_root (hg : ps.governor node = none) : headDefect ps node = none := by
  rw [headDefect, hg]

/-- A head is defective if it is out of range, or else if it is the node itself. -/
theorem headDefect_of_governor (hg : ps.governor node = some head) :
    headDefect ps node =
      if ps.length ≤ head then some (.danglingHead node head ps.length)
      else if head = node then some (.cycle node)
      else none := by
  rw [headDefect, hg]

/-- A head has no defect exactly if it is not wrong by itself. -/
theorem headDefect_eq_none_iff : headDefect ps node = none ↔ ¬ps.Faulty node := by
  cases hg : ps.governor node with
  | none => simp [headDefect_of_root hg, Parents.Faulty, hg]
  | some head =>
      rw [headDefect_of_governor hg]
      split_ifs <;> simp [Parents.Faulty, *]

/-- A defect of a head is a head that is no node, or a node that is its own head. -/
theorem of_headDefect (h : headDefect ps node = some e) :
    (∃ head, ps.governor node = some head ∧ ps.length ≤ head ∧
      e = .danglingHead node head ps.length) ∨
    ps.governor node = some node ∧ e = .cycle node := by
  cases hg : ps.governor node with
  | none => simp [headDefect_of_root hg] at h
  | some head =>
      rw [headDefect_of_governor hg] at h
      split_ifs at h with hrange hself
      · exact .inl ⟨head, rfl, hrange, (Option.some.inj h).symm⟩
      · exact .inr ⟨congrArg some hself, (Option.some.inj h).symm⟩

/-- The first defect of a head is the defect of the first node whose head has one. -/
theorem findSome?_range_eq_some_iff {β : Type} {f : Nat → Option β} {n : Nat} {b : β} :
    (List.range n).findSome? f = some b ↔ ∃ i < n, f i = some b ∧ ∀ j < i, f j = none := by
  induction n with
  | zero => simp
  | succ n ih =>
      rw [List.range_succ, List.findSome?_append, Option.or_eq_some_iff, ih,
        List.findSome?_eq_none_iff]
      constructor
      · rintro (⟨i, hi, h⟩ | ⟨hnone, hlast⟩)
        · exact ⟨i, by omega, h⟩
        · refine ⟨n, by omega, ?_, fun j hj => hnone j (List.mem_range.2 hj)⟩
          simpa using hlast
      · rintro ⟨i, hi, hf, hnone⟩
        by_cases hin : i < n
        · exact .inl ⟨i, hin, hf, hnone⟩
        · obtain rfl : i = n := by omega
          exact .inr ⟨fun j hj => hnone j (List.mem_range.1 hj), by simp [hf]⟩

/-- The search through all heads finds no defect exactly if no head is wrong by itself. -/
theorem headDefects_eq_none_iff :
    (List.range ps.length).findSome? (headDefect ps) = none ↔ ∀ node, ¬ps.Faulty node := by
  simp only [List.findSome?_eq_none_iff, List.mem_range, headDefect_eq_none_iff]
  refine ⟨fun h node hfault => ?_, fun h node _ => h node⟩
  obtain ⟨head, hg, -⟩ := id hfault
  exact h node (Parents.lt_length_of_governor hg) hfault

/-- No head is wrong by itself exactly if all heads are other nodes. -/
theorem forall_not_faulty_iff :
    (∀ node, ¬ps.Faulty node) ↔ ps.InRange ∧ ∀ node, ps.governor node ≠ some node := by
  simp only [Parents.Faulty, Parents.InRange, not_exists, not_and, not_or, Nat.not_le]
  constructor
  · intro h
    exact ⟨fun node head hg => (h node head hg).1, fun node hg => (h node node hg).2 rfl⟩
  · rintro ⟨hr, hself⟩ node head hg
    exact ⟨hr node head hg, fun heq => hself node (heq ▸ hg)⟩

/-- Every walk reaches a root exactly if no node is on a cycle. -/
theorem rootless_eq_none_iff (hr : ps.InRange) :
    rootless ps = none ↔ ∀ node, ¬ps.OnCycle node := by
  rw [rootless, List.find?_eq_none, ← Parents.forall_isSome_climb_iff hr]
  simp only [List.mem_range, Option.isNone_iff_eq_none, Option.isSome_iff_ne_none, ne_eq]

/-! ## What is built -/

/-- Arrays of different lengths are refused. -/
theorem build_of_length (h : ¬(ps.length = labels.length ∧ ps.length = tokens.length)) :
    build ps labels tokens = .error (.lengthMismatch ps.length labels.length tokens.length) := by
  rw [build, dif_neg h]

section

variable (hlen : ps.length = labels.length ∧ ps.length = tokens.length)

include hlen

/-- Labels with a defect are refused with that defect. -/
theorem build_of_labelDefect (h : labelDefect labels = some e) :
    build ps labels tokens = .error e := by
  rw [build, dif_pos hlen, h]

variable (hlabel : labelDefect labels = none)

include hlabel

/-- After good labels, heads with a defect are refused with the first. -/
theorem build_of_headDefect (h : (List.range ps.length).findSome? (headDefect ps) = some e) :
    build ps labels tokens = .error e := by
  simp only [build, dif_pos hlen, hlabel]
  split
  next e' he =>
    rw [h, Option.some.injEq] at he
    rw [he]
  next hnone =>
    rw [h] at hnone
    cases hnone

variable (hhead : (List.range ps.length).findSome? (headDefect ps) = none)

include hhead

/-- After good labels and good heads, the cycle that the search finds is reported. -/
theorem build_of_cycleNode (h : ps.cycleNode? = some node) :
    build ps labels tokens = .error (.cycle node) := by
  simp only [build, dif_pos hlen, hlabel]
  split
  next e he =>
    rw [hhead] at he
    cases he
  next => rw [h]

/-- Where no cycle is reported, every walk reaches a root, so there is a tree. -/
theorem exists_build (h : ps.cycleNode? = none) :
    ∃ t, build ps labels tokens = .ok t ∧ t.given = tokens ∧ t.parents = ps := by
  obtain ⟨hr, hself⟩ := forall_not_faulty_iff.1 (headDefects_eq_none_iff.1 hhead)
  have hroot := (rootless_eq_none_iff hr).2 ((Parents.cycleNode?_spec hr hself).2 h)
  refine ⟨⟨tokens, ps, hlen.2, governor_lt_of_headDefect hhead, climb_isSome_of_rootless hroot⟩, ?_,
    rfl, rfl⟩
  simp only [build, dif_pos hlen, hlabel]
  split
  next e he =>
    rw [hhead] at he
    cases he
  next =>
    simp only [h]
    split
    next node hnode => cases hroot.symm.trans hnode
    next => rfl

end

/-- The arrays of a tree. -/
structure IsTree (ps : Parents) (labels : List Nat) (tokens : List Token) : Prop where
  /-- The arrays have one length. -/
  length_eq : ps.length = labels.length ∧ ps.length = tokens.length
  /-- Every label is its position. -/
  label_eq : ∀ i label : Nat, labels[i]? = some label → label = i
  /-- Every head is a node. -/
  inRange : ps.InRange
  /-- No walk from child to parent comes back. -/
  not_onCycle : ∀ node, ¬ps.OnCycle node

/-- A defect of arrays, where those of the kinds before it are absent. -/
inductive Refused (ps : Parents) (labels : List Nat) (tokens : List Token) : TreeError → Prop
  /-- The lengths differ. -/
  | length (hlen : ¬(ps.length = labels.length ∧ ps.length = tokens.length)) :
      Refused ps labels tokens (.lengthMismatch ps.length labels.length tokens.length)
  /-- A label is not its position. -/
  | label (node label : Nat) (hlabel : labels[node]? = some label) (hne : label ≠ node) :
      Refused ps labels tokens (.labelMismatch node label)
  /-- A head is wrong by itself, and no head before it is. -/
  | head (node : Nat) (e : TreeError) (he : headDefect ps node = some e)
      (hfirst : ∀ i < node, ¬ps.Faulty i) : Refused ps labels tokens e
  /-- The parents lead from a node back to it. -/
  | cycle (node : Nat) (hnode : ps.OnCycle node) (hother : ∀ i, ¬ps.Faulty i) :
      Refused ps labels tokens (.cycle node)

/-- The arrays of a tree are accepted as they are, and others are refused for a defect they have. -/
theorem build_cases (ps : Parents) (labels : List Nat) (tokens : List Token) :
    (IsTree ps labels tokens ∧
      ∃ t, build ps labels tokens = .ok t ∧ t.given = tokens ∧ t.parents = ps) ∨
    ∃ e, build ps labels tokens = .error e ∧ Refused ps labels tokens e := by
  by_cases hlen : ps.length = labels.length ∧ ps.length = tokens.length
  case neg => exact .inr ⟨_, build_of_length hlen, .length hlen⟩
  cases hlabel : labelDefect labels with
  | some e =>
      obtain ⟨node, label, hget, hne, rfl⟩ := of_labelDefect hlabel
      exact .inr ⟨_, build_of_labelDefect hlen hlabel, .label node label hget hne⟩
  | none =>
      cases hhead : (List.range ps.length).findSome? (headDefect ps) with
      | some e =>
          obtain ⟨node, -, he, hfirst⟩ := findSome?_range_eq_some_iff.1 hhead
          exact .inr ⟨e, build_of_headDefect hlen hlabel hhead,
            .head node e he fun i hi => headDefect_eq_none_iff.1 (hfirst i hi)⟩
      | none =>
          have hother := headDefects_eq_none_iff.1 hhead
          obtain ⟨hr, hself⟩ := forall_not_faulty_iff.1 hother
          obtain ⟨hcycle, hnone⟩ := Parents.cycleNode?_spec hr hself
          cases hnode : ps.cycleNode? with
          | some node =>
              exact .inr ⟨_, build_of_cycleNode hlen hlabel hhead hnode,
                .cycle node (hcycle node hnode) hother⟩
          | none =>
              exact .inl ⟨⟨hlen, labelDefect_eq_none_iff.1 hlabel, hr, hnone hnode⟩,
                exists_build hlen hlabel hhead hnode⟩

/-- The arrays of a tree have no defect. -/
theorem IsTree.not_refused (h : IsTree ps labels tokens) : ¬Refused ps labels tokens e := by
  intro hrefused
  cases hrefused with
  | length hlen => exact hlen h.length_eq
  | label node label hlabel hne => exact hne (h.label_eq node label hlabel)
  | head node e he hfirst =>
      rcases of_headDefect he with ⟨head, hg, hrange, -⟩ | ⟨hg, -⟩
      · exact Nat.not_le.2 (h.inRange node head hg) hrange
      · exact h.not_onCycle node (.of_governor_self hg)
  | cycle node hnode => exact h.not_onCycle node hnode

/-- A tree that was built has the given tokens and parents, and these are the arrays of a tree. -/
theorem of_build (h : build ps labels tokens = .ok t) :
    IsTree ps labels tokens ∧ t.given = tokens ∧ t.parents = ps := by
  rcases build_cases ps labels tokens with ⟨htree, t', ht', hgiven⟩ | ⟨e, he, -⟩
  · obtain rfl := Except.ok.inj (ht'.symm.trans h)
    exact ⟨htree, hgiven⟩
  · cases he.symm.trans h

/-- A refusal is a defect of the arrays. -/
theorem refused_of_build (h : build ps labels tokens = .error e) : Refused ps labels tokens e := by
  rcases build_cases ps labels tokens with ⟨-, t, ht, -⟩ | ⟨e', he', hrefused⟩
  · cases ht.symm.trans h
  · obtain rfl := Except.error.inj (he'.symm.trans h)
    exact hrefused

/-- The first head that is wrong by itself is reported. -/
theorem build_of_first_faulty (hlen : ps.length = labels.length ∧ ps.length = tokens.length)
    (hlabel : ∀ i label : Nat, labels[i]? = some label → label = i)
    (hg : ps.governor node = some head) (hfault : ps.length ≤ head ∨ head = node)
    (hfirst : ∀ i < node, ¬ps.Faulty i) :
    build ps labels tokens =
      .error (if ps.length ≤ head then .danglingHead node head ps.length else .cycle node) := by
  refine build_of_headDefect hlen (labelDefect_eq_none_iff.2 hlabel)
    (findSome?_range_eq_some_iff.2 ⟨node, Parents.lt_length_of_governor hg, ?_,
      fun i hi => headDefect_eq_none_iff.2 (hfirst i hi)⟩)
  rw [headDefect_of_governor hg]
  split_ifs with hrange hself
  · rfl
  · rfl
  · exact absurd hfault (not_or.2 ⟨hrange, hself⟩)

end Tree

/-- Arrays are accepted exactly if their lengths agree, the labels are the positions, every head is
a node, and no node comes back to itself from child to parent. A node that is reported for a cycle
does come back to itself. Where lengths and labels are right, the first node whose head is no node
or is the node itself is the one that is reported, and a head is reported to be no node only for the
first such node. -/
theorem build_accepts_trees (ps : Parents) (labels : List Nat) (tokens : List Token) :
    ((∃ t, Tree.build ps labels tokens = .ok t) ↔
      (ps.length = labels.length ∧ ps.length = tokens.length) ∧
        (∀ i label : Nat, labels[i]? = some label → label = i) ∧
        (∀ node head, ps.governor node = some head → head < ps.length) ∧
        ∀ node, ¬ps.OnCycle node) ∧
    (∀ node, Tree.build ps labels tokens = .error (.cycle node) → ps.OnCycle node) ∧
    (ps.length = labels.length ∧ ps.length = tokens.length →
      (∀ i label : Nat, labels[i]? = some label → label = i) →
      ∀ node head, ps.governor node = some head → ps.length ≤ head ∨ head = node →
        (∀ i < node, ¬ps.Faulty i) →
        Tree.build ps labels tokens =
          .error (if ps.length ≤ head then .danglingHead node head ps.length else .cycle node)) ∧
    ∀ node head size, Tree.build ps labels tokens = .error (.danglingHead node head size) →
      ps.governor node = some head ∧ ps.length ≤ head ∧ size = ps.length ∧
        ∀ i < node, ¬ps.Faulty i := by
  refine ⟨⟨?_, ?_⟩, ?_, ?_, ?_⟩
  · rintro ⟨t, ht⟩
    have htree := (Tree.of_build ht).1
    exact ⟨htree.length_eq, htree.label_eq, htree.inRange, htree.not_onCycle⟩
  · rintro ⟨hlen, hlabel, hr, hcycle⟩
    have htree : Tree.IsTree ps labels tokens := ⟨hlen, hlabel, hr, hcycle⟩
    rcases Tree.build_cases ps labels tokens with ⟨-, t, ht, -⟩ | ⟨e, -, hrefused⟩
    · exact ⟨t, ht⟩
    · exact absurd hrefused htree.not_refused
  · intro node h
    cases Tree.refused_of_build h with
    | head i _ he _ =>
        rcases Tree.of_headDefect he with ⟨head, -, -, heq⟩ | ⟨hg, heq⟩
        · cases heq
        · cases heq
          exact .of_governor_self hg
    | cycle _ hnode _ => exact hnode
  · intro hlen hlabel node head hg hfault hfirst
    exact Tree.build_of_first_faulty hlen hlabel hg hfault hfirst
  · intro node head size h
    cases Tree.refused_of_build h with
    | head i _ he hfirst =>
        rcases Tree.of_headDefect he with ⟨head, hg, hrange, heq⟩ | ⟨-, heq⟩
        · cases heq
          exact ⟨hg, hrange, rfl, hfirst⟩
        · cases heq

end Entailment
