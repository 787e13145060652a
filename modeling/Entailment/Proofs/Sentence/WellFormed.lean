import Entailment.Proofs.Sentence.Reading
import Entailment.Proofs.Tree.Building

/-! # Well-formed fragments

What is read from a file is a tree but for cycles: its tokens carry their positions, and their heads
are positions too.

* **`Fragment.heads`** — the heads of the tokens as an array of parents;
* **`Fragment.WellFormed`** — tokens carry their positions and heads are positions;
* **`Fragment.HeadCycle`** — some token comes back to itself from head to head;
* **`Fragment.WellFormed.ofFragment_cases`** — a well-formed fragment is a tree unless it has a
  cycle;
* **`IsSentence.wellFormed`** — the sentences of a file are well-formed. -/

namespace Entailment

namespace Fragment

variable {f : Fragment} {t : Token} {k head : Nat}

/-- The heads of the tokens. -/
def heads (f : Fragment) : Parents := f.map Token.head

/-- The tokens carry their positions, and their heads are positions. -/
structure WellFormed (f : Fragment) : Prop where
  /-- A token carries its position. -/
  id_eq : ∀ (k : Nat) (t : Token), f[k]? = some t → t.id = k
  /-- A head is a position. -/
  head_lt : ∀ t ∈ f, ∀ head, t.head = some head → head < f.length

/-- Some token comes back to itself from head to head. -/
def HeadCycle (f : Fragment) : Prop := ∃ position, f.heads.OnCycle position

/-- Every token has an entry for its head. -/
@[simp] theorem length_heads : f.heads.length = f.length := List.length_map _

/-- The governor of a position is the head of the token that stands there. -/
theorem governor_heads_eq_some_iff :
    f.heads.governor k = some head ↔ ∃ t, f[k]? = some t ∧ t.head = some head := by
  simp [heads, Parents.governor, Option.join_eq_some_iff]

/-- The governor of a position is the head of the token there, if it has one. -/
theorem governor_heads_of_getElem? (h : f[k]? = some t) : f.heads.governor k = t.head := by
  simp [heads, Parents.governor, h]

/-- The heads of a well-formed fragment are positions. -/
theorem WellFormed.inRange (hf : f.WellFormed) : f.heads.InRange := by
  intro k head h
  obtain ⟨t, ht, hhead⟩ := governor_heads_eq_some_iff.1 h
  rw [length_heads]
  exact hf.head_lt t (List.mem_of_getElem? ht) head hhead

/-- Heads are positions if, as parents, they are nodes. -/
theorem WellFormed.of_inRange (hid : ∀ (k : Nat) (t : Token), f[k]? = some t → t.id = k)
    (hr : f.heads.InRange) : f.WellFormed where
  id_eq := hid
  head_lt t ht head hhead := by
    obtain ⟨k, hk⟩ := List.mem_iff_getElem?.1 ht
    rw [← length_heads]
    exact hr k head (governor_heads_eq_some_iff.2 ⟨t, hk, hhead⟩)

/-- A well-formed fragment is a tree, or it has a cycle and is refused for a position on one. -/
theorem WellFormed.ofFragment_cases (hf : f.WellFormed) :
    (¬f.HeadCycle ∧ ∃ t, Tree.ofFragment f = .ok t) ∨
      f.HeadCycle ∧ ∃ k, f.heads.OnCycle k ∧ Tree.ofFragment f = .error (.cycle k) := by
  have hid : ∀ i label : Nat, (f.map Token.id)[i]? = some label → label = i := by
    intro i label h
    obtain ⟨t, ht, rfl⟩ := Option.map_eq_some_iff.1 (List.getElem?_map .. ▸ h)
    exact hf.id_eq i t ht
  rcases Tree.build_cases f.heads (f.map Token.id) f with ⟨htree, t, ht, -⟩ | ⟨e, he, hrefused⟩
  · exact .inl ⟨not_exists.2 htree.not_onCycle, t, ht⟩
  · have hcycle : ∃ k, f.heads.OnCycle k ∧ e = .cycle k := by
      -- Of the four kinds of defect only the last can be there.
      cases hrefused with
      | length hlen => exact absurd ⟨by simp, by simp⟩ hlen
      | label node label hlabel hne => exact absurd (hid node label hlabel) hne
      | head node e he =>
          rcases Tree.of_headDefect he with ⟨head, hg, hrange, -⟩ | ⟨hg, rfl⟩
          · exact absurd (hf.inRange node head hg) (Nat.not_lt.2 hrange)
          · exact ⟨node, .of_governor_self hg, rfl⟩
      | cycle node hnode => exact ⟨node, hnode, rfl⟩
    obtain ⟨k, hk, rfl⟩ := hcycle
    exact .inr ⟨⟨k, hk⟩, k, hk, he⟩

/-- Without a cycle it is a tree. -/
theorem WellFormed.exists_tree (hf : f.WellFormed) (hcycle : ¬f.HeadCycle) :
    ∃ t, Tree.ofFragment f = .ok t := by
  rcases hf.ofFragment_cases with ⟨-, htree⟩ | ⟨hhas, -⟩
  · exact htree
  · exact absurd hhas hcycle

/-- A tree has no cycle of heads. -/
theorem not_headCycle_of_ofFragment {t : Tree} (h : Tree.ofFragment f = .ok t) : ¬f.HeadCycle :=
  not_exists.2 (Tree.of_build h).1.not_onCycle

/-! ## The tree of a fragment -/

section

variable {tree : Tree} (h : Tree.ofFragment f = .ok tree)

include h

/-- A fragment that is a tree is well-formed. -/
theorem wellFormed_of_ofFragment : f.WellFormed := by
  obtain ⟨htree, -, -⟩ := Tree.of_build h
  refine .of_inRange (fun k t ht => htree.label_eq k t.id ?_) htree.inRange
  rw [List.getElem?_map, ht]
  rfl

/-- The tree of a fragment has its heads as parents. -/
theorem parents_of_ofFragment : tree.parents = f.heads := (Tree.of_build h).2.2

/-- The tree of a fragment has a node for each token. -/
theorem size_of_ofFragment : tree.size = f.length := by
  rw [Tree.size, parents_of_ofFragment h, length_heads]

/-- The parent of a node is the head of its token. -/
theorem parent_of_ofFragment (hk : f[k]? = some t) : tree.parent k = t.head := by
  rw [Tree.parent, parents_of_ofFragment h, governor_heads_of_getElem? hk]

/-- The relation of a node is that of its token. -/
theorem relation_of_ofFragment (hk : f[k]? = some t) : tree.relation k = t.relation := by
  rw [Tree.relation, (Tree.of_build h).2.1, hk]
  rfl

end

end Fragment

/-! ## What is read -/

variable {len position head : Nat} {cs line : List Char} {t : Token} {run : List (List Char)}
  {f : Fragment} {fs : List Fragment} {text : String}

/-- The governor in a field is a position of the sentence. -/
theorem IsHead.lt (h : IsHead len cs (some head)) : head < len := by
  cases h with
  | number _ hlen => exact hlen

/-- The token on a line carries its position. -/
theorem IsRow.id_eq (h : IsRow len position line t) : t.id = position := by
  cases h
  rfl

/-- The head of the token on a line is a position of the sentence. -/
theorem IsRow.head_lt (h : IsRow len position line t) (hhead : t.head = some head) :
    head < len := by
  cases h with
  | intro _ _ hgovernor =>
      obtain rfl := hhead
      exact hgovernor.lt

/-- A sentence has a token for each line. -/
theorem IsSentence.length_eq (h : IsSentence run f) : f.length = run.length := by
  simpa using (List.Forall₂.length_eq h).symm

/-- Each token of a sentence is the token on a line. -/
theorem IsSentence.exists_isRow (h : IsSentence run f) {k : Nat} (hk : f[k]? = some t) :
    ∃ line, IsRow f.length k line t := by
  obtain ⟨hlen, hget⟩ := List.forall₂_iff_get.1 h
  obtain ⟨hkf, rfl⟩ := List.getElem?_eq_some_iff.1 hk
  have hkr : k < run.zipIdx.length := by omega
  have := hget k hkr hkf
  rw [h.length_eq]
  exact ⟨_, by simpa using this⟩

/-- A sentence is well-formed. -/
theorem IsSentence.wellFormed (h : IsSentence run f) : f.WellFormed where
  id_eq k t ht := by
    obtain ⟨line, hrow⟩ := h.exists_isRow ht
    exact hrow.id_eq
  head_lt t ht head hhead := by
    obtain ⟨k, hk⟩ := List.mem_iff_getElem?.1 ht
    obtain ⟨line, hrow⟩ := h.exists_isRow hk
    exact hrow.head_lt hhead

/-- The sentences of a file are well-formed. -/
theorem wellFormed_of_readSentences (h : readSentences text = .ok fs) : ∀ f ∈ fs, f.WellFormed := by
  intro f hf
  have hread := List.Forall₂.flip (R := flip IsSentence) (readSentences_eq_ok_iff.1 h)
  obtain ⟨run, hrun⟩ := exists_forall₂_iff.1 ⟨_, hread⟩ f hf
  exact IsSentence.wellFormed hrun

/-- The sentences of a file have no more tokens than the file has characters. -/
theorem length_flatten_le_of_readSentences (h : readSentences text = .ok fs) :
    fs.flatten.length ≤ text.length := by
  have hlen : List.Forall₂ Eq ((plainRuns text).map List.length) (fs.map List.length) := by
    rw [List.forall₂_map_left_iff, List.forall₂_map_right_iff]
    exact (readSentences_eq_ok_iff.1 h).imp fun _ _ hrun => hrun.length_eq.symm
  rw [List.forall₂_eq_eq_eq] at hlen
  rw [List.length_flatten, ← hlen, ← List.length_flatten]
  exact length_flatten_plainRuns_le text

end Entailment
