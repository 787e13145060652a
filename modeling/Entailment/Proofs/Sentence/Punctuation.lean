import Entailment.Proofs.Sentence.WellFormed
import Entailment.Proofs.Tree.RootPath
import Entailment.Token
import Mathlib.Data.List.Sort

/-! # What leaving out punctuation keeps

The tokens that stay are numbered anew in their order, and every governor stays. So heads lead from
one token to another after the renumbering exactly if they did before. A tree loses only leaves, so
every node that stays keeps all that is above it, and with that its root path.

* **`Fragment.keptPositions`** — the old positions of the tokens that stay, in ascending order;
* **`Fragment.newPosition?_eq_some_iff`** — the new position of a token is its place among them;
* **`Fragment.governor_withoutPunctuation_iff`** — the heads after the renumbering;
* **`Fragment.wellFormed_withoutPunctuation`**, **`Fragment.headCycle_withoutPunctuation_iff`** — a
  fragment stays well-formed, and gains and loses no cycle;
* **`Tree.staying`** — the nodes that are no punctuation leaves;
* **`Fragment.keptPositions_eq_staying`** — they are what stays of the fragment;
* **`Fragment.path_withoutPunctuation`** — what stays keeps its root path;
* **`withoutPunctuation_keeps_root_paths`** — what stays of a tree, under which governors and with
  which root paths. -/

namespace Entailment.Fragment

variable {f : Fragment} {t : Token} {i j k p : Nat}

/-- The old positions of the tokens that stay. -/
def keptPositions (f : Fragment) : List Nat := f.kept.map Prod.snd

/-- The tokens that stay are those that are no punctuation leaf. -/
theorem mem_kept_iff : (t, k) ∈ f.kept ↔ f[k]? = some t ∧ f.isPunctuationLeaf t k = false := by
  simp [kept, List.mk_mem_zipIdx_iff_getElem?]

/-- The tokens that stay keep their order. -/
theorem pairwise_keptPositions (f : Fragment) : f.keptPositions.Pairwise (· < ·) := by
  have hsub : f.keptPositions.Sublist (f.zipIdx.map Prod.snd) := List.filter_sublist.map Prod.snd
  rw [List.zipIdx_map_snd] at hsub
  exact List.Pairwise.sublist hsub (List.pairwise_lt_range' 1)

/-- No position is kept twice. -/
theorem nodup_keptPositions (f : Fragment) : f.keptPositions.Nodup :=
  (pairwise_keptPositions f).imp Nat.ne_of_lt

/-- Every token that stays has one position. -/
@[simp] theorem length_keptPositions : f.keptPositions.length = f.kept.length := List.length_map _

/-- The new position of a token is its place among those that stay. -/
theorem newPosition?_eq_some_iff : f.newPosition? k = some i ↔ f.keptPositions[i]? = some k := by
  have hfirst : ∀ (h : i < f.keptPositions.length), f.keptPositions[i] = k →
      ∀ j (hj : j < i), f.keptPositions[j] ≠ k := by
    intro h hk j hj heq
    exact absurd ((nodup_keptPositions f).getElem_inj_iff.1 (heq.trans hk.symm)) hj.ne
  rw [newPosition?, List.idxOf?_eq_some_iff, List.getElem?_eq_some_iff]
  constructor
  · rintro ⟨h, hk, -⟩
    exact ⟨h, hk⟩
  · rintro ⟨h, hk⟩
    exact ⟨h, hk, hfirst h hk⟩

/-- A token that stays has a new position. -/
theorem exists_newPosition?_of_mem_kept (h : (t, k) ∈ f.kept) :
    ∃ i, f.newPosition? k = some i := by
  have hk : k ∈ f.keptPositions := List.mem_map.2 ⟨(t, k), h, rfl⟩
  obtain ⟨i, hi⟩ := List.mem_iff_getElem?.1 hk
  exact ⟨i, newPosition?_eq_some_iff.2 hi⟩

/-- Every new position is that of one token that stays. -/
theorem exists_newPosition?_eq (hi : i < f.kept.length) : ∃ k, f.newPosition? k = some i := by
  rw [← length_keptPositions] at hi
  exact ⟨f.keptPositions[i], newPosition?_eq_some_iff.2 (List.getElem?_eq_getElem hi)⟩

/-- Different tokens get different positions. -/
theorem newPosition?_inj (hk : f.newPosition? k = some i) (hp : f.newPosition? p = some i) :
    k = p := by
  rw [newPosition?_eq_some_iff] at hk hp
  exact Option.some.inj (hk.symm.trans hp)

/-! ## The tokens after the renumbering -/

/-- After the renumbering there are the tokens that stay. -/
@[simp] theorem length_withoutPunctuation : f.withoutPunctuation.length = f.kept.length := by
  simp [withoutPunctuation]

/-- There are no more tokens than before. -/
theorem length_withoutPunctuation_le (f : Fragment) : f.withoutPunctuation.length ≤ f.length := by
  rw [length_withoutPunctuation]
  exact (List.length_filter_le _ _).trans_eq (List.length_zipIdx)

/-- A token after the renumbering is one that stays, at its new position and under the new position
of its governor. -/
theorem getElem?_withoutPunctuation :
    f.withoutPunctuation[i]? =
      f.kept[i]?.map fun q => q.1.moveTo i (q.1.head.bind f.newPosition?) := by
  simp [withoutPunctuation, List.getElem?_zipIdx, Function.comp_def]

/-- The token at a new position is the one that stood at the old position, under the new position of
its governor. -/
theorem exists_getElem?_withoutPunctuation (hi : f.newPosition? k = some i) :
    ∃ x, f[k]? = some x ∧
      f.withoutPunctuation[i]? = some (x.moveTo i (x.head.bind f.newPosition?)) := by
  rw [newPosition?_eq_some_iff, keptPositions, List.getElem?_map, Option.map_eq_some_iff] at hi
  obtain ⟨⟨x, k⟩, hget, rfl⟩ := hi
  exact ⟨x, (mem_kept_iff.1 (List.mem_of_getElem? hget)).1, by
    rw [getElem?_withoutPunctuation, hget]; rfl⟩

/-- A governor is no punctuation leaf. -/
theorem exists_newPosition?_of_governor (hf : f.WellFormed) (h : f.heads.governor k = some p) :
    ∃ i, f.newPosition? p = some i := by
  obtain ⟨t, ht, hhead⟩ := governor_heads_eq_some_iff.1 h
  have hp : p < f.length := hf.head_lt t (List.mem_of_getElem? ht) p hhead
  have hgoverns : f.governs p = true :=
    List.any_eq_true.2 ⟨t, List.mem_of_getElem? ht, by simp [hhead]⟩
  refine exists_newPosition?_of_mem_kept (t := f[p])
    (mem_kept_iff.2 ⟨List.getElem?_eq_getElem hp, ?_⟩)
  simp [isPunctuationLeaf, hgoverns]

/-- Heads after the renumbering are heads before it. -/
theorem governor_withoutPunctuation_iff (hi : f.newPosition? k = some i) :
    f.withoutPunctuation.heads.governor i = some j ↔
      ∃ p, f.heads.governor k = some p ∧ f.newPosition? p = some j := by
  obtain ⟨t, ht, hmoved⟩ := exists_getElem?_withoutPunctuation hi
  rw [governor_heads_of_getElem? hmoved, governor_heads_of_getElem? ht, Token.moveTo_head,
    Option.bind_eq_some_iff]

/-- A fragment stays well-formed. -/
theorem wellFormed_withoutPunctuation (f : Fragment) : f.withoutPunctuation.WellFormed where
  id_eq i t ht := by
    rw [getElem?_withoutPunctuation, Option.map_eq_some_iff] at ht
    obtain ⟨q, -, rfl⟩ := ht
    rfl
  head_lt t ht head hhead := by
    obtain ⟨i, hi⟩ := List.mem_iff_getElem?.1 ht
    rw [getElem?_withoutPunctuation, Option.map_eq_some_iff] at hi
    obtain ⟨q, -, rfl⟩ := hi
    obtain ⟨p, -, hp⟩ := Option.bind_eq_some_iff.1 hhead
    have hlt := (List.getElem?_eq_some_iff.1 (newPosition?_eq_some_iff.1 hp)).1
    rwa [length_keptPositions, ← length_withoutPunctuation] at hlt

/-- Leaving out punctuation neither makes nor breaks a cycle. -/
theorem headCycle_withoutPunctuation_iff (hf : f.WellFormed) :
    f.withoutPunctuation.HeadCycle ↔ f.HeadCycle := by
  constructor
  · rintro ⟨i, hi⟩
    have hlt : i < f.kept.length := by simpa using hi.lt_length
    obtain ⟨k, hk⟩ := exists_newPosition?_eq hlt
    refine ⟨k, .of_related (R := fun i k => f.newPosition? k = some i) ?_
      (fun p hp => newPosition?_inj hp hk) hk hi⟩
    intro i j k hk hij
    obtain ⟨p, hkp, hp⟩ := (governor_withoutPunctuation_iff hk).1 hij
    exact ⟨p, hp, hkp⟩
  · rintro ⟨k, hk⟩
    -- A token on a cycle governs one, so it stays.
    obtain ⟨c, hc⟩ := hk.exists_governor
    obtain ⟨i, hi⟩ := exists_newPosition?_of_governor hf hc
    refine ⟨i, .of_related (R := fun k i => f.newPosition? k = some i) ?_
      (fun j hj => Option.some.inj (hj.symm.trans hi)) hi hk⟩
    intro k p i hi hkp
    obtain ⟨j, hj⟩ := exists_newPosition?_of_governor hf hkp
    exact ⟨j, hj, (governor_withoutPunctuation_iff hi).2 ⟨p, hkp, hj⟩⟩

end Entailment.Fragment

namespace Entailment

/-! ## The tree without punctuation -/

namespace Tree

/-- The node is a punctuation mark that governs nothing. -/
def IsPunctuationLeaf (t : Tree) (node : Nat) : Prop :=
  t.relation node = Fragment.punctuationRelation ∧ t.children node = []

instance (t : Tree) : DecidablePred t.IsPunctuationLeaf := fun _ => instDecidableAnd

/-- The nodes that are no punctuation leaves, in sentence order. -/
def staying (t : Tree) : List Nat :=
  (List.range t.size).filter fun node => ¬t.IsPunctuationLeaf node

/-- The nodes that stay are those that are no punctuation leaf. -/
@[simp] theorem mem_staying {t : Tree} {node : Nat} :
    node ∈ t.staying ↔ node < t.size ∧ ¬t.IsPunctuationLeaf node := by
  simp [staying]

end Tree

namespace Fragment

variable {f : Fragment} {t u : Tree} {x : Token} {i k : Nat}

/-- A position governs something exactly if its node has children. -/
theorem governs_eq_true_iff (h : Tree.ofFragment f = .ok t) :
    f.governs k = true ↔ t.children k ≠ [] := by
  rw [governs, List.any_eq_true, ne_eq, List.eq_nil_iff_forall_not_mem, not_forall_not]
  simp only [Tree.children, Parents.mem_children, parents_of_ofFragment h,
    governor_heads_eq_some_iff, beq_iff_eq]
  constructor
  · rintro ⟨x, hx, hhead⟩
    obtain ⟨c, hc⟩ := List.mem_iff_getElem?.1 hx
    exact ⟨c, x, hc, hhead⟩
  · rintro ⟨c, x, hc, hhead⟩
    exact ⟨x, List.mem_of_getElem? hc, hhead⟩

/-- A token stays unless its node is a punctuation leaf. -/
theorem isPunctuationLeaf_eq_false_iff (h : Tree.ofFragment f = .ok t) (hx : f[k]? = some x) :
    f.isPunctuationLeaf x k = false ↔ ¬t.IsPunctuationLeaf k := by
  rw [isPunctuationLeaf, Tree.IsPunctuationLeaf, relation_of_ofFragment h hx, ← Bool.not_eq_true]
  simp [← Bool.not_eq_true, governs_eq_true_iff h]

/-- What stays of a tree are its nodes that are no punctuation leaves. -/
theorem keptPositions_eq_staying (h : Tree.ofFragment f = .ok t) : f.keptPositions = t.staying := by
  refine f.pairwise_keptPositions.eq_of_mem_iff (List.pairwise_lt_range.filter _) fun k => ?_
  rw [Tree.mem_staying, size_of_ofFragment h, keptPositions, List.mem_map]
  constructor
  · rintro ⟨⟨x, k⟩, hx, rfl⟩
    obtain ⟨hx, hleaf⟩ := mem_kept_iff.1 hx
    exact ⟨(List.getElem?_eq_some_iff.1 hx).1, (isPunctuationLeaf_eq_false_iff h hx).1 hleaf⟩
  · rintro ⟨hk, hleaf⟩
    have hx := List.getElem?_eq_getElem hk
    exact ⟨(f[k], k), mem_kept_iff.2 ⟨hx, (isPunctuationLeaf_eq_false_iff h hx).2 hleaf⟩, rfl⟩

/-- A token that stays keeps its root path. -/
theorem path_withoutPunctuation (h : Tree.ofFragment f = .ok t)
    (hu : Tree.ofFragment f.withoutPunctuation = .ok u) (hi : f.newPosition? k = some i) :
    u.path i = t.path k := by
  have hf := wellFormed_of_ofFragment h
  have hnode : ∀ k i, f.newPosition? k = some i → i < u.size ∧ u.relation i = t.relation k ∧
      u.parent i = (t.parent k).bind f.newPosition? := by
    intro k i hi
    obtain ⟨x, hx, hmoved⟩ := exists_getElem?_withoutPunctuation hi
    refine ⟨?_, ?_, ?_⟩
    · rw [size_of_ofFragment hu]
      exact (List.getElem?_eq_some_iff.1 hmoved).1
    · rw [relation_of_ofFragment hu hmoved, relation_of_ofFragment h hx, Token.moveTo_relation]
    · rw [parent_of_ofFragment hu hmoved, parent_of_ofFragment h hx, Token.moveTo_head]
  have hk : k < t.size := by
    obtain ⟨x, hx, -⟩ := exists_getElem?_withoutPunctuation hi
    rw [size_of_ofFragment h]
    exact (List.getElem?_eq_some_iff.1 hx).1
  have hpath : u.path i = t.path k ++ "" := by
    refine Tree.path_of_related "" (R := fun k i => f.newPosition? k = some i) ?_ ?_ hk hi
    · intro x x' hx _ hroot
      obtain ⟨hlt, hrelation, hparent⟩ := hnode x x' hx
      rw [hroot, Option.bind_none] at hparent
      rw [Tree.path_of_root hlt hparent, hrelation, String.append_empty]
    · intro x p x' hx hp
      obtain ⟨-, hrelation, hparent⟩ := hnode x x' hx
      -- The governor stays, for it governs something.
      obtain ⟨p', hp'⟩ := exists_newPosition?_of_governor hf
        (show f.heads.governor x = some p by rw [← parents_of_ofFragment h]; exact hp)
      exact ⟨hrelation, p', hp', by rw [hparent, hp]; exact hp'⟩
  rwa [String.append_empty] at hpath

end Fragment

/-- A tree without its punctuation is a tree. It holds, in their order and numbered anew, the tokens
that are no punctuation marks or govern something. A root stays a root, every other token comes
under the new position of its governor, and all keep their root paths. -/
theorem withoutPunctuation_keeps_root_paths (f : Fragment) (t : Tree)
    (h : Tree.ofFragment f = .ok t) :
    ∃ u, Tree.ofFragment f.withoutPunctuation = .ok u ∧ u.size = t.staying.length ∧
      ∀ i k, t.staying[i]? = some k → ∃ x, f[k]? = some x ∧
        (x.head = none → f.withoutPunctuation[i]? = some (x.moveTo i none)) ∧
        (∀ head, x.head = some head → ∃ j, t.staying[j]? = some head ∧
          f.withoutPunctuation[i]? = some (x.moveTo i (some j))) ∧
        u.path i = t.path k := by
  have hf := Fragment.wellFormed_of_ofFragment h
  have hacyclic := (Fragment.headCycle_withoutPunctuation_iff hf).not.2
    (Fragment.not_headCycle_of_ofFragment h)
  obtain ⟨u, hu⟩ := f.wellFormed_withoutPunctuation.exists_tree hacyclic
  rw [← Fragment.keptPositions_eq_staying h]
  refine ⟨u, hu, ?_, fun i k hi => ?_⟩
  · rw [Fragment.size_of_ofFragment hu, Fragment.length_withoutPunctuation,
      Fragment.length_keptPositions]
  rw [← Fragment.newPosition?_eq_some_iff] at hi
  obtain ⟨x, hx, hmoved⟩ := Fragment.exists_getElem?_withoutPunctuation hi
  refine ⟨x, hx, fun hroot => ?_, fun head hhead => ?_, Fragment.path_withoutPunctuation h hu hi⟩
  · rwa [hroot, Option.bind_none] at hmoved
  · obtain ⟨j, hj⟩ := Fragment.exists_newPosition?_of_governor hf
      (Fragment.governor_heads_eq_some_iff.2 ⟨x, hx, hhead⟩)
    rw [hhead, Option.bind_some, hj] at hmoved
    exact ⟨j, Fragment.newPosition?_eq_some_iff.1 hj, hmoved⟩

/-- The parse of `, ; Go`, where the first mark hangs on the word and governs the second mark. -/
def marksGo : Fragment :=
  [.make 0 "," "," "," (some 2) "punct", .make 1 ";" ";" ":" (some 0) "punct",
    .make 2 "Go" "go" "VB" none "ROOT"]

/-- Of two marks, the one that governs the other stays. -/
theorem withoutPunctuation_keeps_root_paths_marks :
    ∃ t u, Tree.ofFragment marksGo = .ok t ∧ Tree.ofFragment marksGo.withoutPunctuation = .ok u ∧
      t.staying = [0, 2] ∧ u.size = 2 ∧ u.path 0 = "punct#ROOT" ∧
      marksGo.withoutPunctuation[0]? = some (.make 0 "," "," "," (some 1) "punct") := by
  obtain ⟨t, ht, hstaying, hpath⟩ : ∃ t, Tree.ofFragment marksGo = .ok t ∧ t.staying = [0, 2] ∧
      t.path 0 = "punct#ROOT" := ⟨_, rfl, by decide +kernel, rfl⟩
  obtain ⟨u, hu, hsize, hkeep⟩ := withoutPunctuation_keeps_root_paths marksGo t ht
  rw [hstaying] at hsize hkeep
  obtain ⟨x, hx, -, hgovernor, hpath'⟩ := hkeep 0 0 rfl
  obtain rfl := Option.some.inj hx
  obtain ⟨j, hj, hmoved⟩ := hgovernor 2 rfl
  have hj : j = 1 := by
    match j, hj with
    | 1, _ => rfl
  exact ⟨t, u, ht, hu, hstaying, hsize, hpath'.trans hpath, hj ▸ hmoved⟩

end Entailment
