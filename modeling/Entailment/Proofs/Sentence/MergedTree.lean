import Entailment.Proofs.Edit.Tolerance
import Entailment.Proofs.Sentence.Merge
import Entailment.Proofs.Tree.Positions
import Entailment.Proofs.Tree.RootPath

/-! # The tree of merged sentences

The trees of the sentences stand in the merged tree side by side, in their order. The roots of the
first sentence that has any stay roots, and the first of them, the anchor, governs the roots of all
later sentences.

* **`Fragment.StandsAt`** — a sentence stands in a fragment from some position on;
* **`Fragment.standsAt_merge`** — where a sentence stands among merged ones;
* **`Fragment.anchor?_eq_head?_roots`** — the anchor of a sentence is its first root;
* **`Fragment.roots_merge`** — the roots of merged sentences are those of the first one;
* **`Fragment.path_of_standsAt`** — what becomes of the root paths of a sentence;
* **`merge_hangs_roots_under_anchor`** — the merged tree, its roots and its root paths. -/

namespace Entailment

namespace Fragment

variable {f g : Fragment} {fs gs : List Fragment} {k offset a : Nat} {x : Token}

/-- The sentence `g` stands in `f` from a position on: its tokens are numbered on from there, their
heads move along, and its roots come under `top`, if that is given. Nothing else of a token
changes. -/
def StandsAt (f g : Fragment) (offset : Nat) (top : Option Nat) : Prop :=
  ∀ k x, g[k]? = some x →
    f[offset + k]? = some (x.moveTo (offset + k) ((x.head.map (offset + ·)).or top))

/-! ## Where sentences stand -/

/-- What has been merged stays as it is. -/
theorem isPrefix_merge_append (fs gs : List Fragment) : merge fs <+: merge (fs ++ gs) := by
  induction gs using List.reverseRecOn with
  | nil => rw [List.append_nil]
  | append_singleton gs g ih =>
      rw [← List.append_assoc, merge_concat]
      exact ih.trans (List.prefix_append _ _)

/-- Without tokens there is nothing to merge. -/
theorem merge_eq_nil (h : fs.flatten = []) : merge fs = [] := by
  rw [← List.length_eq_zero_iff, length_merge, h, List.length_nil]

/-- An attached sentence stands behind what has been merged so far. -/
theorem standsAt_attach (hg : g.WellFormed) (hlen : f.length + g.length ≤ wordSize) :
    (f.attach g).StandsAt g f.length (f.anchor? 0) := by
  intro k x hx
  rw [attach, List.getElem?_append_right (Nat.le_add_right _ _), Nat.add_sub_cancel_left,
    List.getElem?_map, hx, ← hg.place_eq hlen hx]
  rfl

/-- A sentence stands behind the sentences before it, and the first root of those governs its
roots. -/
theorem standsAt_merge (fs gs : List Fragment) (hg : g.WellFormed)
    (hlen : fs.flatten.length + g.length ≤ wordSize) :
    (merge (fs ++ g :: gs)).StandsAt g fs.flatten.length ((merge fs).anchor? 0) := by
  have hfront : (merge fs).attach g <+: merge (fs ++ g :: gs) := by
    rw [← merge_concat, show fs ++ g :: gs = (fs ++ [g]) ++ gs by simp]
    exact isPrefix_merge_append _ _
  obtain ⟨rest, hrest⟩ := hfront
  rw [← length_merge] at hlen ⊢
  intro k x hx
  have hstands := standsAt_attach hg hlen k x hx
  rw [← hrest, List.getElem?_append_left (List.getElem?_eq_some_iff.1 hstands).1]
  exact hstands

/-! ## The anchor -/

/-- An anchor stays when more is added behind. -/
theorem anchor?_of_isPrefix (hfront : f <+: g) (ha : f.anchor? offset = some a) :
    g.anchor? offset = some a := by
  obtain ⟨h, rfl⟩ := hfront
  obtain ⟨r, hr, rfl⟩ := Option.map_eq_some_iff.1 ha
  rw [anchor?, List.find?_append, hr]
  rfl

/-- The anchor of a sentence is its first root. -/
theorem anchor?_eq_head?_roots (hf : f.WellFormed) (hlen : f.length ≤ wordSize) :
    f.anchor? 0 = f.heads.roots.head? := by
  have hnumber : ∀ p ∈ f.zipIdx, wrap (0 + p.1.id) = p.2 := by
    rintro ⟨x, k⟩ hp
    have hx := List.mk_mem_zipIdx_iff_getElem?.1 hp
    have hk : k < f.length := (List.getElem?_eq_some_iff.1 hx).1
    rw [hf.id_eq k x hx, Nat.zero_add, wrap_of_lt (by omega)]
  calc f.anchor? 0
      = (f.zipIdx.find? fun p => p.1.isRoot).map fun p => wrap (0 + p.1.id) := by
        conv_lhs => rw [anchor?, ← f.zipIdx_map_fst 0, List.find?_map, Option.map_map]
        rfl
    _ = (f.zipIdx.find? fun p => p.1.isRoot).map Prod.snd :=
        Option.map_congr fun p hp => hnumber p (List.mem_of_find?_eq_some hp)
    _ = f.heads.roots.head? := by
        rw [Parents.roots, heads, List.head?_map, List.head?_filter, List.zipIdx_map,
          List.find?_map, Option.map_map]
        rfl

section

variable (hempty : fs.flatten = [])

include hempty

/-- The first sentence that has a root brings the anchor. -/
theorem anchor?_merge (ha : g.anchor? 0 = some a) : (merge (fs ++ g :: gs)).anchor? 0 = some a := by
  rw [show fs ++ g :: gs = (fs ++ [g]) ++ gs by simp]
  refine anchor?_of_isPrefix (isPrefix_merge_append _ _) ?_
  rw [merge_concat, merge_eq_nil hempty, anchor?_attach]
  exact ha

/-- Merged sentences have the roots of the first one. -/
theorem roots_merge (hgs : ∀ f ∈ g :: gs, f.WellFormed)
    (hlen : (g :: gs).flatten.length ≤ wordSize) (ha : g.anchor? 0 = some a) :
    (merge (fs ++ g :: gs)).heads.roots = g.heads.roots := by
  -- Sentences are attached at the end, so the induction takes them off the end.
  induction gs using List.reverseRecOn with
  | nil =>
      have hg : g.length ≤ wordSize := by simpa using hlen
      rw [merge_concat, merge_eq_nil hempty,
        heads_attach (hgs g (List.mem_cons_self ..)) (by simpa using hg)]
      exact congrArg Parents.roots Parents.nil_graft
  | append_singleton gs f ih =>
      rw [← List.cons_append, List.forall_mem_append, List.forall_mem_singleton] at hgs
      rw [← List.cons_append, List.flatten_append, List.length_append,
        List.flatten_singleton] at hlen
      have hmerged : (merge (fs ++ g :: gs)).length = (g :: gs).flatten.length := by
        rw [length_merge, List.flatten_append, hempty, List.nil_append]
      rw [← List.cons_append, ← List.append_assoc, merge_concat,
        heads_attach hgs.2 (by rwa [hmerged]), anchor?_merge hempty ha,
        Parents.roots_graft_of_some, ih hgs.1 (by omega)]

/-- The first sentence that has tokens stands in front. -/
theorem standsAt_first (gs : List Fragment) (hg : g.WellFormed) (hlen : g.length ≤ wordSize) :
    (merge (fs ++ g :: gs)).StandsAt g 0 none := by
  have hstands := standsAt_merge fs gs hg (by rwa [hempty, List.length_nil, Nat.zero_add])
  rwa [hempty, merge_eq_nil hempty] at hstands

/-- Every later sentence stands behind those before it, with its roots under the anchor. -/
theorem standsAt_later (between gs : List Fragment) (hf : f.WellFormed)
    (hlen : (g ++ between.flatten).length + f.length ≤ wordSize) (ha : g.anchor? 0 = some a) :
    (merge (fs ++ g :: (between ++ f :: gs))).StandsAt f (g ++ between.flatten).length
      (some a) := by
  have hbefore : (fs ++ g :: between).flatten = g ++ between.flatten := by
    rw [List.flatten_append, hempty, List.nil_append, List.flatten_cons]
  have hstands := standsAt_merge (fs ++ g :: between) gs hf (by rwa [hbefore])
  rwa [hbefore, anchor?_merge hempty ha, List.append_assoc] at hstands

end

/-! ## Root paths -/

variable {t m : Tree} {top : Option Nat}

/-- Where the sentence of a tree stands in a fragment, its root paths are continued by what the
fragment has above its roots. -/
theorem path_of_standsAt (suffix : String) (hm : Tree.ofFragment f = .ok m)
    (ht : Tree.ofFragment g = .ok t) (hstands : f.StandsAt g offset top)
    (htop : ∀ node < m.size, m.parent node = top → m.path node = m.relation node ++ suffix)
    (hk : k < g.length) : m.path (offset + k) = t.path k ++ suffix := by
  have hnode : ∀ x < t.size, offset + x < m.size ∧
      m.parent (offset + x) = ((t.parent x).map (offset + ·)).or top ∧
        m.relation (offset + x) = t.relation x := by
    intro x hx
    have hy := List.getElem?_eq_getElem (size_of_ofFragment ht ▸ hx)
    have hmoved := hstands x _ hy
    refine ⟨?_, ?_, ?_⟩
    · rw [size_of_ofFragment hm]
      exact (List.getElem?_eq_some_iff.1 hmoved).1
    · rw [parent_of_ofFragment hm hmoved, parent_of_ofFragment ht hy, Token.moveTo_head]
    · rw [relation_of_ofFragment hm hmoved, relation_of_ofFragment ht hy, Token.moveTo_relation]
  refine Tree.path_of_related suffix (R := fun x x' => x < t.size ∧ x' = offset + x) ?_ ?_
    (size_of_ofFragment ht ▸ hk) ⟨size_of_ofFragment ht ▸ hk, rfl⟩
  · rintro x _ ⟨hx, rfl⟩ - hroot
    obtain ⟨hlt, hparent, hrelation⟩ := hnode x hx
    rw [hroot, Option.map_none, Option.none_or] at hparent
    rw [htop _ hlt hparent, hrelation]
  · rintro x p _ ⟨hx, rfl⟩ hp
    obtain ⟨-, hparent, hrelation⟩ := hnode x hx
    rw [hp, Option.map_some, Option.some_or] at hparent
    exact ⟨hrelation, offset + p, ⟨t.governor_lt x p hp, rfl⟩, hparent⟩

/-- A sentence whose roots stay roots keeps its root paths. -/
theorem path_of_standsAt_none (hm : Tree.ofFragment f = .ok m) (ht : Tree.ofFragment g = .ok t)
    (hstands : f.StandsAt g offset none) (hk : k < g.length) : m.path (offset + k) = t.path k := by
  have hpath := path_of_standsAt "" hm ht hstands (fun node hnode hp => by
    rw [Tree.path_of_root hnode hp, String.append_empty]) hk
  rwa [String.append_empty] at hpath

/-- The root paths of a sentence that comes under a node go on with the root path of that node. -/
theorem path_of_standsAt_some (hm : Tree.ofFragment f = .ok m) (ht : Tree.ofFragment g = .ok t)
    (hstands : f.StandsAt g offset (some a)) (hk : k < g.length) :
    m.path (offset + k) = t.path k ++ "#" ++ m.path a := by
  rw [path_of_standsAt ("#" ++ m.path a) hm ht hstands ?_ hk, String.append_assoc]
  intro node _ hp
  rw [Tree.path_of_parent hp, String.append_assoc]
  rfl

/-! ## The merged tree -/

/-- The anchor of a tree is its first root. -/
theorem anchor?_of_ofFragment (ht : Tree.ofFragment f = .ok t) (hlen : f.length ≤ wordSize) :
    f.anchor? 0 = t.roots.head? := by
  rw [anchor?_eq_head?_roots (wellFormed_of_ofFragment ht) hlen, ← parents_of_ofFragment ht,
    Tree.roots]

/-- Merged sentences that are trees are a tree with all their tokens. -/
theorem exists_tree_merge (hfs : ∀ f ∈ fs, ∃ t, Tree.ofFragment f = .ok t)
    (hlen : fs.flatten.length ≤ wordSize) :
    (∀ f ∈ fs, f.WellFormed) ∧
      ∃ m, Tree.ofFragment (.merge fs) = .ok m ∧ m.size = fs.flatten.length := by
  have hwell : ∀ f ∈ fs, f.WellFormed := fun f hf => by
    obtain ⟨t, ht⟩ := hfs f hf
    exact wellFormed_of_ofFragment ht
  have hacyclic : ¬(merge fs).HeadCycle := by
    rw [headCycle_merge_iff hwell hlen]
    rintro ⟨f, hf, hcycle⟩
    obtain ⟨t, ht⟩ := hfs f hf
    exact not_headCycle_of_ofFragment ht hcycle
  obtain ⟨m, hm⟩ := (wellFormed_merge hwell hlen).exists_tree hacyclic
  exact ⟨hwell, m, hm, by rw [size_of_ofFragment hm, length_merge]⟩

end Fragment

/-- A tree that is not empty has a root. -/
theorem Tree.exists_head?_roots {t : Tree} (h : 0 < t.size) :
    ∃ a, t.roots.head? = some a ∧ a < t.size ∧ t.parent a = none := by
  obtain ⟨_, _, r, hu, hr⟩ := t.exists_atDepth h
  have hmem : r ∈ t.roots := Parents.mem_roots.2 ⟨up_lt hu h, hr⟩
  obtain ⟨a, ha⟩ := Option.ne_none_iff_exists'.1
    (mt List.head?_eq_none_iff.1 (List.ne_nil_of_mem hmem))
  exact ⟨a, ha, Parents.mem_roots.1 (List.mem_of_head? ha)⟩

end Entailment
