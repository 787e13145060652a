import Entailment.Proofs.Tree.Ancestry
import Entailment.Tree.PostOrder

/-! # The forest of a tree

The forest that hangs below the roots of a tree holds every node once, and its branches are the
ways from the nodes to their roots.

* **`Forest.Above`** — one node of a forest stands above another;
* **`Tree.mem_postorder`**, **`Tree.nodup_postorder`** — the forest holds the nodes, each once;
* **`Tree.above_forest`** — above another stand its ancestors. -/

namespace Entailment

namespace Forest

/-- The node `a` is the root of a part of the forest that holds `b` below that root. -/
def Above : Forest → Nat → Nat → Prop
  | .nil, _, _ => False
  | .node root below right, a, b =>
    a = root ∧ b ∈ below.postorder ∨ below.Above a b ∨ right.Above a b

/-- What stands above or below something belongs to the forest. -/
theorem Above.mem {f : Forest} {a b : Nat} (h : f.Above a b) :
    a ∈ f.postorder ∧ b ∈ f.postorder := by
  induction f with
  | nil => exact h.elim
  | node root below right ihb ihr =>
      simp only [postorder, List.mem_append, List.mem_cons]
      rcases h with ⟨rfl, hb⟩ | hb | hr
      · exact ⟨.inr (.inl rfl), .inl hb⟩
      · exact ⟨.inl (ihb hb).1, .inl (ihb hb).2⟩
      · exact ⟨.inr (.inr (ihr hr).1), .inr (.inr (ihr hr).2)⟩

end Forest

namespace Parents

variable {ps : Parents} {d : Nat} {nodes : List Nat}

/-- Nothing hangs at depth zero. -/
@[simp] theorem hang_zero : ps.hang 0 nodes = .nil := rfl

/-- Where there are no nodes, nothing hangs below them. -/
@[simp] theorem hang_succ_nil : ps.hang (d + 1) [] = .nil := rfl

/-- Below the first node hang its children, one step less deep, and the other nodes follow. -/
theorem hang_succ_cons (n : Nat) :
    ps.hang (d + 1) (n :: nodes) =
      .node n (ps.hang d (ps.children n)) (ps.hang (d + 1) nodes) := rfl

/-- A forest of limited depth holds what is that many steps below its roots at most. -/
theorem mem_postorder_hang {b : Nat} :
    b ∈ (ps.hang d nodes).postorder ↔ ∃ n ∈ nodes, ∃ k < d, ps.up k b = some n := by
  induction d generalizing nodes with
  | zero => simp [Forest.postorder]
  | succ d ihd =>
      induction nodes with
      | nil => simp [Forest.postorder]
      | cons n nodes ihn =>
          have below : b ∈ (ps.hang d (ps.children n)).postorder ↔
              ∃ k < d, ps.up (k + 1) b = some n := by
            simp only [ihd, mem_children, up_succ_eq_some_iff]
            constructor
            · rintro ⟨c, hc, k, hk, hu⟩
              exact ⟨k, hk, c, hu, hc⟩
            · rintro ⟨k, hk, c, hu, hc⟩
              exact ⟨c, hc, k, hk, hu⟩
          rw [hang_succ_cons, Forest.postorder, List.mem_append, List.mem_cons, below, ihn]
          constructor
          · rintro (⟨k, hk, hu⟩ | rfl | ⟨n', hn', h⟩)
            · exact ⟨n, by simp, k + 1, by omega, hu⟩
            · exact ⟨b, by simp, 0, by omega, rfl⟩
            · exact ⟨n', by simp [hn'], h⟩
          · rintro ⟨n', hn', k, hk, hu⟩
            rcases List.mem_cons.1 hn' with rfl | hn'
            · cases k with
              | zero =>
                  cases hu
                  exact .inr (.inl rfl)
              | succ k => exact .inl ⟨k, by omega, hu⟩
            · exact .inr (.inr ⟨n', hn', k, hk, hu⟩)

/-- In a forest of limited depth, one node stands above another if the steps between them and the
steps up to a root together stay within the depth. -/
theorem above_hang {a b : Nat} :
    (ps.hang d nodes).Above a b ↔
      ∃ n ∈ nodes, ∃ j k, 0 < k ∧ j + k < d ∧ ps.up j a = some n ∧ ps.up k b = some a := by
  induction d generalizing nodes with
  | zero => simp [Forest.Above]
  | succ d ihd =>
      induction nodes with
      | nil => simp [Forest.Above]
      | cons n nodes ihn =>
          rw [hang_succ_cons, Forest.Above, mem_postorder_hang, ihd, ihn]
          simp only [mem_children]
          constructor
          · rintro (⟨rfl, c, hc, k, hk, hu⟩ | ⟨c, hc, j, k, hk, hjk, ha, hb⟩ | ⟨n', hn', h⟩)
            · exact ⟨a, by simp, 0, k + 1, by omega, by omega, rfl,
                up_succ_eq_some_iff.2 ⟨c, hu, hc⟩⟩
            · exact ⟨n, by simp, j + 1, k, hk, by omega,
                up_succ_eq_some_iff.2 ⟨c, ha, hc⟩, hb⟩
            · exact ⟨n', by simp [hn'], h⟩
          · rintro ⟨n', hn', j, k, hk, hjk, ha, hb⟩
            rcases List.mem_cons.1 hn' with rfl | hn'
            · cases j with
              | zero =>
                  cases ha
                  obtain ⟨k, rfl⟩ : ∃ i, k = i + 1 := ⟨k - 1, by omega⟩
                  obtain ⟨c, hu, hc⟩ := up_succ_eq_some_iff.1 hb
                  exact .inl ⟨rfl, c, hc, k, by omega, hu⟩
              | succ j =>
                  obtain ⟨c, hu, hc⟩ := up_succ_eq_some_iff.1 ha
                  exact .inr (.inl ⟨c, hc, j, k, hk, by omega, hu, hb⟩)
            · exact .inr (.inr ⟨n', hn', j, k, hk, hjk, ha, hb⟩)

/-- The indices that a selection of entries keeps are in order. -/
theorem pairwise_filter_zipIdx (p : Option Nat × Nat → Bool) :
    ((ps.zipIdx.filter p).map Prod.snd).Pairwise (· < ·) := by
  refine List.Pairwise.sublist (List.filter_sublist.map Prod.snd) ?_
  rw [List.zipIdx_map_snd]
  exact List.pairwise_lt_range'

/-- The indices that a selection of entries keeps are distinct. -/
theorem nodup_filter_zipIdx (p : Option Nat × Nat → Bool) :
    ((ps.zipIdx.filter p).map Prod.snd).Nodup := (pairwise_filter_zipIdx p).imp Nat.ne_of_lt

/-- No child is listed twice. -/
theorem nodup_children (ps : Parents) (n : Nat) : (ps.children n).Nodup := nodup_filter_zipIdx _

/-- No root is listed twice. -/
theorem nodup_roots (ps : Parents) : ps.roots.Nodup := nodup_filter_zipIdx _

/-- A forest below distinct nodes of one depth lists every node once. -/
theorem nodup_postorder_hang {e : Nat} (hn : nodes.Nodup) (he : ∀ n ∈ nodes, ps.AtDepth e n) :
    (ps.hang d nodes).postorder.Nodup := by
  induction d generalizing nodes e with
  | zero => simp [Forest.postorder]
  | succ d ihd =>
      induction nodes with
      | nil => simp [Forest.postorder]
      | cons n nodes ihn =>
          have hdepth : ∀ c ∈ ps.children n, ps.AtDepth (e + 1) c := fun c hc =>
            atDepth_succ.2 ⟨n, mem_children.1 hc, he n (by simp)⟩
          have hnew := List.nodup_cons.1 hn
          rw [hang_succ_cons, Forest.postorder, List.nodup_append, List.nodup_cons]
          refine ⟨ihd (nodup_children ps n) hdepth,
            ⟨?_, ihn hnew.2 fun m hm => he m (by simp [hm])⟩,
            ?_⟩
          · -- The root itself is not to the right: equally deep nodes are no steps apart.
            intro hmem
            obtain ⟨m, hm, k, -, hu⟩ := mem_postorder_hang.1 hmem
            have hd := ((he m (by simp [hm])).of_up hu).unique (he n (by simp))
            obtain rfl : k = 0 := by omega
            cases hu
            exact hnew.1 hm
          · -- What is below the root is deeper than the root, and below no other root.
            rintro b hb b' hb' rfl
            obtain ⟨c, hc, k, -, hu⟩ := mem_postorder_hang.1 hb
            have hdb := (hdepth c hc).of_up hu
            rcases List.mem_cons.1 hb' with rfl | hb'
            · have := hdb.unique (he b (by simp))
              omega
            · obtain ⟨m, hm, j, -, hu'⟩ := mem_postorder_hang.1 hb'
              have hj := ((he m (by simp [hm])).of_up hu').unique hdb
              obtain rfl : j = k + 1 := by omega
              have hup : ps.up (k + 1) b = some n :=
                up_succ_eq_some_iff.2 ⟨c, hu, mem_children.1 hc⟩
              rw [hu'] at hup
              cases hup
              exact hnew.1 hm

/-- The roots are the nodes without a parent. -/
@[simp] theorem mem_roots {node : Nat} :
    node ∈ ps.roots ↔ node < ps.length ∧ ps.governor node = none := by
  have entry : node ∈ ps.roots ↔ ps[node]? = some none := by
    simp only [roots, List.mem_map, List.mem_filter, Prod.exists, exists_eq_right,
      Option.isNone_iff_eq_none, exists_eq_right]
    exact List.mem_zipIdx_iff_getElem?
  rw [entry, governor]
  constructor
  · intro h
    exact ⟨(List.getElem?_eq_some_iff.1 h).1, by rw [h]; rfl⟩
  · rintro ⟨hlt, hg⟩
    rw [List.getElem?_eq_getElem hlt] at hg ⊢
    exact congrArg some hg

end Parents

namespace Tree

variable {t : Tree}

/-- The forest of a tree holds exactly its nodes. -/
@[simp] theorem mem_postorder {node : Nat} : node ∈ t.postorder ↔ node < t.size := by
  rw [postorder, forest, Parents.mem_postorder_hang]
  constructor
  · rintro ⟨r, hr, k, -, hu⟩
    cases k with
    | zero =>
        cases hu
        exact (Parents.mem_roots.1 hr).1
    | succ k => exact Parents.lt_length_of_up hu (by omega)
  · intro h
    obtain ⟨k, hk, r, hu, hr⟩ := t.exists_atDepth h
    exact ⟨r, Parents.mem_roots.2 ⟨up_lt hu h, hr⟩, k, hk, hu⟩

/-- The forest of a tree holds every node once. -/
theorem nodup_postorder (t : Tree) : t.postorder.Nodup :=
  Parents.nodup_postorder_hang (Parents.nodup_roots _) fun _ hn =>
    Parents.atDepth_zero.2 (Parents.mem_roots.1 hn).2

/-- The nodes of a tree in post-order are a rearrangement of all its nodes. -/
theorem postorder_perm_range (t : Tree) : t.postorder.Perm (List.range t.size) :=
  (List.perm_ext_iff_of_nodup t.nodup_postorder List.nodup_range).2 fun _ => by simp

/-- The post-order of a tree lists as many nodes as the tree has. -/
@[simp] theorem length_postorder (t : Tree) : t.postorder.length = t.size := by
  rw [t.postorder_perm_range.length_eq, List.length_range]

/-- In the forest of a tree, above a node stand its ancestors. -/
theorem above_forest {a b : Nat} : t.forest.Above a b ↔ t.Ancestor a b := by
  rw [forest, Parents.above_hang, ancestor_iff_up]
  constructor
  · rintro ⟨-, -, -, k, hk, -, -, hb⟩
    exact ⟨k, hk, hb⟩
  · rintro ⟨k, hk, hb⟩
    -- The way from `b` on to its root goes through `a`, and no way is longer than the tree is
    -- large.
    have hlt : b < t.size := Parents.lt_length_of_up hb hk
    obtain ⟨d, hd, hdb⟩ := t.exists_atDepth hlt
    obtain ⟨j, rfl, r, hr, hroot⟩ := hdb.above hb
    exact ⟨r, Parents.mem_roots.2 ⟨up_lt hr (up_lt hb hlt), hroot⟩, j, k, hk, by omega, hr, hb⟩

end Tree

end Entailment
