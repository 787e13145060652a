import Entailment.Proofs.Tree.Cycles
import Entailment.Proofs.Tree.ForestOrder
import Entailment.Tree.Parents

/-! # The search for a cycle

Depth-first search finishes every node. If it finishes a node later than its parent, the parent was
found below the node, so both are on a cycle; without such a node there is no cycle at all.

* **`Search.Sound`** — what holds of a search all along;
* **`Search.Sound.step`** — a step keeps it;
* **`finishOrder_spec`** — the order in which the nodes are finished;
* **`cycleNode?_spec`** — the node that is reported is on a cycle, and none is reported only if
  there is no cycle. -/

namespace Entailment.Parents

variable {ps : Parents} {s : Search} {node head : Nat} {rest : List Nat}

namespace Search

/-! ## The three steps -/

/-- A search with an empty stack is over. -/
theorem step_of_nil (h : s.stack = []) : Search.step ps s = s := by
  rw [step, h]

/-- A discovered node on top of the stack is done with. -/
theorem step_of_discovered (h : s.stack = node :: rest) (hd : node ∈ s.discovered)
    (hf : node ∉ s.finished) :
    Search.step ps s = ⟨rest, s.discovered, node :: s.finished⟩ := by
  rw [step, h]
  simp only [if_pos hd, if_neg hf]

/-- A new node on top of the stack gets its undiscovered children above it. -/
theorem step_of_new (h : s.stack = node :: rest) (hd : node ∉ s.discovered) :
    Search.step ps s =
      ⟨(ps.children node).filter (· ∉ node :: s.discovered) ++ node :: rest,
        node :: s.discovered, s.finished⟩ := by
  rw [step, h]
  simp only [if_neg hd]

/-! ## The invariant -/

/-- What holds of a search all along. The discovered nodes on the stack are the branch that the
search follows; what was discovered and has left the stack is finished. -/
structure Sound (ps : Parents) (s : Search) : Prop where
  /-- Nodes to look at are nodes. -/
  stack_lt : ∀ x ∈ s.stack, x < ps.length
  /-- Discovered nodes are nodes. -/
  discovered_lt : ∀ x ∈ s.discovered, x < ps.length
  /-- No node waits twice. -/
  nodup_stack : s.stack.Nodup
  /-- No node is discovered twice. -/
  nodup_discovered : s.discovered.Nodup
  /-- No node is finished twice. -/
  nodup_finished : s.finished.Nodup
  /-- Nodes are discovered before they are finished. -/
  finished_subset : s.finished ⊆ s.discovered
  /-- A discovered node stays on the stack until it is finished. -/
  mem_stack_iff : ∀ x ∈ s.discovered, x ∈ s.stack ↔ x ∉ s.finished
  /-- A new node on the stack was put there by its parent, or is where the search starts. -/
  waiting : ∀ x ∈ s.stack, x ∉ s.discovered →
    (∃ p ∈ s.discovered, ps.governor x = some p) ∨ s.stack = [x]
  /-- The children of a discovered node are discovered or wait. -/
  expanded : ∀ y ∈ s.discovered, ∀ c, ps.governor c = some y → c ∈ s.discovered ∨ c ∈ s.stack
  /-- What lies above a discovered node on the stack stands below it in the tree. -/
  branch : s.stack.Pairwise fun x y => y ∈ s.discovered → ps.Below x y
  /-- A new child of a discovered node does not lie under that node. -/
  above_parent : s.stack.Pairwise fun x y =>
    x ∈ s.discovered → ps.governor y = some x → y ∈ s.discovered
  /-- A child that outlasts its finished parent stands above it. -/
  outlasting : ∀ y ∈ s.finished, ∀ c, ps.governor c = some y → c ∈ s.finished ∨ ps.Below y c
  /-- A child that is finished after its parent stands above it. -/
  settled : s.finished.Pairwise fun x y => ps.governor x = some y → ps.Below y x

namespace Sound

/-- The parent of a new node that waits under another node is discovered. -/
theorem exists_parent (hs : s.Sound ps) (h : s.stack = node :: rest) {x : Nat} (hx : x ∈ rest)
    (hd : x ∉ s.discovered) : ∃ p ∈ s.discovered, ps.governor x = some p := by
  rcases hs.waiting x (h ▸ List.mem_cons_of_mem _ hx) hd with hp | heq
  · exact hp
  · rw [h, List.cons.injEq] at heq
    rw [heq.2] at hx
    cases hx

/-! ### A node is finished -/

/-- When a node is met again, its children are discovered: none is left above it. -/
theorem children_discovered (hs : s.Sound ps) (h : s.stack = node :: rest)
    (hd : node ∈ s.discovered) {c : Nat} (hc : ps.governor c = some node) : c ∈ s.discovered := by
  obtain ⟨habove, -⟩ := List.pairwise_cons.1 (h ▸ hs.above_parent)
  rcases hs.expanded node hd c hc with hc' | hc'
  · exact hc'
  · rw [h, List.mem_cons] at hc'
    rcases hc' with rfl | hc'
    · exact hd
    · exact habove c hc' hd hc

/-- Below the node on top of the stack are the discovered nodes that stay unfinished with it. -/
theorem mem_rest_iff (hs : s.Sound ps) (h : s.stack = node :: rest) {x : Nat}
    (hx : x ∈ s.discovered) : x ∈ rest ↔ x ∉ node :: s.finished := by
  have hnotMem := (List.nodup_cons.1 (h ▸ hs.nodup_stack)).1
  have hmem := hs.mem_stack_iff x hx
  rw [h, List.mem_cons] at hmem
  rw [List.mem_cons, not_or, ← hmem]
  constructor
  · intro hrest
    exact ⟨fun heq => hnotMem (heq ▸ hrest), .inr hrest⟩
  · rintro ⟨hne, hx⟩
    exact hx.resolve_left hne

/-- An unfinished child of the node on top of the stack is still on the stack, so the search came
from it to its parent. -/
theorem below_of_unfinished (hs : s.Sound ps) (h : s.stack = node :: rest)
    (hd : node ∈ s.discovered) {c : Nat} (hc : ps.governor c = some node)
    (hunfinished : c ∉ node :: s.finished) : ps.Below node c := by
  obtain ⟨hbranch, -⟩ := List.pairwise_cons.1 (h ▸ hs.branch)
  have hdiscovered := hs.children_discovered h hd hc
  exact hbranch c ((hs.mem_rest_iff h hdiscovered).2 hunfinished) hdiscovered

/-- Finishing the node on top of the stack keeps the invariant. -/
theorem finish (hs : s.Sound ps) (h : s.stack = node :: rest) (hd : node ∈ s.discovered) :
    Sound ps ⟨rest, s.discovered, node :: s.finished⟩ := by
  have hunfinished : node ∉ s.finished := (hs.mem_stack_iff node hd).1 (h ▸ List.mem_cons_self)
  refine
    { stack_lt := fun x hx => hs.stack_lt x (h ▸ List.mem_cons_of_mem _ hx)
      discovered_lt := hs.discovered_lt
      nodup_stack := (List.nodup_cons.1 (h ▸ hs.nodup_stack)).2
      nodup_discovered := hs.nodup_discovered
      nodup_finished := List.nodup_cons.2 ⟨hunfinished, hs.nodup_finished⟩
      finished_subset := List.cons_subset.2 ⟨hd, hs.finished_subset⟩
      mem_stack_iff := fun x hx => hs.mem_rest_iff h hx
      waiting := fun x hx hnew => .inl (hs.exists_parent h hx hnew)
      expanded := fun y hy c hc => ?_
      branch := (List.pairwise_cons.1 (h ▸ hs.branch)).2
      above_parent := (List.pairwise_cons.1 (h ▸ hs.above_parent)).2
      outlasting := fun y hy c hc => ?_
      settled := List.pairwise_cons.2 ⟨fun y hy hg => ?_, hs.settled⟩ }
  -- The node leaves the stack, but it was discovered.
  · rcases hs.expanded y hy c hc with hc' | hc'
    · exact .inl hc'
    · rw [h, List.mem_cons] at hc'
      rcases hc' with rfl | hc'
      · exact .inl hd
      · exact .inr hc'
  -- A child of the node that is still unfinished closes a cycle.
  · rcases List.mem_cons.1 hy with rfl | hy
    · exact or_iff_not_imp_left.2 (hs.below_of_unfinished h hd hc)
    · exact (hs.outlasting y hy c hc).imp_left (List.mem_cons_of_mem _)
  · exact (hs.outlasting y hy node hg).resolve_left hunfinished

/-! ### A node is discovered -/

/-- The nodes that a new node puts on the stack are its children that are new. -/
theorem mem_fresh {c : Nat} : c ∈ (ps.children node).filter (· ∉ node :: s.discovered) ↔
    ps.governor c = some node ∧ c ∉ node :: s.discovered := by
  simp only [List.mem_filter, mem_children, decide_eq_true_eq]

/-- No child of a new node waits further down, as what waits there is the child of a discovered
node. -/
theorem child_discovered (hs : s.Sound ps) (h : s.stack = node :: rest) (hd : node ∉ s.discovered)
    {x : Nat} (hx : x ∈ rest) (hg : ps.governor x = some node) : x ∈ s.discovered := by
  by_contra hnew
  obtain ⟨p, hp, hg'⟩ := hs.exists_parent h hx hnew
  rw [hg, Option.some.injEq] at hg'
  exact hd (hg' ▸ hp)

/-- Further down, the new node makes no difference to what is discovered. -/
theorem discovered_of_mem_rest (hs : s.Sound ps) (h : s.stack = node :: rest) {x : Nat}
    (hx : x ∈ rest) (hmem : x ∈ node :: s.discovered) : x ∈ s.discovered := by
  have hnotMem := (List.nodup_cons.1 (h ▸ hs.nodup_stack)).1
  exact (List.mem_cons.1 hmem).resolve_left fun heq => hnotMem (heq ▸ hx)

/-- No node waits twice once the children of a new node are on the stack. -/
theorem nodup_discover (hs : s.Sound ps) (h : s.stack = node :: rest)
    (hd : node ∉ s.discovered) :
    ((ps.children node).filter (· ∉ node :: s.discovered) ++ node :: rest).Nodup := by
  refine List.nodup_append'.2
    ⟨(ps.nodup_children node).filter _, h ▸ hs.nodup_stack, fun c hc hmem => ?_⟩
  obtain ⟨hg, hnew⟩ := mem_fresh.1 hc
  rw [List.mem_cons, not_or] at hnew
  rcases List.mem_cons.1 hmem with rfl | hrest
  · exact hnew.1 rfl
  · exact hnew.2 (hs.child_discovered h hd hrest hg)

/-- The children of a new node stand below it, and so below the branch that leads to it. -/
theorem branch_discover (hs : s.Sound ps) (h : s.stack = node :: rest) :
    ((ps.children node).filter (· ∉ node :: s.discovered) ++ node :: rest).Pairwise fun x y =>
      y ∈ node :: s.discovered → ps.Below x y := by
  obtain ⟨hbranch, hbranchRest⟩ := List.pairwise_cons.1 (h ▸ hs.branch)
  refine List.pairwise_append.2 ⟨?_, List.pairwise_cons.2 ⟨fun y hy hmem => ?_, ?_⟩, ?_⟩
  · exact List.pairwise_of_forall_mem_list fun x _ y hy hmem => absurd hmem (mem_fresh.1 hy).2
  · exact hbranch y hy (hs.discovered_of_mem_rest h hy hmem)
  · exact hbranchRest.imp_of_mem fun _ hy hxy hmem => hxy (hs.discovered_of_mem_rest h hy hmem)
  · intro x hx y hy hmem
    have hxnode : ps.Below x node := .of_governor (mem_fresh.1 hx).1
    rcases List.mem_cons.1 hy with rfl | hy
    · exact hxnode
    · exact hxnode.trans (hbranch y hy (hs.discovered_of_mem_rest h hy hmem))

/-- Once the children of a new node are on the stack, no new node lies under its parent. -/
theorem above_parent_discover (hs : s.Sound ps) (h : s.stack = node :: rest)
    (hd : node ∉ s.discovered) :
    ((ps.children node).filter (· ∉ node :: s.discovered) ++ node :: rest).Pairwise fun x y =>
      x ∈ node :: s.discovered → ps.governor y = some x → y ∈ node :: s.discovered := by
  have haboveRest := (List.pairwise_cons.1 (h ▸ hs.above_parent)).2
  refine List.pairwise_append.2 ⟨?_, List.pairwise_cons.2 ⟨fun y hy _ hg => ?_, ?_⟩, ?_⟩
  · exact List.pairwise_of_forall_mem_list fun x hx _ _ hmem => absurd hmem (mem_fresh.1 hx).2
  · exact List.mem_cons_of_mem _ (hs.child_discovered h hd hy hg)
  · exact haboveRest.imp_of_mem fun hx _ hxy hmem hg =>
      List.mem_cons_of_mem _ (hxy (hs.discovered_of_mem_rest h hx hmem) hg)
  · exact fun x hx _ _ hmem => absurd hmem (mem_fresh.1 hx).2

/-- Discovering the node on top of the stack keeps the invariant. -/
theorem discover (hs : s.Sound ps) (h : s.stack = node :: rest) (hd : node ∉ s.discovered) :
    Sound ps ⟨(ps.children node).filter (· ∉ node :: s.discovered) ++ node :: rest,
      node :: s.discovered, s.finished⟩ := by
  refine
    { stack_lt := fun x hx => ?_
      discovered_lt := fun x hx => ?_
      nodup_stack := hs.nodup_discover h hd
      nodup_discovered := List.nodup_cons.2 ⟨hd, hs.nodup_discovered⟩
      nodup_finished := hs.nodup_finished
      finished_subset := fun x hx => List.mem_cons_of_mem _ (hs.finished_subset hx)
      mem_stack_iff := fun x hx => ?_
      waiting := fun x hx hnew => ?_
      expanded := fun y hy c hc => ?_
      branch := hs.branch_discover h
      above_parent := hs.above_parent_discover h hd
      outlasting := hs.outlasting
      settled := hs.settled }
  -- What comes onto the stack has a parent, so it is a node.
  · rcases List.mem_append.1 hx with hx | hx
    · exact lt_length_of_governor (mem_fresh.1 hx).1
    · exact hs.stack_lt x (h ▸ hx)
  · rcases List.mem_cons.1 hx with rfl | hx
    · exact hs.stack_lt x (h ▸ List.mem_cons_self)
    · exact hs.discovered_lt x hx
  -- The new node is unfinished and stays where it is, under its children.
  · rcases List.mem_cons.1 hx with rfl | hx
    · exact ⟨fun _ hf => hd (hs.finished_subset hf),
        fun _ => List.mem_append_right _ List.mem_cons_self⟩
    · rw [← hs.mem_stack_iff x hx, h, List.mem_append, or_iff_right]
      exact fun hp => (mem_fresh.1 hp).2 (List.mem_cons_of_mem _ hx)
  · rw [List.mem_cons, not_or] at hnew
    rcases List.mem_append.1 hx with hx | hx
    · exact .inl ⟨node, List.mem_cons_self, (mem_fresh.1 hx).1⟩
    · obtain ⟨p, hp, hg⟩ :=
        hs.exists_parent h ((List.mem_cons.1 hx).resolve_left hnew.1) hnew.2
      exact .inl ⟨p, List.mem_cons_of_mem _ hp, hg⟩
  -- Every child of the new node that is not discovered yet has come onto the stack.
  · refine or_iff_not_imp_left.2 fun hmem => List.mem_append.2 ?_
    rcases List.mem_cons.1 hy with rfl | hy
    · exact .inl (mem_fresh.2 ⟨hc, hmem⟩)
    · exact .inr (h ▸ (hs.expanded y hy c hc).resolve_left
        fun hc' => hmem (List.mem_cons_of_mem _ hc'))

/-! ### A step -/

/-- A step keeps the invariant. -/
theorem step (hs : s.Sound ps) : (Search.step ps s).Sound ps := by
  cases h : s.stack with
  | nil => rwa [step_of_nil h]
  | cons node rest =>
      by_cases hd : node ∈ s.discovered
      · rw [step_of_discovered h hd ((hs.mem_stack_iff node hd).1 (h ▸ List.mem_cons_self))]
        exact hs.finish h hd
      · rw [step_of_new h hd]
        exact hs.discover h hd

/-! ## The run from one node -/

/-- What is discovered or waits stays so. -/
theorem known_step (hs : s.Sound ps) {x : Nat} (hx : x ∈ s.stack ∨ x ∈ s.discovered) :
    x ∈ (Search.step ps s).stack ∨ x ∈ (Search.step ps s).discovered := by
  cases h : s.stack with
  | nil => rwa [step_of_nil h]
  | cons node rest =>
      rw [h] at hx
      by_cases hd : node ∈ s.discovered
      · rw [step_of_discovered h hd ((hs.mem_stack_iff node hd).1 (h ▸ List.mem_cons_self))]
        rcases hx with hx | hx
        · rcases List.mem_cons.1 hx with rfl | hx
          · exact .inr hd
          · exact .inl hx
        · exact .inr hx
      · rw [step_of_new h hd]
        exact hx.imp (List.mem_append_right _) (List.mem_cons_of_mem _)

/-- There are no more discovered nodes than nodes. -/
theorem length_discovered_le (hs : s.Sound ps) : s.discovered.length ≤ ps.length := by
  have hsub : s.discovered ⊆ List.range ps.length := fun x hx =>
    List.mem_range.2 (hs.discovered_lt x hx)
  have hle := (List.subperm_of_subset hs.nodup_discovered hsub).length_le
  rwa [List.length_range] at hle

end Sound

/-- The steps that are left at most: two for every node that is new, one for every discovered node
on the stack. -/
def work (ps : Parents) (s : Search) : Nat :=
  2 * (ps.length - s.discovered.length) + s.stack.countP (· ∈ s.discovered)

namespace Sound

/-- As long as the stack is not empty, a step does one piece of the work. -/
theorem work_step (hs : s.Sound ps) (hne : s.stack ≠ []) :
    (Search.step ps s).work ps + 1 = s.work ps := by
  obtain ⟨node, rest, h⟩ := List.exists_cons_of_ne_nil hne
  have hnotMem := (List.nodup_cons.1 (h ▸ hs.nodup_stack)).1
  by_cases hd : node ∈ s.discovered
  · have htop : (node :: rest).countP (· ∈ s.discovered) = rest.countP (· ∈ s.discovered) + 1 := by
      simp [hd]
    rw [step_of_discovered h hd ((hs.mem_stack_iff node hd).1 (h ▸ List.mem_cons_self)), work, work,
      h, htop]
    rfl
  · have hlt := (hs.discover h hd).length_discovered_le
    have hpushed : ((ps.children node).filter (· ∉ node :: s.discovered)).countP
        (· ∈ node :: s.discovered) = 0 := by
      rw [List.countP_eq_zero]
      intro c hc
      simpa using (List.mem_filter.1 hc).2
    have hrest : rest.countP (· ∈ node :: s.discovered) = rest.countP (· ∈ s.discovered) := by
      refine List.countP_congr fun x hx => ?_
      have hx' : x ≠ node := fun heq => hnotMem (heq ▸ hx)
      simp [hx']
    have htop : (node :: rest).countP (· ∈ node :: s.discovered) =
        rest.countP (· ∈ s.discovered) + 1 := by
      rw [← hrest]
      simp
    have hbelow : (node :: rest).countP (· ∈ s.discovered) = rest.countP (· ∈ s.discovered) := by
      simp [hd]
    simp only [List.length_cons] at hlt
    rw [step_of_new h hd, work, work, h, hbelow]
    simp only [List.countP_append, hpushed, htop, List.length_cons]
    omega

/-- A search whose work is done has an empty stack. -/
theorem stack_eq_nil (hs : s.Sound ps) (h : s.work ps = 0) : s.stack = [] := by
  have hlength := hs.length_discovered_le
  obtain ⟨hnodes, hstack⟩ := Nat.add_eq_zero_iff.1 h
  have hall : s.discovered.Perm (List.range ps.length) :=
    (List.subperm_of_subset hs.nodup_discovered fun x hx =>
      List.mem_range.2 (hs.discovered_lt x hx)).perm_of_length_le
      (by rw [List.length_range]; omega)
  refine List.eq_nil_iff_forall_not_mem.2 fun x hx => ?_
  have hx' : x ∈ s.discovered := hall.mem_iff.2 (List.mem_range.2 (hs.stack_lt x hx))
  simpa using List.countP_eq_zero.1 hstack x hx |>.elim (decide_eq_true hx')

/-- After any number of steps the invariant holds, what was known is known, and either the stack is
empty or as many pieces of the work are done. -/
theorem run (hs : s.Sound ps) (k : Nat) :
    (Nat.repeat (Search.step ps) k s).Sound ps ∧
      (∀ x, x ∈ s.stack ∨ x ∈ s.discovered →
        x ∈ (Nat.repeat (Search.step ps) k s).stack ∨
          x ∈ (Nat.repeat (Search.step ps) k s).discovered) ∧
      ((Nat.repeat (Search.step ps) k s).stack = [] ∨
        (Nat.repeat (Search.step ps) k s).work ps + k ≤ s.work ps) := by
  induction k with
  | zero => exact ⟨hs, fun _ hx => hx, .inr le_rfl⟩
  | succ k ih =>
      obtain ⟨hsound, hknown, hwork⟩ := ih
      rw [Nat.repeat]
      refine ⟨hsound.step, fun x hx => hsound.known_step (hknown x hx), ?_⟩
      by_cases hstack : (Nat.repeat (Search.step ps) k s).stack = []
      · rw [step_of_nil hstack]
        exact .inl hstack
      · have hstep := hsound.work_step hstack
        have hdone := hwork.resolve_left hstack
        exact .inr (by omega)

end Sound

/-- A search between two runs: nothing waits. -/
structure Idle (ps : Parents) (s : Search) : Prop extends s.Sound ps where
  /-- Nothing waits. -/
  stack_eq : s.stack = []

namespace Idle

/-- The search before its first run. -/
theorem init : Idle ps ⟨[], [], []⟩ where
  stack_lt := by simp
  discovered_lt := by simp
  nodup_stack := List.nodup_nil
  nodup_discovered := List.nodup_nil
  nodup_finished := List.nodup_nil
  finished_subset := List.Subset.refl _
  mem_stack_iff := by simp
  waiting := by simp
  expanded := by simp
  branch := List.Pairwise.nil
  above_parent := List.Pairwise.nil
  outlasting := by simp
  settled := List.Pairwise.nil
  stack_eq := rfl

/-- Between two runs all discovered nodes are finished. -/
theorem mem_finished_iff (hs : s.Idle ps) {x : Nat} : x ∈ s.finished ↔ x ∈ s.discovered := by
  refine ⟨fun hx => hs.finished_subset hx, fun hx => ?_⟩
  have hmem := hs.mem_stack_iff x hx
  rw [hs.stack_eq] at hmem
  by_contra hunfinished
  exact List.not_mem_nil (hmem.2 hunfinished)

/-- A run starts with a new node on the stack. -/
theorem start (hs : s.Idle ps) (hlt : node < ps.length) (hnew : node ∉ s.discovered) :
    Sound ps { s with stack := [node] } where
  stack_lt x hx := List.mem_singleton.1 hx ▸ hlt
  discovered_lt := hs.discovered_lt
  nodup_stack := List.nodup_singleton _
  nodup_discovered := hs.nodup_discovered
  nodup_finished := hs.nodup_finished
  finished_subset := hs.finished_subset
  mem_stack_iff x hx := by
    have hne : x ≠ node := fun heq => hnew (heq ▸ hx)
    simpa [hne] using hs.mem_finished_iff.2 hx
  waiting x hx _ := .inr (by rw [List.mem_singleton.1 hx])
  expanded y hy c hc := by
    have hc' := hs.expanded y hy c hc
    rw [hs.stack_eq] at hc'
    exact .inl (hc'.resolve_right List.not_mem_nil)
  branch := List.pairwise_singleton ..
  above_parent := List.pairwise_singleton ..
  outlasting := hs.outlasting
  settled := hs.settled

/-- A run from a node discovers that node, and twice as many steps as there are nodes are enough for
it to end. -/
theorem runFrom (hs : s.Idle ps) (hlt : node < ps.length) :
    (Search.from ps s node).Idle ps ∧
      ∀ x, x ∈ s.discovered ∨ x = node → x ∈ (Search.from ps s node).discovered := by
  rw [Search.from]
  split_ifs with hd
  · exact ⟨hs, fun x hx => hx.elim id fun heq => heq ▸ hd⟩
  · obtain ⟨hsound, hknown, hwork⟩ := (hs.start hlt hd).run (2 * ps.length)
    have hnew : [node].countP (· ∈ s.discovered) = 0 := by simpa using hd
    have hstack : (Nat.repeat (Search.step ps) (2 * ps.length)
        { s with stack := [node] }).stack = [] := by
      refine hwork.elim id fun hle => hsound.stack_eq_nil ?_
      rw [work, work, hnew] at hle
      rw [work]
      omega
    refine ⟨⟨hsound, hstack⟩, fun x hx => ?_⟩
    have hx' := hknown x (hx.symm.imp_left List.mem_singleton.2)
    rw [hstack] at hx'
    exact hx'.resolve_left List.not_mem_nil

/-- Runs from several nodes discover them all. -/
theorem foldl_from (hs : s.Idle ps) {nodes : List Nat} (hlt : ∀ n ∈ nodes, n < ps.length) :
    (nodes.foldl (Search.from ps) s).Idle ps ∧
      ∀ x, x ∈ s.discovered ∨ x ∈ nodes → x ∈ (nodes.foldl (Search.from ps) s).discovered := by
  induction nodes generalizing s with
  | nil => exact ⟨hs, fun x hx => hx.resolve_right List.not_mem_nil⟩
  | cons n nodes ih =>
      obtain ⟨hrun, hmem⟩ := hs.runFrom (hlt n List.mem_cons_self)
      obtain ⟨hruns, hall⟩ := ih hrun fun m hm => hlt m (List.mem_cons_of_mem _ hm)
      refine ⟨hruns, fun x hx => hall x ?_⟩
      rw [List.mem_cons] at hx
      rcases hx with hx | rfl | hx
      · exact .inl (hmem x (.inl hx))
      · exact .inl (hmem x (.inr rfl))
      · exact .inr hx

end Idle

end Search

/-! ## The order of the nodes -/

/-- The search finishes every node once, and where it finishes a node later than its parent, the
parent stands below the node. -/
theorem finishOrder_spec (ps : Parents) :
    ps.finishOrder.Perm (List.range ps.length) ∧
      ps.finishOrder.Pairwise fun x y => ps.governor x = some y → ps.Below y x := by
  have hinit : Search.Idle ps ⟨[], [], []⟩ := .init
  obtain ⟨hidle, hall⟩ := hinit.foldl_from fun n (hn : n ∈ List.range ps.length) =>
    List.mem_range.1 hn
  refine ⟨(List.perm_ext_iff_of_nodup hidle.nodup_finished List.nodup_range).2 fun x => ?_,
    hidle.settled⟩
  constructor
  · intro hx
    exact List.mem_range.2 (hidle.discovered_lt x (hidle.finished_subset hx))
  · intro hx
    exact hidle.mem_finished_iff.2 (hall x (.inr hx))

variable {seen order : List Nat}

/-- What the first node of the order does: it gives its parent away, or the rest of the order
decides with that node seen as well. -/
theorem unsettled_cons_cases (seen : List Nat) (node : Nat) (order : List Nat) :
    (∃ head, ps.governor node = some head ∧ head ∉ node :: seen ∧
      ps.unsettled seen (node :: order) = some head) ∨
    (∀ head, ps.governor node = some head → node ∈ seen ∨ head ∈ node :: seen) ∧
      ∃ seen', (∀ x, x ∈ seen' ↔ x ∈ node :: seen) ∧
        ps.unsettled seen (node :: order) = ps.unsettled seen' order := by
  rw [unsettled]
  by_cases hnode : node ∈ seen
  · rw [if_pos hnode]
    refine .inr ⟨fun _ _ => .inl hnode, seen, fun x => ?_, rfl⟩
    rw [List.mem_cons, iff_or_self]
    exact fun heq => heq ▸ hnode
  · rw [if_neg hnode]
    cases hg : ps.governor node with
    | none => exact .inr ⟨fun _ h => (nomatch h), node :: seen, fun _ => Iff.rfl, rfl⟩
    | some head =>
        by_cases hhead : head ∈ node :: seen
        · exact .inr ⟨fun _ h => .inr (Option.some.inj h ▸ hhead), node :: seen, fun _ => Iff.rfl,
            if_pos hhead⟩
        · exact .inl ⟨head, rfl, hhead, if_neg hhead⟩

/-- A node that is reported is the parent of a node of the order, and is neither that node nor
before it. -/
theorem exists_of_unsettled (h : ps.unsettled seen order = some head) :
    head ∉ seen ∧ ∃ left x right, order = left ++ x :: right ∧ ps.governor x = some head ∧
      head ∉ left ∧ head ≠ x := by
  induction order generalizing seen with
  | nil => cases h
  | cons node order ih =>
      rcases unsettled_cons_cases seen node order with ⟨p, hp, hnew, heq⟩ | ⟨-, seen', hseen', heq⟩
      · obtain rfl := Option.some.inj (heq.symm.trans h)
        rw [List.mem_cons, not_or] at hnew
        exact ⟨hnew.2, [], node, order, rfl, hp, List.not_mem_nil, hnew.1⟩
      · obtain ⟨hnew, left, x, right, rfl, hg, hleft, hne⟩ := ih (heq.symm.trans h)
        rw [hseen', List.mem_cons, not_or] at hnew
        refine ⟨hnew.2, node :: left, x, right, rfl, hg, ?_, hne⟩
        rw [List.mem_cons, not_or]
        exact ⟨hnew.1, hleft⟩

/-- If no node is reported, the parent of a node of the order is that node, or is seen or comes
before it. -/
theorem of_unsettled_eq_none (h : ps.unsettled seen order = none) {x : Nat} (hx : x ∈ order)
    (hseen : x ∉ seen) (hg : ps.governor x = some head) :
    head = x ∨ head ∈ seen ∨ order.idxOf head < order.idxOf x := by
  induction order generalizing seen with
  | nil => cases hx
  | cons node order ih =>
      rcases unsettled_cons_cases seen node order with
        ⟨p, -, -, heq⟩ | ⟨hfirst, seen', hseen', heq⟩
      · cases heq.symm.trans h
      by_cases hnode : x = node
      · subst hnode
        have hhead := (hfirst head hg).resolve_left hseen
        rw [List.mem_cons] at hhead
        exact hhead.imp_right .inl
      · have hx' : x ∉ seen' := by
          rw [hseen', List.mem_cons, not_or]
          exact ⟨hnode, hseen⟩
        have hrest := ih (heq.symm.trans h) ((List.mem_cons.1 hx).resolve_left hnode) hx'
        rw [hseen', List.mem_cons] at hrest
        rw [List.idxOf_cons_ne _ (Ne.symm hnode)]
        by_cases hhead : head = node
        · rw [hhead, List.idxOf_cons_self]
          exact .inr (.inr (Nat.succ_pos _))
        · rw [List.idxOf_cons_ne _ (Ne.symm hhead)]
          rcases hrest with hrest | (hrest | hrest) | hrest
          · exact .inl hrest
          · exact absurd hrest hhead
          · exact .inr (.inl hrest)
          · exact .inr (.inr (Nat.succ_lt_succ hrest))

/-- With parents that are other nodes, the node that is reported is on a cycle, and if none is
reported, there is no cycle. -/
theorem cycleNode?_spec (hr : ps.InRange) (hself : ∀ node, ps.governor node ≠ some node) :
    (∀ node, ps.cycleNode? = some node → ps.OnCycle node) ∧
      (ps.cycleNode? = none → ∀ node, ¬ps.OnCycle node) := by
  obtain ⟨hperm, hsettled⟩ := finishOrder_spec ps
  constructor
  · intro head h
    obtain ⟨-, left, x, right, horder, hg, hleft, hne⟩ := exists_of_unsettled h
    have hmem : head ∈ ps.finishOrder := hperm.mem_iff.2 (List.mem_range.2 (hr x head hg))
    rw [horder] at hsettled hmem
    -- The reported node was finished before its child, so it stands below it.
    have hright : head ∈ right := by simpa [hleft, hne] using hmem
    have hbelow := (List.pairwise_cons.1 (List.pairwise_append.1 hsettled).2.1).1 head hright hg
    exact hbelow.trans (.of_governor hg)
  · intro h node
    refine not_onCycle_of_rank ps.finishOrder.idxOf fun x p hg => ?_
    have hx := hperm.mem_iff.2 (List.mem_range.2 (lt_length_of_governor hg))
    rcases of_unsettled_eq_none h hx List.not_mem_nil hg with rfl | hp | hp
    · exact absurd hg (hself p)
    · cases hp
    · exact hp

end Entailment.Parents
