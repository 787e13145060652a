import Entailment.Proofs.Sentence.WellFormed
import Entailment.Proofs.Tree.Grafting
import Entailment.Token

/-! # What merging sentences keeps

Merging puts one sentence after another, and what has been merged so far tells where the next one
comes and what governs its roots. So a merged text is the sentences grafted onto their common anchor
one by one.

* **`Fragment.attach`** — one sentence after what has been merged so far;
* **`Fragment.merge_eq_foldl`** — merging attaches the sentences one by one;
* **`Fragment.heads_attach`** — the heads of an attached sentence are grafted onto the anchor;
* **`Fragment.wellFormed_merge`**, **`Fragment.headCycle_merge_iff`** — merged sentences are
  well-formed, and their cycles are those of the sentences. -/

namespace Entailment

/-- A word is not changed by another reduction. -/
@[simp] theorem wrap_wrap (n : Nat) : wrap (wrap n) = wrap n := wrap_of_lt (wrap_lt n)

/-- Without an anchor, placing keeps the roots. -/
@[simp] theorem Token.isRoot_place_none (offset : Nat) (t : Token) :
    (t.place offset none).isRoot = t.isRoot := by
  unfold Token.isRoot Token.place
  cases t.head <;> rfl

namespace Fragment

variable {f g : Fragment} {fs : List Fragment} {x : Token} {k offset : Nat}

/-! ## One sentence after another -/

/-- A sentence after what has been merged so far. The first root so far governs its roots. -/
def attach (f g : Fragment) : Fragment := f ++ g.map (Token.place f.length (f.anchor? 0))

/-- Attaching a sentence loses no token. -/
@[simp] theorem length_attach : (f.attach g).length = f.length + g.length := by simp [attach]

/-- The anchor is the first root so far, or else the first root of the next sentence. -/
theorem anchor?_attach (f g : Fragment) :
    (f.attach g).anchor? 0 = (f.anchor? 0).or (g.anchor? f.length) := by
  simp only [attach, anchor?, List.find?_append]
  cases f.find? Token.isRoot with
  | some r => rfl
  | none =>
      -- Without an anchor the roots of the sentence stay roots.
      have hroot : Token.isRoot ∘ Token.place f.length none = Token.isRoot := by
        funext t
        exact Token.isRoot_place_none f.length t
      simp [List.find?_map, hroot, Function.comp_def, Token.place]

/-- The sentences still to be merged are attached one by one. -/
theorem append_mergeFrom_eq_foldl (f : Fragment) (fs : List Fragment) :
    f ++ mergeFrom f.length (f.anchor? 0) fs = fs.foldl attach f := by
  induction fs generalizing f with
  | nil => exact List.append_nil f
  | cons g fs ih =>
      rw [List.foldl_cons, ← ih, anchor?_attach, length_attach, mergeFrom, ← List.append_assoc]
      rfl

/-- Merging attaches the sentences one by one. -/
theorem merge_eq_foldl (fs : List Fragment) : merge fs = fs.foldl attach [] :=
  append_mergeFrom_eq_foldl [] fs

/-- The sentences of a list are attached to those before them. -/
theorem merge_append (fs gs : List Fragment) : merge (fs ++ gs) = gs.foldl attach (merge fs) := by
  rw [merge_eq_foldl, merge_eq_foldl, List.foldl_append]

/-- The last sentence is attached to the others merged. -/
theorem merge_concat (fs : List Fragment) (g : Fragment) :
    merge (fs ++ [g]) = (merge fs).attach g := by
  rw [merge_append, List.foldl_cons, List.foldl_nil]

/-- No token is lost. -/
@[simp] theorem length_merge (fs : List Fragment) : (merge fs).length = fs.flatten.length := by
  induction fs using List.reverseRecOn with
  | nil => rfl
  | append_singleton fs g ih => simp [merge_concat, ih]

/-! ## Heads -/

/-- A token of a well-formed sentence keeps its distance from the first one. -/
theorem WellFormed.place_eq (hg : g.WellFormed) (hlen : offset + g.length ≤ wordSize)
    (hx : g[k]? = some x) (top : Option Nat) :
    x.place offset top = x.moveTo (offset + k) ((x.head.map (offset + ·)).or top) := by
  have hk : k < g.length := (List.getElem?_eq_some_iff.1 hx).1
  rw [Token.place, hg.id_eq k x hx, wrap_of_lt (by omega)]
  cases hhead : x.head with
  | none => rfl
  | some head =>
      have := hg.head_lt x (List.mem_of_getElem? hx) head hhead
      exact congrArg (fun p => x.moveTo (offset + k) (some p)) (wrap_of_lt (by omega))

/-- The anchor is a position so far. -/
theorem WellFormed.anchor?_lt (hf : f.WellFormed) (hlen : f.length ≤ wordSize) :
    ∀ a ∈ f.anchor? 0, a < f.heads.length := by
  intro a ha
  obtain ⟨r, hr, rfl⟩ := Option.map_eq_some_iff.1 ha
  obtain ⟨k, hk⟩ := List.mem_iff_getElem?.1 (List.mem_of_find?_eq_some hr)
  have hlt : k < f.length := (List.getElem?_eq_some_iff.1 hk).1
  rw [hf.id_eq k r hk, Nat.zero_add, wrap_of_lt (by omega), length_heads]
  exact hlt

/-- The heads of an attached sentence are grafted onto the anchor. -/
theorem heads_attach (hg : g.WellFormed) (hlen : f.length + g.length ≤ wordSize) :
    (f.attach g).heads = f.heads.graft g.heads (f.anchor? 0) := by
  rw [heads, attach, List.map_append, Parents.graft, length_heads, heads, heads, List.map_map,
    List.map_map]
  refine congrArg _ (List.map_congr_left fun t ht => ?_)
  obtain ⟨k, hk⟩ := List.mem_iff_getElem?.1 ht
  rw [Function.comp_apply, hg.place_eq hlen hk]
  rfl

section

variable (hf : f.WellFormed) (hg : g.WellFormed) (hlen : f.length + g.length ≤ wordSize)

include hf hg hlen

/-- What has been merged so far stays well-formed. -/
theorem WellFormed.attach : (f.attach g).WellFormed := by
  have hanchor := hf.anchor?_lt (by omega)
  refine .of_inRange ?_ (heads_attach hg hlen ▸ hf.inRange.graft hanchor hg.inRange)
  intro k t ht
  rcases Nat.lt_or_ge k f.length with hk | hk
  · rw [Fragment.attach, List.getElem?_append_left hk] at ht
    exact hf.id_eq k t ht
  · rw [Fragment.attach, List.getElem?_append_right hk, List.getElem?_map,
      Option.map_eq_some_iff] at ht
    obtain ⟨t, ht, rfl⟩ := ht
    rw [hg.place_eq hlen ht, Token.moveTo_id]
    omega

/-- The cycles so far and those of the next sentence are the cycles of both. -/
theorem headCycle_attach_iff : (f.attach g).HeadCycle ↔ f.HeadCycle ∨ g.HeadCycle := by
  rw [HeadCycle, heads_attach hg hlen]
  exact Parents.onCycle_graft_iff hf.inRange (hf.anchor?_lt (by omega))

end

/-! ## All sentences -/

/-- Merged sentences are well-formed. -/
theorem wellFormed_merge (hfs : ∀ f ∈ fs, f.WellFormed) (hlen : fs.flatten.length ≤ wordSize) :
    (merge fs).WellFormed := by
  -- The last sentence is attached to the others, so the induction takes sentences off the end.
  induction fs using List.reverseRecOn with
  | nil => exact ⟨by simp [merge, mergeFrom], by simp [merge, mergeFrom]⟩
  | append_singleton fs g ih =>
      rw [List.forall_mem_append, List.forall_mem_singleton] at hfs
      rw [List.flatten_append, List.length_append, List.flatten_singleton] at hlen
      rw [merge_concat]
      exact (ih hfs.1 (by omega)).attach hfs.2 (by rwa [length_merge])

/-- The cycles of merged sentences are those of the sentences. -/
theorem headCycle_merge_iff (hfs : ∀ f ∈ fs, f.WellFormed)
    (hlen : fs.flatten.length ≤ wordSize) : (merge fs).HeadCycle ↔ ∃ f ∈ fs, f.HeadCycle := by
  induction fs using List.reverseRecOn with
  | nil =>
      refine iff_of_false ?_ (by simp)
      rintro ⟨k, hk⟩
      exact absurd hk.lt_length (Nat.not_lt_zero k)
  | append_singleton fs g ih =>
      rw [List.forall_mem_append, List.forall_mem_singleton] at hfs
      rw [List.flatten_append, List.length_append, List.flatten_singleton] at hlen
      have hmerged := wellFormed_merge hfs.1 (by omega)
      rw [merge_concat, headCycle_attach_iff hmerged hfs.2 (by rwa [length_merge]),
        ih hfs.1 (by omega)]
      simp [or_and_right, exists_or]

end Fragment

end Entailment
