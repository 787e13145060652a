import Entailment.Proofs.Sentence.Merge

/-! # Merging in increments

What has been merged is a sentence like any other, so that sentences that come later can be merged
with it. Its first root is the anchor whether it counts as one sentence or as several, and merging
it once more moves no token. The same holds of a merge that goes from token to token and tells the
sentences apart by their numbers.

* **`Token.Placed`** — a token that merging puts where it stands;
* **`Fragment.placed_merge`** — the tokens of merged sentences are placed;
* **`Merging`**, **`Fragment.mergeTokenwise`** — the merge that goes from token to token;
* **`Fragment.mergeTokenwise_eq_merge`** — it comes to the same;
* **`merge_append_eq_merge_cons`** — sentences are merged in increments. -/

namespace Entailment

/-! ## Placed tokens -/

/-- A token that has been placed: its numbers are words, and it has no root path. -/
structure Token.Placed (t : Token) : Prop where
  /-- The position is a word. -/
  id_lt : t.id < wordSize
  /-- The governor is a word. -/
  head_lt : ∀ head ∈ t.head, head < wordSize
  /-- A root path does not survive a move. -/
  path_eq_none : t.path = none

namespace Token

variable {t : Token} {head offset : Nat} {anchor : Option Nat}

/-- A root that is placed comes under the anchor. -/
theorem place_of_root (h : t.head = none) :
    t.place offset anchor = t.moveTo (wrap (offset + t.id)) anchor := by
  rw [place, h]

/-- Any other token that is placed keeps its governor, moved along with it. -/
theorem place_of_head (h : t.head = some head) :
    t.place offset anchor = t.moveTo (wrap (offset + t.id)) (some (wrap (offset + head))) := by
  rw [place, h]

/-- Placing a token makes it a placed one. -/
theorem placed_place (hanchor : ∀ a ∈ anchor, a < wordSize) : (t.place offset anchor).Placed where
  id_lt := wrap_lt _
  head_lt := by
    cases hhead : t.head with
    | none =>
        rw [place_of_root hhead]
        exact hanchor
    | some head =>
        rw [place_of_head hhead]
        rintro _ ⟨⟩
        exact wrap_lt _
  path_eq_none := rfl

/-- A token without a root path that moves to where it is stays the same. -/
theorem moveTo_self (h : t.path = none) : t.moveTo t.id t.head = t := by
  cases t
  cases h
  rfl

/-- A placed token stays where it is when it is placed in front. -/
theorem Placed.place_eq (h : t.Placed) : t.place 0 none = t := by
  cases hhead : t.head with
  | none =>
      rw [place_of_root hhead, Nat.zero_add, wrap_of_lt h.id_lt, ← hhead,
        moveTo_self h.path_eq_none]
  | some head =>
      rw [place_of_head hhead, Nat.zero_add, Nat.zero_add, wrap_of_lt h.id_lt,
        wrap_of_lt (h.head_lt head hhead), ← hhead, moveTo_self h.path_eq_none]

end Token

namespace Fragment

variable {f : Fragment} {offset : Nat}

/-- A token with a governor is no anchor. -/
theorem anchor?_singleton_of_head {t : Token} {head : Nat} (h : t.head = some head) :
    anchor? offset [t] = none := by
  simp [anchor?, Token.isRoot, h]

/-- A root by itself is the anchor. -/
theorem anchor?_singleton_of_root {t : Token} (h : t.head = none) :
    anchor? offset [t] = some (wrap (offset + t.id)) := by
  simp [anchor?, Token.isRoot, h]

/-- The anchor of a sentence is its first token if that is a root, or else that of the others. -/
theorem anchor?_cons (t : Token) (f : Fragment) :
    anchor? offset (t :: f) = (anchor? offset [t]).or (f.anchor? offset) := by
  cases h : t.head with
  | none => simp [anchor?, Token.isRoot, h]
  | some head => simp [anchor?, Token.isRoot, h]

/-- An anchor is a word. -/
theorem anchor?_lt_wordSize : ∀ a ∈ f.anchor? offset, a < wordSize := by
  intro a ha
  obtain ⟨t, -, rfl⟩ := Option.map_eq_some_iff.1 ha
  exact wrap_lt _

/-- The tokens of merged sentences are placed. -/
theorem placed_merge (fs : List Fragment) : ∀ t ∈ merge fs, t.Placed := by
  induction fs using List.reverseRecOn with
  | nil => exact List.forall_mem_nil _
  | append_singleton fs g ih =>
      rw [merge_concat, attach, List.forall_mem_append, List.forall_mem_map]
      exact ⟨ih, fun t _ => Token.placed_place anchor?_lt_wordSize⟩

/-- In front of everything else, placed tokens are attached as they are. -/
theorem nil_attach_of_placed (hf : ∀ t ∈ f, t.Placed) : attach [] f = f := by
  show f.map (Token.place 0 none) = f
  exact (List.map_congr_left fun t ht => (hf t ht).place_eq).trans (List.map_id f)

/-- What has been merged can take the place of the sentences that it was merged from. -/
theorem merge_cons_merge (xs ys : List Fragment) : merge (merge xs :: ys) = merge (xs ++ ys) := by
  rw [merge_append, merge_eq_foldl (_ :: ys), List.foldl_cons,
    nil_attach_of_placed (placed_merge xs)]

end Fragment

/-! ## From token to token -/

/-- What is known between two tokens of a merge that goes from token to token. -/
structure Merging where
  /-- The tokens so far. -/
  merged : Fragment
  /-- The number of the sentence that has the first root, and the new id of this root. -/
  anchor : Option (Nat × Nat)

namespace Merging

variable {s : Merging} {sentence : Nat}

/-- One more token, of the sentence with the given number, whose first token stands at `offset`. -/
def takeToken (sentence offset : Nat) (s : Merging) (t : Token) : Merging :=
  let id := wrap (offset + t.id)
  match t.head, s.anchor with
  | some head, _ =>
    { s with merged := s.merged ++ [t.moveTo id (some (wrap (offset + head)))] }
  | none, some (first, root) =>
    -- The other roots of the sentence that brought the anchor stay roots.
    { s with merged := s.merged ++ [t.moveTo id (if first = sentence then none else some root)] }
  | none, none => ⟨s.merged ++ [t.moveTo id none], some (sentence, id)⟩

/-- All tokens of one more sentence. -/
def takeSentence (s : Merging) (p : Fragment × Nat) : Merging :=
  p.1.foldl (takeToken p.2 s.merged.length) s

/-- What governs the roots of a sentence: the anchor, unless it is one of them. -/
def governor (s : Merging) (sentence : Nat) : Option Nat :=
  s.anchor.bind fun a => if a.1 = sentence then none else some a.2

/-! ### One token -/

/-- A token is placed, and the first root becomes the anchor. -/
theorem takeToken_eq (sentence offset : Nat) (s : Merging) (t : Token) :
    s.takeToken sentence offset t =
      ⟨s.merged ++ [t.place offset (s.governor sentence)],
        s.anchor.or ((Fragment.anchor? offset [t]).map (sentence, ·))⟩ := by
  obtain ⟨merged, anchor⟩ := s
  cases hhead : t.head with
  | some head =>
      rw [Token.place_of_head hhead, Fragment.anchor?_singleton_of_head hhead, Option.map_none,
        Option.or_none]
      simp [takeToken, hhead]
  | none =>
      rw [Token.place_of_root hhead, Fragment.anchor?_singleton_of_root hhead]
      cases anchor with
      | none => simp [takeToken, hhead, governor]
      | some a => simp [takeToken, hhead, governor]

/-- What governs the roots of a sentence does not change while its tokens are taken, for its own
roots do not govern each other. -/
theorem governor_or (merged : Fragment) (anchor : Option (Nat × Nat)) (root : Option Nat)
    (sentence : Nat) :
    governor ⟨merged, anchor.or (root.map (sentence, ·))⟩ sentence =
      governor ⟨merged, anchor⟩ sentence := by
  cases anchor with
  | some a => rfl
  | none => cases root <;> simp [governor]

/-- The anchor of an earlier sentence governs the roots. -/
theorem governor_of_lt (h : ∀ a ∈ s.anchor, a.1 < sentence) :
    s.governor sentence = s.anchor.map Prod.snd := by
  rw [governor]
  cases hanchor : s.anchor with
  | none => rfl
  | some a => exact if_neg (h a hanchor).ne

/-! ### Sentences -/

/-- The tokens of a sentence are placed one by one, and its first root becomes the anchor if there
was none. -/
theorem foldl_takeToken (sentence offset : Nat) (s : Merging) (f : Fragment) :
    f.foldl (takeToken sentence offset) s =
      ⟨s.merged ++ f.map (Token.place offset (s.governor sentence)),
        s.anchor.or ((f.anchor? offset).map (sentence, ·))⟩ := by
  -- A root that becomes the anchor on the way changes the state, but not what governs the others.
  induction f generalizing s with
  | nil => simp [Fragment.anchor?]
  | cons t f ih =>
      have hgovernor : (s.takeToken sentence offset t).governor sentence =
          s.governor sentence := by
        rw [takeToken_eq]
        exact governor_or ..
      rw [List.foldl_cons, ih, hgovernor, takeToken_eq, Fragment.anchor?_cons t f,
        List.append_assoc, Option.or_assoc, ← Option.map_or]
      rfl

/-- Sentences that are numbered from `n` on are merged behind what has been merged so far, if no
sentence with these numbers has brought the anchor. -/
theorem foldl_takeSentence (s : Merging) (fs : List Fragment) (n : Nat)
    (hn : ∀ a ∈ s.anchor, a.1 < n) :
    ((fs.zipIdx n).foldl takeSentence s).merged =
      s.merged ++ Fragment.mergeFrom s.merged.length (s.anchor.map Prod.snd) fs := by
  -- Sentences that come later have greater numbers, so the anchor is never one of their roots.
  induction fs generalizing s n with
  | nil => simp [Fragment.mergeFrom]
  | cons f fs ih =>
      have hsentence := foldl_takeToken n s.merged.length s f
      rw [governor_of_lt hn] at hsentence
      have hanchor : ∀ a ∈ (s.takeSentence (f, n)).anchor, a.1 < n + 1 := by
        intro a ha
        rw [takeSentence, hsentence, Option.mem_def, Option.or_eq_some_iff] at ha
        rcases ha with ha | ⟨-, ha⟩
        · exact Nat.lt_succ_of_lt (hn a ha)
        · obtain ⟨root, -, rfl⟩ := Option.map_eq_some_iff.1 ha
          exact Nat.lt_succ_self n
      have hroot : ((f.anchor? s.merged.length).map (n, ·)).map Prod.snd =
          f.anchor? s.merged.length := by simp
      rw [List.zipIdx_cons, List.foldl_cons, ih _ _ hanchor, takeSentence, hsentence,
        Fragment.mergeFrom, List.append_assoc, List.length_append, List.length_map, Option.map_or,
        hroot]

end Merging

/-- The sentences of one text as a single fragment, merged from token to token. -/
def Fragment.mergeTokenwise (fs : List Fragment) : Fragment :=
  (fs.zipIdx.foldl Merging.takeSentence ⟨[], none⟩).merged

/-- To go from token to token makes no difference. -/
theorem Fragment.mergeTokenwise_eq_merge (fs : List Fragment) : mergeTokenwise fs = merge fs :=
  Merging.foldl_takeSentence ⟨[], none⟩ fs 0 (by simp)

/-- Sentences can be merged in increments: what has been merged so far takes the place of the
sentences that it was merged from, as one sentence in front of those that follow. It makes no
difference whether the merge goes from sentence to sentence, or from token to token. -/
theorem merge_append_eq_merge_cons (xs ys : List Fragment) :
    Fragment.merge (xs ++ ys) = Fragment.merge (Fragment.merge xs :: ys) ∧
      Fragment.mergeTokenwise (xs ++ ys) =
        Fragment.mergeTokenwise (Fragment.mergeTokenwise xs :: ys) ∧
      Fragment.mergeTokenwise (xs ++ ys) = Fragment.merge (xs ++ ys) := by
  simp only [Fragment.mergeTokenwise_eq_merge, Fragment.merge_cons_merge, and_self]

-- Only what is in front can be merged first: later sentences would be attached to each other.
example :
    let run : Fragment := [Token.make 0 "run" "run" "VB" none "ROOT"]
    Fragment.merge [run, run, run] ≠ Fragment.merge [run, Fragment.merge [run, run]] := by
  decide

end Entailment
