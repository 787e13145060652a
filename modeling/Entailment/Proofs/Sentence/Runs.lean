import Entailment.Proofs.Text.Basic
import Entailment.Sentence.Reader
import Mathlib.Tactic.Common

/-! # The lines of each sentence

Some elements of a list separate the others. What stands between them falls into runs, each as long
as it can be.

* **`MaximalRuns`** — the runs of a list, in order;
* **`maximalRuns_iff`** — a list has one choice of runs, which splitting at the separators finds;
* **`maximalRuns_sentenceRuns`** — the lines of the sentences of a text are the runs of its lines
  that are not blank;
* **`length_sentenceRuns_le`** — they are no more than the text has characters. -/

namespace Entailment

/-! ## Runs between separators -/

section Runs

variable {α β : Type} {sep : α → Bool} {x : α} {xs ys : List α} {runs runs' : List (List α)}

/-- The runs of a list: no element of a run separates, and a run ends only where the list ends or an
element separates. -/
inductive MaximalRuns (sep : α → Bool) : List α → List (List α) → Prop
  | nil : MaximalRuns sep [] []
  | skip {x : α} {xs : List α} {runs : List (List α)} (hx : sep x = true)
      (hxs : MaximalRuns sep xs runs) : MaximalRuns sep (x :: xs) runs
  | run {run xs : List α} {runs : List (List α)} (hne : run ≠ [])
      (hrun : ∀ x ∈ run, sep x = false) (hend : ∀ x ∈ xs.head?, sep x = true)
      (hxs : MaximalRuns sep xs runs) : MaximalRuns sep (run ++ xs) (run :: runs)

/-- One element may be a run. -/
theorem MaximalRuns.single (hx : sep x = false) (hend : ∀ y ∈ xs.head?, sep y = true)
    (h : MaximalRuns sep xs runs) : MaximalRuns sep (x :: xs) ([x] :: runs) :=
  .run (List.cons_ne_nil x []) (List.forall_mem_singleton.2 hx) hend h

/-- A list with one more element in front has runs, if it has runs without it. -/
theorem MaximalRuns.exists_cons (x : α) (h : MaximalRuns sep xs runs) :
    ∃ runs', MaximalRuns sep (x :: xs) runs' := by
  cases hx : sep x with
  | true => exact ⟨runs, h.skip hx⟩
  | false =>
      -- The element extends the first run, unless a separator stands between the two.
      cases h with
      | nil => exact ⟨[[x]], .single hx (by simp) .nil⟩
      | skip hy hys => exact ⟨[x] :: runs, .single hx (by simpa using hy) (hys.skip hy)⟩
      | @run first rest tail _ hfirst hend hrest =>
          exact ⟨(x :: first) :: tail,
            .run (List.cons_ne_nil _ _) (List.forall_mem_cons.2 ⟨hx, hfirst⟩) hend hrest⟩

/-- Every list has runs. -/
theorem exists_maximalRuns (sep : α → Bool) (xs : List α) : ∃ runs, MaximalRuns sep xs runs := by
  induction xs with
  | nil => exact ⟨[], .nil⟩
  | cons x xs ih =>
      obtain ⟨runs, h⟩ := ih
      exact h.exists_cons x

/-- The runs are what splitting at the separators leaves besides empty lists. -/
theorem MaximalRuns.eq_filter_splitOnP (h : MaximalRuns sep xs runs) :
    runs = (xs.splitOnP sep).filter fun run => !run.isEmpty := by
  induction h with
  | nil => simp
  | skip hx _ ih => simpa [List.splitOnP_cons_eq_if_modifyHead, hx] using ih
  | @run run xs runs hne hrun hend _ ih =>
      have hne : (!run.isEmpty) = true := by simpa using hne
      -- A run is one piece of the split: it ends with the list or at a separator.
      cases xs with
      | nil =>
          rw [List.append_nil, List.splitOnP_eq_singleton hrun]
          simp [hne, ih]
      | cons x xs =>
          have hx : sep x = true := hend x rfl
          rw [List.splitOnP_append_cons _ _ hx, List.splitOnP_eq_singleton hrun]
          simp [List.splitOnP_cons_eq_if_modifyHead, hx, hne] at ih ⊢
          exact ih

/-- A list has one choice of runs, which splitting at the separators finds. -/
theorem maximalRuns_iff :
    MaximalRuns sep xs runs ↔ runs = (xs.splitOnP sep).filter fun run => !run.isEmpty := by
  refine ⟨MaximalRuns.eq_filter_splitOnP, ?_⟩
  rintro rfl
  obtain ⟨runs, h⟩ := exists_maximalRuns sep xs
  rwa [← h.eq_filter_splitOnP]

/-- A list has one choice of runs. -/
theorem MaximalRuns.unique (h : MaximalRuns sep xs runs) (h' : MaximalRuns sep xs runs') :
    runs = runs' := (maximalRuns_iff.1 h).trans (maximalRuns_iff.1 h').symm

/-- The runs of the images of the elements are the images of the runs. -/
theorem MaximalRuns.map {sep : β → Bool} {f : α → β}
    (h : MaximalRuns (fun x => sep (f x)) xs runs) :
    MaximalRuns sep (xs.map f) (runs.map (List.map f)) := by
  induction h with
  | nil => exact .nil
  | skip hx _ ih => exact ih.skip hx
  | run hne hrun hend _ ih =>
      rw [List.map_append]
      exact .run (by simpa using hne) (by simpa using hrun) (by simpa using hend) ih

/-- Together the runs are the elements that do not separate. -/
theorem MaximalRuns.flatten_eq (h : MaximalRuns sep xs runs) :
    runs.flatten = xs.filter fun x => !sep x := by
  induction h with
  | nil => rfl
  | skip hx _ ih => simpa [hx] using ih
  | @run run xs runs _ hrun _ _ ih =>
      have hall : (run.filter fun x => !sep x) = run := List.filter_eq_self.2 (by simpa using hrun)
      rw [List.flatten_cons, List.filter_append, hall, ih]

/-- A list of separators has no runs. -/
theorem MaximalRuns.of_all (h : ∀ x ∈ xs, sep x = true) : MaximalRuns sep xs [] := by
  induction xs with
  | nil => exact .nil
  | cons x xs ih =>
      obtain ⟨hx, hxs⟩ := List.forall_mem_cons.1 h
      exact (ih hxs).skip hx

/-- A separator between two lists keeps their runs apart. -/
theorem MaximalRuns.append_cons (h : MaximalRuns sep xs runs) (hx : sep x = true)
    (h' : MaximalRuns sep ys runs') : MaximalRuns sep (xs ++ x :: ys) (runs ++ runs') := by
  induction h with
  | nil => exact h'.skip hx
  | skip hy _ ih => exact ih.skip hy
  | @run run xs runs hne hrun hend _ ih =>
      rw [List.append_assoc]
      refine ih.run hne hrun fun y hy => ?_
      cases xs with
      | nil =>
          cases hy
          exact hx
      | cons z xs => exact hend y hy

/-- Separators in front of a list add no run. -/
theorem MaximalRuns.append_left (h : MaximalRuns sep ys runs) (hxs : ∀ x ∈ xs, sep x = true) :
    MaximalRuns sep (xs ++ ys) runs := by
  induction xs with
  | nil => exact h
  | cons x xs ih =>
      obtain ⟨hx, hxs⟩ := List.forall_mem_cons.1 hxs
      exact (ih hxs).skip hx

/-- Separators behind a list add no run. -/
theorem MaximalRuns.append_right (h : MaximalRuns sep xs runs) (hys : ∀ y ∈ ys, sep y = true) :
    MaximalRuns sep (xs ++ ys) runs := by
  cases ys with
  | nil => simpa using h
  | cons y ys =>
      obtain ⟨hy, hys⟩ := List.forall_mem_cons.1 hys
      simpa using h.append_cons hy (.of_all hys)

/-- A list with an element that does not separate has a run. -/
theorem MaximalRuns.ne_nil (h : MaximalRuns sep xs runs) (hmem : x ∈ xs) (hx : sep x = false) :
    runs ≠ [] := by
  rintro rfl
  have hfilter : x ∈ xs.filter fun x => !sep x := List.mem_filter.2 ⟨hmem, by simp [hx]⟩
  rw [← h.flatten_eq] at hfilter
  exact absurd hfilter List.not_mem_nil

end Runs

/-! ## The runs of the lines of a text -/

/-- The lines of a text without blanks at their ends. -/
def plainLines (text : String) : List (List Char) := (Text.lines text.toList).map Text.trimmed

/-- The lines of each sentence of a text, without their numbers. -/
def plainRuns (text : String) : List (List (List Char)) :=
  (sentenceRuns text).map (List.map Prod.snd)

variable (text : String)

/-- Without their numbers, trimmed lines are the plain lines. -/
theorem map_snd_trimmedLines : (trimmedLines text).map Prod.snd = plainLines text := by
  rw [trimmedLines, plainLines, ← Text.map_snd_numbered, List.map_map, List.map_map]
  rfl

/-- The lines of the sentences of a text are the runs of its lines that are not blank. -/
theorem maximalRuns_sentenceRuns :
    MaximalRuns List.isEmpty (plainLines text) (plainRuns text) := by
  have hruns := maximalRuns_iff.2 (Eq.refl (sentenceRuns text))
  rw [← map_snd_trimmedLines]
  exact hruns.map

/-- A line of a sentence is a line of the text that is not blank. -/
theorem mem_of_mem_sentenceRuns {run : List TrimmedLine} {p : TrimmedLine}
    (hrun : run ∈ sentenceRuns text) (hp : p ∈ run) : p ∈ trimmedLines text ∧ p.2 ≠ [] := by
  have hflat := (maximalRuns_iff.2 (Eq.refl (sentenceRuns text))).flatten_eq
  have hmem : p ∈ (sentenceRuns text).flatten := List.mem_flatten_of_mem hrun hp
  rw [hflat, List.mem_filter] at hmem
  exact ⟨hmem.1, by simpa using hmem.2⟩

/-- A sentence has a line. -/
theorem ne_nil_of_mem_sentenceRuns {run : List TrimmedLine} (hrun : run ∈ sentenceRuns text) :
    run ≠ [] := by
  simpa using (List.mem_filter.1 hrun).2

/-- There are no more lines than characters, those of the line read so far included. -/
theorem Text.length_linesFrom_le (acc cs : List Char) :
    (linesFrom acc cs).length ≤ acc.length + cs.length := by
  fun_induction linesFrom acc cs with
  | case1 => exact Nat.zero_le _
  | case2 acc hacc =>
      have hpos : 0 < acc.length := List.length_pos_iff.2 (by simpa using hacc)
      simp only [List.length_cons, List.length_nil]
      omega
  | case3 acc cs ih =>
      simp only [List.length_cons, List.length_nil] at ih ⊢
      omega
  | case4 acc c cs _ ih =>
      simp only [List.length_cons] at ih ⊢
      omega

/-- There are no more lines than characters. -/
theorem Text.length_lines_le (cs : List Char) : (lines cs).length ≤ cs.length := by
  simpa [lines] using length_linesFrom_le [] cs

/-- The sentences of a text have no more lines than the text has characters. -/
theorem length_flatten_plainRuns_le : (plainRuns text).flatten.length ≤ text.length := by
  rw [(maximalRuns_sentenceRuns text).flatten_eq]
  calc ((plainLines text).filter fun line => !line.isEmpty).length
      ≤ (plainLines text).length := List.length_filter_le _ _
    _ = (Text.lines text.toList).length := List.length_map _
    _ ≤ text.toList.length := Text.length_lines_le _
    _ = text.length := String.length_toList

/-- No sentence has more lines than the text has characters. -/
theorem length_le_of_mem_plainRuns {run : List (List Char)} (hrun : run ∈ plainRuns text) :
    run.length ≤ text.length :=
  Nat.le_trans (List.sublist_flatten_of_mem hrun).length_le (length_flatten_plainRuns_le text)

end Entailment
