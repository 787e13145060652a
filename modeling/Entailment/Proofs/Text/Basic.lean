import Entailment.Text.Basic
import Mathlib.Data.List.Infix
import Mathlib.Tactic.Common

/-! # Lines, parts and joined texts

A text is cut into lines by its line feeds, is searched for a part or a character, and is put
together from strings with a separator between them.

* **`Text.lines_append_newline`** — a line feed cuts a text in two;
* **`Text.lines_flatMap_newline`** — lines that are ended by line feeds are read back;
* **`Text.getElem?_numbered`** — lines are numbered from one;
* **`Text.Printable`** — a text without control characters, such as stands on a line of its own;
* **`Text.occurs_iff`**, **`Text.occursIn_iff`** — a text occurs in another if it is a run of
  neighbouring characters of it;
* **`Text.splitAt?_eq_some_iff`** — a text is split where a character occurs first;
* **`Text.joinWith_inj`** — strings without the separator can be told from their joined text. -/

namespace Entailment.Text

/-! ## Lines -/

variable {l xs ys : List Char} {c : Char}

/-- A line feed ends the current line. -/
@[simp] theorem linesFrom_newline (acc cs : List Char) :
    linesFrom acc ('\n' :: cs) = (dropReturn acc).reverse :: linesFrom [] cs := rfl

/-- A character that ends no line belongs to it. -/
theorem linesFrom_cons (acc cs : List Char) (hc : c ≠ '\n') :
    linesFrom acc (c :: cs) = linesFrom (c :: acc) cs := by
  rw [linesFrom]
  exact hc

/-- Within a line too, a line feed cuts what follows off. -/
theorem linesFrom_append_newline (acc xs ys : List Char) :
    linesFrom acc (xs ++ '\n' :: ys) = linesFrom acc (xs ++ ['\n']) ++ lines ys := by
  induction xs generalizing acc with
  | nil => rfl
  | cons c xs ih =>
      by_cases hc : c = '\n'
      · simp [hc, ih]
      · rw [List.cons_append, List.cons_append, linesFrom_cons _ _ hc, linesFrom_cons _ _ hc, ih]

/-- The lines up to a line feed and those after it are read apart. -/
theorem lines_append_newline (xs ys : List Char) :
    lines (xs ++ '\n' :: ys) = lines (xs ++ ['\n']) ++ lines ys :=
  linesFrom_append_newline [] xs ys

/-- Whatever holds no line feed is read as part of one line. -/
theorem linesFrom_append (h : '\n' ∉ l) (acc cs : List Char) :
    linesFrom acc (l ++ cs) = linesFrom (l.reverse ++ acc) cs := by
  induction l generalizing acc with
  | nil => rfl
  | cons c l ih =>
      obtain ⟨hc, hl⟩ := not_or.1 (mt List.mem_cons.2 h)
      rw [List.cons_append, linesFrom_cons _ _ (Ne.symm hc), ih hl, List.reverse_cons,
        List.append_assoc]
      rfl

/-- Lines are numbered from one. -/
theorem getElem?_numbered (cs : List Char) (k : Nat) :
    (numbered cs)[k]? = (lines cs)[k]?.map fun line => (k + 1, line) := by
  rw [numbered, List.getElem?_map, List.getElem?_zipIdx, Option.map_map]
  exact congrArg (Option.map · _) (funext fun line => by simp [Nat.add_comm])

/-- Without their numbers, numbered lines are the lines. -/
theorem map_snd_numbered (cs : List Char) : (numbered cs).map Prod.snd = lines cs := by
  rw [numbered, List.map_map]
  exact List.zipIdx_map_fst 1 (lines cs)

/-! ## Printable texts -/

/-- A text without control characters. -/
def Printable (cs : List Char) : Prop := ∀ c ∈ cs, ' ' ≤ c

/-- Only the characters of the text are gone through. -/
instance (cs : List Char) : Decidable (Printable cs) := List.decidableBAll (' ' ≤ ·) cs

/-- The empty text is printable. -/
@[simp] theorem printable_nil : Printable [] := List.forall_mem_nil _

/-- Two texts are printable together if each of them is. -/
@[simp] theorem printable_append : Printable (xs ++ ys) ↔ Printable xs ∧ Printable ys :=
  List.forall_mem_append

/-- A text is printable if its first character and the rest are. -/
@[simp] theorem printable_cons : Printable (c :: xs) ↔ ' ' ≤ c ∧ Printable xs :=
  List.forall_mem_cons

/-- A part of a printable text is printable. -/
theorem Printable.sublist (h : Printable ys) (hsub : xs.Sublist ys) : Printable xs :=
  fun c hc => h c (hsub.subset hc)

/-- A control character is not in a printable text. -/
theorem Printable.not_mem (h : Printable xs) (hc : c < ' ') : c ∉ xs :=
  fun hmem => absurd (h c hmem) (Char.not_le.2 hc)

/-- No character of a printable text is taken for a part of the end of its line. -/
theorem dropReturn_reverse (h : Printable l) : dropReturn l.reverse = l.reverse := by
  unfold dropReturn
  split
  · next cs hcs =>
      have hmem : '\r' ∈ l := by
        rw [← List.mem_reverse, hcs]
        exact List.mem_cons_self
      exact absurd hmem (h.not_mem (by decide))
  · rfl

/-- Printable lines, each ended by a line feed, are read back. -/
theorem lines_flatMap_newline (ls : List (List Char)) (h : ∀ l ∈ ls, Printable l) :
    lines (ls.flatMap fun l => l ++ ['\n']) = ls := by
  induction ls with
  | nil => rfl
  | cons l ls ih =>
      obtain ⟨hl, hls⟩ := List.forall_mem_cons.1 h
      rw [List.flatMap_cons, List.append_assoc, List.singleton_append, lines,
        linesFrom_append (hl.not_mem (by decide)), List.append_nil, linesFrom_newline,
        dropReturn_reverse hl, List.reverse_reverse]
      exact congrArg (l :: ·) (ih hls)

/-! ## Searching -/

/-- A text occurs in another if it is a run of neighbouring characters. -/
theorem occurs_iff {needle cs : List Char} : occurs needle cs = true ↔ needle <:+: cs := by
  induction cs with
  | nil => rw [occurs, List.isEmpty_iff, List.infix_nil]
  | cons c cs ih =>
      rw [occurs, Bool.or_eq_true, List.isPrefixOf_iff_prefix, ih, List.infix_cons_iff]

/-- A string occurs in another if its characters are neighbours there. -/
theorem occursIn_iff {needle s : String} :
    occursIn needle s = true ↔ needle.toList <:+: s.toList :=
  occurs_iff

/-- A text is split at a character that does not occur in the first part. -/
theorem splitAt?_eq_some_iff {sep : Char} {cs before after : List Char} :
    splitAt? sep cs = some (before, after) ↔ cs = before ++ sep :: after ∧ sep ∉ before := by
  induction cs generalizing before with
  | nil => simp [splitAt?]
  | cons c cs ih =>
      rw [splitAt?]
      by_cases hc : c = sep
      · rw [if_pos hc]
        cases before with
        | nil => simp [hc]
        | cons b before => simp +contextual [hc]
      · rw [if_neg hc, Option.map_eq_some_iff]
        cases before with
        | nil => simp [hc]
        | cons b before =>
            simp only [Prod.exists, Prod.mk.injEq, List.cons_append, List.cons.injEq, List.mem_cons,
              not_or]
            constructor
            · rintro ⟨_, _, hsplit, ⟨rfl, rfl⟩, rfl⟩
              obtain ⟨hcs, hbefore⟩ := ih.1 hsplit
              exact ⟨⟨rfl, hcs⟩, Ne.symm hc, hbefore⟩
            · rintro ⟨⟨rfl, hcs⟩, -, hbefore⟩
              exact ⟨before, after, ih.2 ⟨hcs, hbefore⟩, ⟨rfl, rfl⟩, rfl⟩

/-! ## Joined strings -/

variable {sep : String} {xs ys : List String}

/-- The characters of joined strings are those of the strings, with the separator between. -/
theorem toList_joinWith (sep : String) (xs : List String) :
    (joinWith sep xs).toList = sep.toList.intercalate (xs.map String.toList) := by
  induction xs with
  | nil => simp
  | cons x xs ih => cases xs <;> simp_all [List.intercalate_cons_cons]

/-- Strings and further ones are joined with one more separator between them. -/
theorem joinWith_append (hxs : xs ≠ []) (hys : ys ≠ []) :
    joinWith sep (xs ++ ys) = joinWith sep xs ++ sep ++ joinWith sep ys := by
  induction xs with
  | nil => exact absurd rfl hxs
  | cons x xs ih =>
      cases xs with
      | nil => exact joinWith_cons_of_ne_nil sep x hys
      | cons y xs =>
          rw [List.cons_append, List.cons_append, joinWith_cons_cons, ← List.cons_append,
            ih (List.cons_ne_nil y xs), joinWith_cons_cons]
          simp only [String.append_assoc]

/-- Strings without the separating character can be told from their joined text. -/
theorem joinWith_inj {c : Char} (hc : sep.toList = [c]) (hxs : ∀ x ∈ xs, c ∉ x.toList)
    (hys : ∀ y ∈ ys, c ∉ y.toList) (hxne : xs ≠ []) (hyne : ys ≠ [])
    (h : joinWith sep xs = joinWith sep ys) : xs = ys := by
  have hsplit (zs : List String) (hzs : ∀ z ∈ zs, c ∉ z.toList) (hne : zs ≠ []) :
      (joinWith sep zs).toList.splitOn c = zs.map String.toList := by
    rw [toList_joinWith, hc]
    exact List.splitOn_intercalate c (List.forall_mem_map.2 hzs) (mt List.map_eq_nil_iff.1 hne)
  have hmap : xs.map String.toList = ys.map String.toList := by
    rw [← hsplit xs hxs hxne, h, hsplit ys hys hyne]
  exact List.map_injective_iff.2 (fun _ _ => String.toList_injective) hmap

end Entailment.Text
