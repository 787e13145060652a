import Entailment.Proofs.Sentence.Fields
import Entailment.Proofs.Sentence.Runs

/-! # Counting the fields of a line

The words of a text are its longest runs of characters that are not blank. Only spaces and tabs
separate the fields of a line, so that any other blank ends the split: it finds the words in front
of that blank, and all words of a line without one.

* **`Text.isPlain`** — a character after which a line may go on;
* **`maximalRuns_splitFields`** — splitting finds the words of the plain part of a line;
* **`separated_of_isPlain`** — the words of a plain line are its fields;
* **`length_lt_of_not_isPlain`** — a line that is not plain has further words. -/

namespace Entailment

namespace Text

variable {cs : List Char} {words : List (List Char)} {c : Char}

/-- A character after which a line may go on: any but the blanks that do not separate fields. -/
def isPlain (c : Char) : Bool := isGap c || !isBlank c

/-- A line may go on after a separator. -/
theorem isPlain_of_isGap (h : isGap c = true) : isPlain c = true := by simp [isPlain, h]

/-- A line may go on after what is no blank. -/
theorem isPlain_of_not_isBlank (h : isBlank c = false) : isPlain c = true := by simp [isPlain, h]

/-- A line ends before a blank that separates no fields. -/
theorem isPlain_eq_false_iff : isPlain c = false ↔ isGap c = false ∧ isBlank c = true := by
  simp [isPlain]

/-! ## Trimming -/

/-- Trimming leaves the part of a text between the blanks at its two ends. -/
theorem exists_append_trimmed (cs : List Char) :
    ∃ front back, cs = front ++ (trimmed cs ++ back) ∧ (∀ c ∈ front, isBlank c = true) ∧
      ∀ c ∈ back, isBlank c = true := by
  refine ⟨cs.takeWhile isBlank, (cs.dropWhile isBlank).rtakeWhile isBlank, ?_,
    fun c hc => List.mem_takeWhile_imp hc, fun c hc => List.mem_rtakeWhile_imp hc⟩
  calc cs = cs.takeWhile isBlank ++ cs.dropWhile isBlank := List.takeWhile_append_dropWhile.symm
    _ = _ := congrArg _ List.rdropWhile_append_rtakeWhile.symm

/-- A trimmed text does not end with a blank. -/
theorem isBlank_of_suffix_trimmed (h : [c] <:+ trimmed cs) : isBlank c = false := by
  obtain ⟨line, hline⟩ := h
  have hne : trimmed cs ≠ [] := by simp [← hline]
  have hlast : ¬isBlank ((trimmed cs).getLast hne) = true :=
    List.rdropWhile_last_not isBlank (cs.dropWhile isBlank) hne
  simpa [← hline] using hlast

/-- A text has the words that it has without the blanks at its two ends. -/
theorem maximalRuns_of_trimmed (h : MaximalRuns isBlank (trimmed cs) words) :
    MaximalRuns isBlank cs words := by
  obtain ⟨front, back, hcs, hfront, hback⟩ := exists_append_trimmed cs
  rw [hcs]
  exact (h.append_right hback).append_left hfront

/-- A text is plain, or a blank that separates no fields ends its plain part. -/
theorem takeWhile_isPlain_cases (cs : List Char) :
    (∀ c ∈ cs, isPlain c = true) ∨
      ∃ c rest, cs = cs.takeWhile isPlain ++ c :: rest ∧ isPlain c = false := by
  cases hrest : cs.dropWhile isPlain with
  | nil => exact .inl (List.dropWhile_eq_nil_iff.1 hrest)
  | cons c rest =>
      refine .inr ⟨c, rest, ?_, ?_⟩
      · rw [← hrest, List.takeWhile_append_dropWhile]
      · have hpos : 0 < (cs.dropWhile isPlain).length := by simp [hrest]
        simpa [hrest] using List.dropWhile_get_zero_not isPlain cs hpos

end Text

open Text

variable {cs rest : List Char} {words : List (List Char)} {state : Option (List Char)}

/-! ## The words that are found -/

/-- From any point of a line, splitting finds the words of its plain part, the field begun at that
point included. -/
theorem maximalRuns_splitFieldsFrom
    (hstate : ∀ field ∈ state, field ≠ [] ∧ ∀ c ∈ field, isBlank c = false) :
    MaximalRuns isBlank ((state.getD []).reverse ++ rest.takeWhile isPlain)
      (splitFieldsFrom state rest).1 := by
  -- A field is a run, whatever ends it.
  have hfield : ∀ {field xs : List Char} {runs : List (List Char)},
      (field ≠ [] ∧ ∀ c ∈ field, isBlank c = false) → (∀ c ∈ xs.head?, isBlank c = true) →
      MaximalRuns isBlank xs runs →
      MaximalRuns isBlank (field.reverse ++ xs) (field.reverse :: runs) := fun hf hend hxs =>
    hxs.run (by simpa using hf.1) (by simpa using hf.2) hend
  induction state, rest using splitFieldsFrom.induct with
  | case1 field => exact hfield (hstate field rfl) (by simp) .nil
  | case2 => exact .nil
  | case3 field c cs hc ih =>
      have hblank := isBlank_of_isGap hc
      simp only [splitFieldsFrom, hc, if_true, List.takeWhile_cons, isPlain_of_isGap hc]
      exact hfield (hstate field rfl) (by simpa using hblank) ((ih (by simp)).skip hblank)
  | case4 field c cs hgap hblank =>
      have hplain : isPlain c = false := isPlain_eq_false_iff.2 ⟨by simpa using hgap, hblank⟩
      simp only [splitFieldsFrom, hgap, hblank, if_true, List.takeWhile_cons, hplain]
      exact hfield (hstate field rfl) (by simp) .nil
  | case5 field c cs hgap hblank ih =>
      have hc : isBlank c = false := Bool.of_not_eq_true hblank
      simp only [splitFieldsFrom, hgap, hblank, Bool.false_eq_true, if_false, List.takeWhile_cons,
        isPlain_of_not_isBlank hc, if_true]
      -- The character goes from the rest of the line to the end of the field.
      simpa using ih (by simpa [hc] using (hstate field rfl).2)
  | case6 c cs hc ih =>
      simp only [splitFieldsFrom, hc, if_true, List.takeWhile_cons, isPlain_of_isGap hc]
      exact (ih (by simp)).skip (isBlank_of_isGap hc)
  | case7 c cs hgap hblank =>
      have hplain : isPlain c = false := isPlain_eq_false_iff.2 ⟨by simpa using hgap, hblank⟩
      simp only [splitFieldsFrom, hgap, hblank, if_true, List.takeWhile_cons, hplain]
      exact .nil
  | case8 c cs hgap hblank ih =>
      have hc : isBlank c = false := Bool.of_not_eq_true hblank
      simp only [splitFieldsFrom, hgap, hblank, Bool.false_eq_true, if_false, List.takeWhile_cons,
        isPlain_of_not_isBlank hc, if_true]
      simpa using ih (by simp [hc])

/-- Splitting a line finds the words of its plain part. -/
theorem maximalRuns_splitFields (cs : List Char) :
    MaximalRuns isBlank (cs.takeWhile isPlain) (splitFields cs).1 :=
  maximalRuns_splitFieldsFrom (fun _ hfield => absurd hfield (Option.not_mem_none _))

/-! ## Lines that are plain -/

/-- The rest of a line that is plain and does not end with a blank. -/
structure Text.PlainRest (cs : List Char) : Prop where
  /-- The line may go on after each character. -/
  isPlain : ∀ c ∈ cs, isPlain c = true
  /-- The last character, if there is one, is not a blank. -/
  last : ∀ c, [c] <:+ cs → isBlank c = false

namespace Text.PlainRest

variable {c : Char}

/-- The rest goes on after its first character. -/
theorem tail (h : PlainRest (c :: cs)) : PlainRest cs where
  isPlain := (List.forall_mem_cons.1 h.isPlain).2
  last x hx := h.last x (hx.trans (List.suffix_cons c cs))

/-- A blank in it separates fields. -/
theorem isGap (h : PlainRest (c :: cs)) (hc : isBlank c = true) : Text.isGap c = true := by
  simpa [Text.isPlain, hc] using (List.forall_mem_cons.1 h.isPlain).1

/-- A separator is not the end of it. -/
theorem ne_nil (h : PlainRest (c :: cs)) (hc : Text.isGap c = true) : cs ≠ [] := by
  rintro rfl
  have hblank := h.last c List.suffix_rfl
  rw [isBlank_of_isGap hc] at hblank
  cases hblank

/-- A trimmed line of plain characters is such a rest. -/
theorem of_trimmed (h : ∀ c ∈ trimmed cs, Text.isPlain c = true) : PlainRest (trimmed cs) where
  isPlain := h
  last _ hc := isBlank_of_suffix_trimmed hc

end Text.PlainRest

/-- The rest of a plain line is used up. -/
theorem splitFieldsFrom_of_plainRest (h : PlainRest rest) (hne : state.isSome ∨ rest ≠ []) :
    (splitFieldsFrom state rest).2 = true := by
  induction state, rest using splitFieldsFrom.induct with
  | case1 field => rfl
  | case2 => simp at hne
  | case3 field c cs hc ih | case6 c cs hc ih =>
      simp only [splitFieldsFrom, hc, if_true]
      exact ih h.tail (.inr (h.ne_nil hc))
  | case4 field c cs hc hblank | case7 c cs hc hblank => exact absurd (h.isGap hblank) hc
  | case5 field c cs hgap hblank ih | case8 c cs hgap hblank ih =>
      simp only [splitFieldsFrom, hgap, hblank, Bool.false_eq_true, if_false]
      exact ih h.tail (.inl rfl)

/-- The words of a plain line are its fields. -/
theorem separated_of_isPlain (hne : trimmed cs ≠ []) (hplain : ∀ c ∈ trimmed cs, isPlain c = true)
    (hwords : MaximalRuns isBlank (trimmed cs) words) : Separated (trimmed cs) words := by
  have hfound := maximalRuns_splitFields (trimmed cs)
  rw [List.takeWhile_eq_self_iff.2 hplain] at hfound
  refine splitFields_eq_iff.1 (Prod.ext (hfound.unique hwords) ?_)
  exact splitFieldsFrom_of_plainRest (.of_trimmed hplain) (.inr hne)

/-- A line that is not plain has more words than its plain part. -/
theorem length_lt_of_not_isPlain {plainWords : List (List Char)}
    (hplain : ¬∀ c ∈ trimmed cs, isPlain c = true) (hwords : MaximalRuns isBlank (trimmed cs) words)
    (hplainWords : MaximalRuns isBlank ((trimmed cs).takeWhile isPlain) plainWords) :
    plainWords.length < words.length := by
  obtain ⟨c, rest, hcs, hc⟩ := (takeWhile_isPlain_cases (trimmed cs)).resolve_left hplain
  have hblank := (isPlain_eq_false_iff.1 hc).2
  obtain ⟨restWords, hrest⟩ := exists_maximalRuns isBlank rest
  have hall := hplainWords.append_cons hblank hrest
  rw [← hcs] at hall
  rw [hwords.unique hall, List.length_append, Nat.lt_add_right_iff_pos, List.length_pos_iff]
  -- The last character of the line is not a blank, and so comes after the one at `c`.
  rcases List.eq_nil_or_concat rest with rfl | ⟨rest, d, rfl⟩
  · rw [isBlank_of_suffix_trimmed ⟨_, hcs.symm⟩] at hblank
    cases hblank
  · have hlast : [d] <:+ trimmed cs :=
      ⟨(trimmed cs).takeWhile isPlain ++ c :: rest, by simpa using hcs.symm⟩
    exact hrest.ne_nil (by simp) (isBlank_of_suffix_trimmed hlast)

end Entailment
