import Entailment.Sentence.Reader
import Mathlib.Data.List.DropRight

/-! # The fields of a line

Fields are free of blanks of every kind, but only spaces and tabs stand between them.

* **`Text.IsField`**, **`Text.IsGap`** — what a field is, and what stands between two fields;
* **`Text.Separated`** — a line that its fields use up;
* **`splitFields_eq_iff`** — splitting a trimmed line finds its fields exactly if they use the line
  up. -/

namespace Entailment

namespace Text

variable {cs line : List Char} {c : Char}

/-- At least one character, and no blank. -/
structure IsField (cs : List Char) : Prop where
  /-- There is a character. -/
  ne_nil : cs ≠ []
  /-- None of them is a blank. -/
  isBlank_eq_false : ∀ c ∈ cs, isBlank c = false

/-- At least one character, and each of them a space or a tab. -/
structure IsGap (cs : List Char) : Prop where
  /-- There is a character. -/
  ne_nil : cs ≠ []
  /-- All of them are spaces and tabs. -/
  isGap : ∀ c ∈ cs, isGap c = true

/-- A line that consists of fields, with a gap between each two. -/
inductive Separated : List Char → List (List Char) → Prop
  | last {field : List Char} (hfield : IsField field) : Separated field [field]
  | more {field gap line : List Char} {fields : List (List Char)} (hfield : IsField field)
      (hgap : IsGap gap) (hline : Separated line fields) :
      Separated (field ++ gap ++ line) (field :: fields)

/-- No separator of fields stands in a field. -/
theorem isGap_eq_false_of_isBlank (h : isBlank c = false) : isGap c = false := by
  rw [← Bool.not_eq_true] at h ⊢
  exact mt isBlank_of_isGap h

/-- A field grows by any character that is not blank. -/
theorem IsField.concat {field : List Char} (hfield : ∀ c ∈ field, isBlank c = false)
    (hc : isBlank c = false) : IsField (field ++ [c]) where
  ne_nil := by simp
  isBlank_eq_false := by
    simp only [List.mem_append, List.mem_singleton]
    rintro x (hx | rfl)
    · exact hfield x hx
    · exact hc

/-- A trimmed line does not begin with a blank. -/
theorem isBlank_of_trimmed_eq_cons (h : trimmed cs = c :: line) : isBlank c = false := by
  obtain ⟨tail, htail⟩ : trimmed cs <+: cs.dropWhile isBlank := List.rdropWhile_prefix _ _
  rw [h, List.cons_append] at htail
  have hpos : 0 < (cs.dropWhile isBlank).length := by simp [← htail]
  have hfirst := List.dropWhile_get_zero_not isBlank cs hpos
  simpa [← htail] using hfirst

end Text

open Text

variable {field gap cs rest : List Char} {fields : List (List Char)}

/-! ## From the fields to the split -/

/-- A field is read to its end. -/
theorem splitFieldsFrom_some_append (hcs : ∀ c ∈ cs, isBlank c = false) :
    splitFieldsFrom (some field) (cs ++ rest) =
      splitFieldsFrom (some (cs.reverse ++ field)) rest := by
  induction cs generalizing field with
  | nil => rfl
  | cons c cs ih =>
      obtain ⟨hc, hcs⟩ := List.forall_mem_cons.1 hcs
      simp [splitFieldsFrom, isGap_eq_false_of_isBlank hc, hc, ih hcs]

/-- The first character that is not blank begins a field. -/
theorem splitFieldsFrom_none_append (hcs : IsField cs) :
    splitFieldsFrom none (cs ++ rest) = splitFieldsFrom (some cs.reverse) rest := by
  cases cs with
  | nil => exact absurd rfl hcs.ne_nil
  | cons c cs =>
      obtain ⟨hc, hcs⟩ := List.forall_mem_cons.1 hcs.isBlank_eq_false
      simp [splitFieldsFrom, isGap_eq_false_of_isBlank hc, hc, splitFieldsFrom_some_append hcs]

/-- Separators are passed over. -/
theorem splitFieldsFrom_none_gap (hgap : ∀ c ∈ gap, isGap c = true) :
    splitFieldsFrom none (gap ++ rest) = splitFieldsFrom none rest := by
  induction gap with
  | nil => rfl
  | cons c gap ih =>
      obtain ⟨hc, hgap⟩ := List.forall_mem_cons.1 hgap
      simp [splitFieldsFrom, hc, ih hgap]

/-- A gap ends a field. -/
theorem splitFieldsFrom_some_gap (hgap : IsGap gap) :
    splitFieldsFrom (some field) (gap ++ rest) =
      (field.reverse :: (splitFieldsFrom none rest).1, (splitFieldsFrom none rest).2) := by
  cases gap with
  | nil => exact absurd rfl hgap.ne_nil
  | cons c gap =>
      obtain ⟨hc, hgap⟩ := List.forall_mem_cons.1 hgap.isGap
      simp [splitFieldsFrom, hc, splitFieldsFrom_none_gap hgap]

/-- The fields of a line that they use up are found. -/
theorem splitFields_of_separated (h : Separated cs fields) : splitFields cs = (fields, true) := by
  unfold splitFields
  induction h with
  | @last field hfield =>
      rw [← field.append_nil, splitFieldsFrom_none_append hfield]
      simp [splitFieldsFrom]
  | more hfield hgap _ ih =>
      rw [List.append_assoc, splitFieldsFrom_none_append hfield, splitFieldsFrom_some_gap hgap, ih]
      simp

/-! ## From the split to the fields -/

/-- What the rest of a line has to be for the given fields: between fields separators and a line
with these fields, inside a field the end of the first of them and the others. -/
def Continues : Option (List Char) → List Char → List (List Char) → Prop
  | none, rest, fields =>
    ∃ gap line, rest = gap ++ line ∧ (∀ c ∈ gap, isGap c = true) ∧ Separated line fields
  | some field, rest, fields => IsField field.reverse → Separated (field.reverse ++ rest) fields

/-- Fields that use up the rest of a line are what this rest has to be. -/
theorem continues_of_splitFieldsFrom {state : Option (List Char)}
    (h : splitFieldsFrom state rest = (fields, true)) : Continues state rest fields := by
  induction state, rest using splitFieldsFrom.induct generalizing fields with
  | case1 field =>
      cases h
      intro hfield
      simpa using Separated.last hfield
  | case2 => cases h
  | case3 field c cs hc ih =>
      simp only [splitFieldsFrom, hc, if_true, Prod.mk.injEq] at h
      obtain ⟨rfl, htail⟩ := h
      intro hfield
      -- The separators after this one lead up to the next field.
      obtain ⟨gap, line, rfl, hgap, hline⟩ := ih (Prod.ext rfl htail)
      have hgap : IsGap (c :: gap) := ⟨List.cons_ne_nil _ _, List.forall_mem_cons.2 ⟨hc, hgap⟩⟩
      simpa using Separated.more hfield hgap hline
  | case4 field c cs hgap hblank => simp [splitFieldsFrom, hgap, hblank] at h
  | case5 field c cs hgap hblank ih =>
      simp only [splitFieldsFrom, hgap, hblank, Bool.false_eq_true, if_false] at h
      intro hfield
      have hfield := IsField.concat hfield.isBlank_eq_false (Bool.of_not_eq_true hblank)
      simpa using ih h (by simpa using hfield)
  | case6 c cs hc ih =>
      simp only [splitFieldsFrom, hc, if_true] at h
      obtain ⟨gap, line, rfl, hgap, hline⟩ := ih h
      exact ⟨c :: gap, line, rfl, List.forall_mem_cons.2 ⟨hc, hgap⟩, hline⟩
  | case7 c cs hgap hblank => simp [splitFieldsFrom, hgap, hblank] at h
  | case8 c cs hgap hblank ih =>
      simp only [splitFieldsFrom, hgap, hblank, Bool.false_eq_true, if_false] at h
      have hfield := IsField.concat (List.forall_mem_nil _) (Bool.of_not_eq_true hblank)
      exact ⟨[], c :: cs, rfl, List.forall_mem_nil _, ih h hfield⟩

/-- Splitting a trimmed line finds its fields exactly if they use the line up. -/
theorem splitFields_eq_iff :
    splitFields (trimmed cs) = (fields, true) ↔ Separated (trimmed cs) fields := by
  refine ⟨fun h => ?_, splitFields_of_separated⟩
  obtain ⟨gap, line, hsplit, hgap, hline⟩ := continues_of_splitFieldsFrom h
  cases gap with
  | nil => rwa [hsplit]
  | cons c gap =>
      -- The line is trimmed, so that no separator leads up to its first field.
      have hc := isBlank_of_isGap (hgap c (List.mem_cons_self ..))
      rw [isBlank_of_trimmed_eq_cons hsplit] at hc
      cases hc

end Entailment
