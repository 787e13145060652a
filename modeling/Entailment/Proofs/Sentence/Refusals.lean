import Entailment.Proofs.Sentence.Defects
import Entailment.Proofs.Sentence.LineByLine

/-! # Which error a parse file meets

* **`getElem?_trimmedLines`** — lines are numbered from one, and blank ones count;
* **`refusal_is_first_defect`** — a text is refused with the first defect of the first sentence that
  has one, also when it is read line by line;
* **`found_eq_length_plain_words`** — the number of fields that a refusal gives. -/

namespace Entailment

variable {text : String} {run : List TrimmedLine} {p : TrimmedLine} {line found : Nat}

/-! ## The lines of a sentence -/

/-- Lines are numbered from one, and blank ones count. -/
theorem getElem?_trimmedLines (text : String) (k : Nat) :
    (trimmedLines text)[k]? =
      (Text.lines text.toList)[k]?.map fun cs => (k + 1, Text.trimmed cs) := by
  rw [trimmedLines, List.getElem?_map, Text.getElem?_numbered, Option.map_map]
  rfl

/-- The number of a line of a sentence is its place in the text. -/
theorem exists_line_of_mem_sentenceRuns (hrun : run ∈ sentenceRuns text) (hp : p ∈ run) :
    ∃ cs, 0 < p.1 ∧ (Text.lines text.toList)[p.1 - 1]? = some cs ∧ p.2 = Text.trimmed cs ∧
      p.2 ≠ [] := by
  obtain ⟨hmem, hne⟩ := mem_of_mem_sentenceRuns text hrun hp
  obtain ⟨k, hk⟩ := List.mem_iff_getElem?.1 hmem
  rw [getElem?_trimmedLines, Option.map_eq_some_iff] at hk
  obtain ⟨cs, hcs, rfl⟩ := hk
  exact ⟨cs, Nat.succ_pos k, hcs, rfl, hne⟩

/-! ## The error that is reported -/

/-- Which error is reported. The sentences of a text are the longest runs of lines that are not
blank, where lines are counted from one with the blank ones. A text is refused with the defect of
the first sentence that has one, behind sentences that can all be read. A reader that may meet only
one sentence reports the same error, and the first line of a second sentence only if there is no
defect at all. Going through the text line by line makes no difference. -/
theorem refusal_is_first_defect (text : String) :
    ∃ runs : List (List TrimmedLine),
      (∀ k, (trimmedLines text)[k]? =
        (Text.lines text.toList)[k]?.map fun cs => (k + 1, Text.trimmed cs)) ∧
      (∀ runs', MaximalRuns (fun p => p.2.isEmpty) (trimmedLines text) runs' ↔ runs' = runs) ∧
      (∀ e, readSentences text = .error e ↔
        ∃ (k : Nat) (run : List TrimmedLine), runs[k]? = some run ∧ SentenceDefect run e ∧
          ∀ j < k, ∀ earlier : List TrimmedLine, runs[j]? = some earlier →
            ∃ f, IsSentence (earlier.map Prod.snd) f) ∧
      (∀ e, readSentence text = .error e ↔
        readSentences text = .error e ∨
          ∃ fs p rest, readSentences text = .ok fs ∧ runs[1]? = some (p :: rest) ∧
            e = .multipleSentences p.1) ∧
      readLines text = (readSentences text).map fun fs => (runs.map runStart).zip fs := by
  refine ⟨sentenceRuns text, getElem?_trimmedLines text, fun runs' => maximalRuns_iff, ?_, ?_,
    readLines_eq text⟩
  · intro e
    rw [readSentences_eq_error_iff]
    refine exists_congr fun k => exists_congr fun run => and_congr_right fun _ => ?_
    refine and_congr_right fun _ => forall₂_congr fun j _ =>
      forall₂_congr fun earlier hearlier => ?_
    exact forall_not_sentenceDefect_iff
      (exists_trimmed_of_mem_sentenceRuns (List.mem_of_getElem? hearlier))
  · intro e
    rw [readSentence_eq_error_iff]
    refine or_congr_right (exists_congr fun fs => ?_)
    constructor
    · rintro ⟨second, hfs, hsecond, rfl⟩
      obtain ⟨p, rest, rfl⟩ := List.exists_cons_of_ne_nil
        (ne_nil_of_mem_sentenceRuns text (List.mem_of_getElem? hsecond))
      exact ⟨p, rest, hfs, hsecond, rfl⟩
    · rintro ⟨p, rest, hfs, hsecond, rfl⟩
      exact ⟨p :: rest, hfs, hsecond, rfl⟩

/-- A line that cannot be read is reported although an earlier one has a wrong id. -/
example : readSentences "\n5 It it PRP _ _ 2 nsubj _ _\r\n2 rains rain VBZ _ _ x ROOT _ _" =
    .error (.invalidNumber 3 .head "x") := by
  decide

/-! ## The number of fields that is reported -/

/-- Only a line that does not have ten fields is refused for its number of fields. -/
theorem exists_lineDefect_of_fieldCount
    (h : readSentences text = .error (.fieldCount line found) ∨
      readSentence text = .error (.fieldCount line found)) :
    ∃ run ∈ sentenceRuns text, ∃ p ∈ run, LineDefect p.1 p.2 (.fieldCount line found) := by
  have hread : readSentences text = .error (.fieldCount line found) := by
    rcases h with h | h
    · exact h
    · rcases readSentence_eq_error_iff.1 h with h | ⟨_, _, _, _, h⟩
      · exact h
      · cases h
  obtain ⟨_, run, hrun, hdefect, -⟩ := readSentences_eq_error_iff.1 hread
  refine ⟨run, List.mem_of_getElem? hrun, ?_⟩
  rcases hdefect with ⟨_, p, hp, hline, -⟩ | ⟨-, _, p, hp, hplace, -⟩
  · exact ⟨p, List.mem_of_getElem? hp, hline⟩
  · cases hplace

/-- The number of fields that is reported for a line is that of the words in front of the first
blank that separates no fields. In a line without such a blank these are all its words, and their
number is not ten; any other line has further words. -/
theorem found_eq_length_plain_words (text : String) (line found : Nat)
    (h : readSentences text = .error (.fieldCount line found) ∨
      readSentence text = .error (.fieldCount line found)) :
    ∃ cs words plainWords,
      0 < line ∧ (Text.lines text.toList)[line - 1]? = some cs ∧
      MaximalRuns Text.isBlank cs words ∧
      MaximalRuns Text.isBlank ((Text.trimmed cs).takeWhile Text.isPlain) plainWords ∧
      found = plainWords.length ∧
      ((∀ c ∈ Text.trimmed cs, Text.isPlain c = true) → found = words.length ∧ found ≠ 10) ∧
      ((∃ c ∈ Text.trimmed cs, Text.isPlain c = false) → found < words.length) := by
  obtain ⟨run, hrun, ⟨n, _⟩, hp, hdefect⟩ := exists_lineDefect_of_fieldCount h
  obtain ⟨cs, hpos, hcs, rfl, hne⟩ := exists_line_of_mem_sentenceRuns hrun hp
  obtain ⟨words, hwords⟩ := exists_maximalRuns Text.isBlank (Text.trimmed cs)
  cases hdefect with
  | @fieldCount plainWords hfields hplainWords =>
      refine ⟨cs, words, plainWords, hpos, hcs, Text.maximalRuns_of_trimmed hwords, hplainWords, rfl,
        fun hplain => ?_, fun ⟨c, hc, hplain⟩ => ?_⟩
      · have hall := hplainWords
        rw [List.takeWhile_eq_self_iff.2 hplain] at hall
        rw [hall.unique hwords]
        exact ⟨rfl, hfields words (separated_of_isPlain hne hplain hwords)⟩
      · exact length_lt_of_not_isPlain (fun hall => by simp [hall c hc] at hplain) hwords hplainWords

/-- A line of three words is refused for three fields, and a line of four for two, where a no-break
space stands between the second word and the third. -/
theorem found_eq_length_plain_words_short :
    (readSentences "\r\n 1 Go go\t\n" = .error (.fieldCount 2 3) ∧
      ∃ cs words, (Text.lines "\r\n 1 Go go\t\n".toList)[1]? = some cs ∧
        MaximalRuns Text.isBlank cs words ∧ 3 = words.length) ∧
    (readSentence "1 Go\u00a0go VB" = .error (.fieldCount 1 2) ∧
      ∃ cs words, (Text.lines "1 Go\u00a0go VB".toList)[0]? = some cs ∧
        MaximalRuns Text.isBlank cs words ∧ 2 < words.length) := by
  have hspaces : readSentences "\r\n 1 Go go\t\n" = .error (.fieldCount 2 3) := by decide
  have hnobreak : readSentence "1 Go\u00a0go VB" = .error (.fieldCount 1 2) := by decide
  obtain ⟨cs, words, -, -, hcs, hwords, -, -, hplain, -⟩ :=
    found_eq_length_plain_words _ _ _ (.inl hspaces)
  obtain ⟨cs', words', -, -, hcs', hwords', -, -, -, hother⟩ :=
    found_eq_length_plain_words _ _ _ (.inr hnobreak)
  refine ⟨⟨hspaces, cs, words, hcs, hwords, (hplain ?_).1⟩, hnobreak, cs', words', hcs', hwords',
    hother ?_⟩
  · obtain rfl : " 1 Go go\t".toList = cs := Option.some.inj hcs
    exact List.all_eq_true.1 (by decide)
  · obtain rfl : "1 Go\u00a0go VB".toList = cs' := Option.some.inj hcs'
    exact ⟨'\u00a0', by decide, by decide⟩

/-- A line of eleven words is refused for ten fields, where a no-break space stands in front of the
last word. -/
theorem found_ten_of_eleven_words :
    let text := "1 Go go VB _ _ 0 ROOT _ _\u00a0_"
    readSentences text = .error (.fieldCount 1 10) ∧
      readSentence text = .error (.fieldCount 1 10) ∧
      (ReadError.fieldCount 1 10).message = "line 1: expected 10 fields, found 10" ∧
      Text.lines text.toList = [text.toList] ∧
      ∃ words, MaximalRuns Text.isBlank text.toList words ∧ words.length = 11 := by
  intro text
  exact ⟨by decide, by decide, by decide, by decide, _, maximalRuns_iff.2 rfl, by decide⟩

end Entailment
