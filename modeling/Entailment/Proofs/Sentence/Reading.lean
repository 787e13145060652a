import Entailment.Proofs.Outcomes
import Entailment.Proofs.Sentence.Fields
import Entailment.Proofs.Sentence.Runs

/-! # What the reader accepts

The grammar of parse files, apart from the functions that read them, and the tokens it stands for.

* **`Text.IsNumeral`** — a number in digits;
* **`IsHead`**, **`IsRow`**, **`IsSentence`** — the governor in a field, the token on a line, the
  fragment on a run of lines;
* **`readRun_eq_ok_iff`** — a run of lines is read as the fragment on it;
* **`readSentences_reads_grammar`** — a text is accepted exactly if each of its runs is a sentence,
  and is read as these sentences. -/

namespace Entailment

/-! ## The grammar -/

/-- A machine word in ASCII digits. -/
structure Text.IsNumeral (cs : List Char) (n : Nat) : Prop where
  /-- There is a digit. -/
  ne_nil : cs ≠ []
  /-- There are only digits. -/
  isDigit : ∀ c ∈ cs, Text.isDigit c = true
  /-- They denote the number. -/
  value : Text.digitsValue cs = n
  /-- The number is a machine word. -/
  lt_wordSize : n < wordSize

/-- The governor in a field, in a sentence of `len` tokens. A file counts tokens from one, and both
an underscore and the number zero stand for none. -/
inductive IsHead (len : Nat) : List Char → Option Nat → Prop
  | underscore : IsHead len ['_'] none
  | zero {cs : List Char} (h : Text.IsNumeral cs 0) : IsHead len cs none
  | number {cs : List Char} {head : Nat} (h : Text.IsNumeral cs (head + 1)) (hlen : head + 1 ≤ len) :
      IsHead len cs (some head)

/-- The token on a line at a position of a sentence of `len` tokens, both counted from zero. The
line has ten fields, of which the fifth, the sixth and the last two may be anything. -/
inductive IsRow (len position : Nat) : List Char → Token → Prop
  | intro {line id form lemmaForm pos finePos features head relation projectiveHead
        projectiveRelation : List Char} {governor : Option Nat}
      (hfields : Text.Separated line
        [id, form, lemmaForm, pos, finePos, features, head, relation, projectiveHead,
          projectiveRelation])
      (hid : Text.IsNumeral id (position + 1)) (hhead : IsHead len head governor) :
      IsRow len position line
        { id := position
          form := String.ofList form
          lemmaForm := String.ofList lemmaForm
          pos := String.ofList pos
          head := governor
          relation := if String.ofList lemmaForm = "no" then "neg" else String.ofList relation
          path := none }

/-- The fragment on a run of lines: the token on each line, in order. -/
def IsSentence (run : List (List Char)) (f : Fragment) : Prop :=
  List.Forall₂ (fun p t => IsRow run.length p.2 p.1 t) run.zipIdx f

/-! ## Fields that hold a number -/

variable {len position line n : Nat} {cs : List Char}

/-- An underscore is no number. -/
theorem Text.IsNumeral.ne_underscore (h : Text.IsNumeral cs n) : cs ≠ ['_'] := by
  rintro rfl
  exact absurd (h.isDigit '_' (List.mem_singleton_self _)) (by decide)

/-- A field is read as the number that it is the numeral of. -/
theorem Row.number_eq_ok_iff {field : NumberField} :
    Row.number line field cs = .ok n ↔ Text.IsNumeral cs n := by
  unfold Row.number
  cases h : Text.readWord cs with
  | none =>
      refine iff_of_false (by simp) fun hn => ?_
      have := Text.readWord_eq_some_iff.2
        ⟨hn.ne_nil, List.all_eq_true.2 hn.isDigit, hn.value ▸ hn.lt_wordSize, hn.value⟩
      simp [h] at this
  | some m =>
      obtain ⟨hne, hdigit, hlt, hm⟩ := Text.readWord_eq_some_iff.1 h
      constructor
      · rintro ⟨⟩
        exact ⟨hne, List.all_eq_true.1 hdigit, hm, hm ▸ hlt⟩
      · intro hn
        rw [← hm, hn.value]

/-- The number of the governor, checked against the length of the sentence and counted from zero, is
the governor in the field. -/
theorem Row.governor_eq_ok_iff {head : Option Nat} :
    (∃ number, Row.governor line cs = .ok number ∧ (∀ n ∈ number, n ≤ len) ∧
      number.map (· - 1) = head) ↔ IsHead len cs head := by
  unfold Row.governor
  constructor
  · rintro ⟨number, hnumber, hlen, rfl⟩
    split at hnumber
    · next hcs =>
        cases hnumber
        rw [hcs]
        exact .underscore
    · obtain ⟨n, hn, rfl⟩ := map_eq_ok_iff.1 hnumber
      rw [Row.number_eq_ok_iff] at hn
      cases n with
      | zero => exact .zero hn
      | succ head => exact .number hn (hlen _ rfl)
  · intro h
    cases h with
    | underscore => exact ⟨none, by simp⟩
    | zero h =>
        refine ⟨none, ?_, by simp, rfl⟩
        rw [if_neg h.ne_underscore, map_eq_ok_iff]
        exact ⟨0, Row.number_eq_ok_iff.2 h, rfl⟩
    | @number _ head h hlen =>
        refine ⟨some (head + 1), ?_, by simpa using hlen, rfl⟩
        rw [if_neg h.ne_underscore, map_eq_ok_iff]
        exact ⟨head + 1, Row.number_eq_ok_iff.2 h, rfl⟩

/-! ## Rows -/

variable {t : Token}

/-- A row becomes a token if it stands at its own number and its governor in the sentence. -/
theorem Row.token_eq_ok_iff {row : Row} :
    row.token len position = .ok t ↔
      row.id = position + 1 ∧ (∀ n ∈ row.head, n ≤ len) ∧
        t = .make position row.form row.lemmaForm row.pos (row.head.map (· - 1)) row.relation := by
  unfold Row.token
  split
  · next hid => simp [hid]
  · next hid =>
      rw [not_not] at hid
      cases hhead : row.head with
      | none => simp [hid, eq_comm]
      | some head =>
          by_cases hlen : len < head
          · simp [hid, hlen, Nat.not_le_of_lt hlen]
          · simp [hid, hlen, Nat.le_of_not_lt hlen, eq_comm]

/-- A line is read as the token on it. -/
theorem exists_parse_token_iff :
    (∃ row, Row.parse line (Text.trimmed cs) = .ok row ∧ row.token len position = .ok t) ↔
      IsRow len position (Text.trimmed cs) t := by
  constructor
  · rintro ⟨row, hrow, htoken⟩
    unfold Row.parse at hrow
    split at hrow
    · next hfields =>
        obtain ⟨id, hid, hrow⟩ := bind_eq_ok_iff.1 hrow
        obtain ⟨head, hhead, hrow⟩ := bind_eq_ok_iff.1 hrow
        cases hrow
        obtain ⟨rfl, hlen, rfl⟩ := Row.token_eq_ok_iff.1 htoken
        exact .intro (splitFields_eq_iff.1 hfields) (Row.number_eq_ok_iff.1 hid)
          (Row.governor_eq_ok_iff.1 ⟨head, hhead, hlen, rfl⟩)
    · cases hrow
  · rintro ⟨hfields, hid, hhead⟩
    obtain ⟨number, hnumber, hlen, rfl⟩ := (@Row.governor_eq_ok_iff _ line _ _).2 hhead
    simp only [Row.parse, splitFields_of_separated hfields, bind_eq_ok_iff]
    refine ⟨_, ⟨_, Row.number_eq_ok_iff.2 hid, number, hnumber, rfl⟩, ?_⟩
    exact Row.token_eq_ok_iff.2 ⟨rfl, hlen, rfl⟩

/-! ## Sentences -/

/-- A run of trimmed lines is read as the fragment on it. -/
theorem readRun_eq_ok_iff {run : List TrimmedLine} {f : Fragment}
    (htrim : ∀ p ∈ run, ∃ cs, p.2 = Text.trimmed cs) :
    readRun run = .ok f ↔ IsSentence (run.map Prod.snd) f := by
  have hrow : ∀ p ∈ run.zipIdx, ∀ t,
      (∃ row, Row.parse p.1.1 p.1.2 = .ok row ∧ row.token run.length p.2 = .ok t) ↔
        IsRow run.length p.2 p.1.2 t := by
    intro p hp t
    obtain ⟨cs, hcs⟩ := htrim p.1 (List.fst_mem_of_mem_zipIdx hp)
    rw [hcs]
    exact exists_parse_token_iff
  calc readRun run = .ok f
      ↔ ∃ rows, List.Forall₂ (fun p row => Row.parse p.1 p.2 = .ok row) run rows ∧
          List.Forall₂ (fun p t => p.1.token rows.length p.2 = .ok t) rows.zipIdx f := by
        simp only [readRun, Row.fragment, bind_eq_ok_iff, mapM_eq_ok_iff]
    _ ↔ ∃ rows, List.Forall₂ (fun p row => Row.parse p.1 p.2 = .ok row) run rows ∧
          List.Forall₂ (fun p t => p.1.token run.length p.2 = .ok t) rows.zipIdx f := by
        refine exists_congr fun rows => and_congr_right fun hrows => ?_
        rw [hrows.length_eq]
    _ ↔ List.Forall₂ (fun p t => ∃ row, Row.parse p.1.1 p.1.2 = .ok row ∧
          row.token run.length p.2 = .ok t) run.zipIdx f :=
        exists_forall₂_zipIdx_iff (fun (p : TrimmedLine) row => Row.parse p.1 p.2 = .ok row)
          (fun row k t => Row.token run.length k row = .ok t)
    _ ↔ List.Forall₂ (fun p t => IsRow run.length p.2 p.1.2 t) run.zipIdx f :=
        forall₂_congr_of_mem hrow
    _ ↔ IsSentence (run.map Prod.snd) f := by
        rw [IsSentence, List.zipIdx_map, List.forall₂_map_left_iff, List.length_map]
        rfl

/-! ## Parse files -/

variable {text : String} {f : Fragment} {fs : List Fragment}

/-- The lines of a sentence are trimmed. -/
theorem exists_trimmed_of_mem_sentenceRuns {run : List TrimmedLine}
    (hrun : run ∈ sentenceRuns text) : ∀ p ∈ run, ∃ cs, p.2 = Text.trimmed cs := by
  intro p hp
  obtain ⟨q, -, rfl⟩ := List.mem_map.1 (mem_of_mem_sentenceRuns text hrun hp).1
  exact ⟨q.2, rfl⟩

/-- A text is read as the fragments on its runs of lines. -/
theorem readSentences_eq_ok_iff :
    readSentences text = .ok fs ↔ List.Forall₂ IsSentence (plainRuns text) fs := by
  rw [readSentences, mapM_eq_ok_iff, plainRuns, List.forall₂_map_left_iff]
  exact forall₂_congr_of_mem fun run hrun f =>
    readRun_eq_ok_iff (exists_trimmed_of_mem_sentenceRuns hrun)

/-- A text is accepted if there is a token on every line of its sentences. -/
theorem exists_readSentences_eq_ok_iff :
    (∃ fs, readSentences text = .ok fs) ↔
      ∀ run ∈ plainRuns text, ∀ p ∈ run.zipIdx, ∃ t, IsRow run.length p.2 p.1 t := by
  simp only [readSentences_eq_ok_iff, exists_forall₂_iff, IsSentence]

/-- A text with one sentence at most is read as this sentence. -/
theorem readSentence_eq_ok_iff :
    readSentence text = .ok f ↔
      (readSentences text = .ok [] ∧ f = []) ∨ readSentences text = .ok [f] := by
  unfold readSentence
  rw [bind_eq_ok_iff]
  cases hread : readSentences text with
  | error e => simp
  | ok fs =>
      have hlen := (mapM_eq_ok_iff.1 hread).length_eq
      match hruns : sentenceRuns text, fs with
      | [], [] => simp [eq_comm]
      | [_], [g] => simp
      | _ :: _ :: _, _ :: _ :: _ => simp
      | [], _ :: _ | [_], [] | [_], _ :: _ :: _ | _ :: _ :: _, [] | _ :: _ :: _, [_] =>
          simp [hruns] at hlen

/-- What the reader accepts and what it gives. The sentences of a text are the longest runs of lines
that are not blank; no run has more lines than the text has characters, so that in a text that fits
into memory every number of a line is a machine word. A text is accepted exactly if there is a token
on every line of every run, and then the fragments of these tokens are given, in order. The reader
of one sentence accepts the texts with at most one. -/
theorem readSentences_reads_grammar (text : String) :
    ∃ runs : List (List (List Char)),
      (∀ runs', MaximalRuns List.isEmpty ((Text.lines text.toList).map Text.trimmed) runs' ↔
        runs' = runs) ∧
      (∀ run ∈ runs, run.length ≤ text.length) ∧
      ((∃ fs, readSentences text = .ok fs) ↔
        ∀ run ∈ runs, ∀ p ∈ run.zipIdx, ∃ t, IsRow run.length p.2 p.1 t) ∧
      (∀ fs, readSentences text = .ok fs ↔ List.Forall₂ IsSentence runs fs) ∧
      ∀ f, readSentence text = .ok f ↔
        (readSentences text = .ok [] ∧ f = []) ∨ readSentences text = .ok [f] := by
  refine ⟨plainRuns text, fun runs' => ?_, fun run => length_le_of_mem_plainRuns text,
    exists_readSentences_eq_ok_iff, fun _ => readSentences_eq_ok_iff,
    fun _ => readSentence_eq_ok_iff⟩
  have hruns := maximalRuns_iff.1 (maximalRuns_sentenceRuns text)
  rw [hruns]
  exact maximalRuns_iff

/-- A negation and its governor. -/
example : readSentences "1 No no DT _ _ 2 det _ _\n2 dogs dog NNS _ _ 0 root _ _" =
    .ok [[⟨0, "No", "no", "DT", some 1, "neg", none⟩,
      ⟨1, "dogs", "dog", "NNS", none, "root", none⟩]] := by
  decide

end Entailment
