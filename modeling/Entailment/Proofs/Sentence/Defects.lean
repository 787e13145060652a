import Entailment.Proofs.Sentence.Reading
import Entailment.Proofs.Sentence.Words

/-! # What is wrong with a parse file

A line may be wrong on its own, or only at its place in a sentence. All lines of a sentence are read
before they are put together, so that a line that cannot be read is reported even behind one that
stands at a wrong place.

* **`LineDefect`** — the defect of a line: its fields, then its id, then its head;
* **`PlaceDefect`** — the defect of a line at its place: its id, then its head;
* **`SentenceDefect`** — the defect of a sentence, that of one of its lines;
* **`readRun_eq_error_iff`**, **`readSentences_eq_error_iff`** — reading reports these defects. -/

namespace Entailment

/-! ## Defects -/

/-- A line of ten fields, the first of which is the id and the seventh the head. -/
def HasColumns (cs id head : List Char) : Prop :=
  ∃ fields, Text.Separated cs fields ∧ fields.length = 10 ∧ fields[0]? = some id ∧
    fields[6]? = some head

/-- The defect of a line on its own. The number of fields comes before the id, and the id before the
head; the words in front of the first blank that separates no fields are counted. -/
inductive LineDefect (line : Nat) (cs : List Char) : ReadError → Prop
  | fieldCount {words : List (List Char)}
      (hfields : ∀ fields, Text.Separated cs fields → fields.length ≠ 10)
      (hwords : MaximalRuns Text.isBlank (cs.takeWhile Text.isPlain) words) :
      LineDefect line cs (.fieldCount line words.length)
  | id {id head : List Char} (hcolumns : HasColumns cs id head)
      (hid : ∀ n, ¬Text.IsNumeral id n) :
      LineDefect line cs (.invalidNumber line .id (String.ofList id))
  | head {id head : List Char} {n : Nat} (hcolumns : HasColumns cs id head)
      (hid : Text.IsNumeral id n) (hunderscore : head ≠ ['_'])
      (hhead : ∀ n, ¬Text.IsNumeral head n) :
      LineDefect line cs (.invalidNumber line .head (String.ofList head))

/-- The defect of a line that can be read, at a position of a sentence of `len` lines; positions
count from zero. The id comes before the head. -/
inductive PlaceDefect (len position line : Nat) (cs : List Char) : ReadError → Prop
  | id {id head : List Char} {n : Nat} (hcolumns : HasColumns cs id head)
      (hid : Text.IsNumeral id n) (hne : n ≠ position + 1) :
      PlaceDefect len position line cs (.nonSequentialId line (position + 1) n)
  | head {id head : List Char} {n : Nat} (hcolumns : HasColumns cs id head)
      (hid : Text.IsNumeral id (position + 1)) (hhead : Text.IsNumeral head n) (hlen : len < n) :
      PlaceDefect len position line cs (.headOutOfRange line n len)

/-- The defect of a sentence: that of the first line that cannot be read, or else that of the first
line at a wrong place. -/
inductive SentenceDefect (run : List TrimmedLine) (e : ReadError) : Prop
  | line (h : FirstError (fun _ p => LineDefect p.1 p.2) run e)
  | place (hlines : ∀ p ∈ run, ∀ e, ¬LineDefect p.1 p.2 e)
      (h : FirstError (fun k p => PlaceDefect run.length k p.1 p.2) run e)

variable {line len position n m : Nat} {cs id head id' head' : List Char} {e : ReadError}

/-! ## Fields -/

/-- A numeral has one value. -/
theorem Text.IsNumeral.unique (h : Text.IsNumeral cs n) (h' : Text.IsNumeral cs m) : n = m :=
  h.value.symm.trans h'.value

/-- A line has one choice of fields. -/
theorem Text.Separated.unique {fields fields' : List (List Char)} (h : Text.Separated cs fields)
    (h' : Text.Separated cs fields') : fields = fields' :=
  (Prod.ext_iff.1 ((splitFields_of_separated h).symm.trans (splitFields_of_separated h'))).1

/-- The columns of a line are fixed by its text. -/
theorem HasColumns.unique (h : HasColumns cs id head) (h' : HasColumns cs id' head') :
    id = id' ∧ head = head' := by
  obtain ⟨fields, hfields, -, hid, hhead⟩ := h
  obtain ⟨fields', hfields', -, hid', hhead'⟩ := h'
  obtain rfl := hfields.unique hfields'
  exact ⟨Option.some.inj (hid.symm.trans hid'), Option.some.inj (hhead.symm.trans hhead')⟩

/-- A line of ten fields has no other number of them. -/
theorem HasColumns.not_length_ne (h : HasColumns cs id head) :
    ¬∀ fields, Text.Separated cs fields → fields.length ≠ 10 := by
  obtain ⟨fields, hfields, hlen, -⟩ := h
  exact fun hne => hne fields hfields hlen

/-- A line has ten fields or not. -/
theorem exists_hasColumns_or (cs : List Char) :
    (∃ id head, HasColumns cs id head) ∨
      ∀ fields, Text.Separated cs fields → fields.length ≠ 10 := by
  by_cases h : ∃ fields, Text.Separated cs fields ∧ fields.length = 10
  · obtain ⟨fields, hfields, hlen⟩ := h
    exact .inl ⟨fields[0], fields[6], fields, hfields, hlen, List.getElem?_eq_getElem _,
      List.getElem?_eq_getElem _⟩
  · exact .inr fun fields hfields hlen => h ⟨fields, hfields, hlen⟩

/-! ## The defects of one line -/

/-- A line of ten fields is wrong if its id is no number, or else if its head is none. -/
theorem HasColumns.lineDefect_iff (h : HasColumns cs id head) :
    LineDefect line cs e ↔
      ((∀ n, ¬Text.IsNumeral id n) ∧ e = .invalidNumber line .id (String.ofList id)) ∨
        ∃ n, Text.IsNumeral id n ∧ head ≠ ['_'] ∧ (∀ n, ¬Text.IsNumeral head n) ∧
          e = .invalidNumber line .head (String.ofList head) := by
  constructor
  · rintro (⟨hfields, -⟩ | ⟨h', hid⟩ | ⟨h', hid, hunderscore, hhead⟩)
    · exact absurd hfields h.not_length_ne
    · obtain ⟨rfl, rfl⟩ := h.unique h'
      exact .inl ⟨hid, rfl⟩
    · obtain ⟨rfl, rfl⟩ := h.unique h'
      exact .inr ⟨_, hid, hunderscore, hhead, rfl⟩
  · rintro (⟨hid, rfl⟩ | ⟨n, hid, hunderscore, hhead, rfl⟩)
    · exact .id h hid
    · exact .head h hid hunderscore hhead

/-- A line with another number of fields is wrong for that. -/
theorem lineDefect_iff_of_length_ne {words : List (List Char)}
    (h : ∀ fields, Text.Separated cs fields → fields.length ≠ 10)
    (hwords : MaximalRuns Text.isBlank (cs.takeWhile Text.isPlain) words) :
    LineDefect line cs e ↔ e = .fieldCount line words.length := by
  constructor
  · rintro (⟨-, hwords'⟩ | ⟨hcolumns, -⟩ | ⟨hcolumns, -, -, -⟩)
    · rw [hwords.unique hwords']
    · exact absurd h hcolumns.not_length_ne
    · exact absurd h hcolumns.not_length_ne
  · rintro rfl
    exact .fieldCount h hwords

/-- A line of ten fields is wrong at its place if its id is not its position, or else if its head is
no token of the sentence. -/
theorem HasColumns.placeDefect_iff (h : HasColumns cs id head) (hid : Text.IsNumeral id n) :
    PlaceDefect len position line cs e ↔
      (n ≠ position + 1 ∧ e = .nonSequentialId line (position + 1) n) ∨
        n = position + 1 ∧ ∃ m, Text.IsNumeral head m ∧ len < m ∧
          e = .headOutOfRange line m len := by
  constructor
  · rintro (⟨h', hid', hne⟩ | ⟨h', hid', hhead, hlen⟩)
    · obtain ⟨rfl, rfl⟩ := h.unique h'
      obtain rfl := hid.unique hid'
      exact .inl ⟨hne, rfl⟩
    · obtain ⟨rfl, rfl⟩ := h.unique h'
      exact .inr ⟨hid.unique hid', _, hhead, hlen, rfl⟩
  · rintro (⟨hne, rfl⟩ | ⟨rfl, m, hhead, hlen, rfl⟩)
    · exact .id h hid hne
    · exact .head h hid hhead hlen

/-! ## Reading a line -/

/-- A field is refused if it is the numeral of no number. -/
theorem Row.number_eq_error_iff {field : NumberField} :
    Row.number line field cs = .error e ↔
      (∀ n, ¬Text.IsNumeral cs n) ∧ e = .invalidNumber line field (String.ofList cs) := by
  have hok : ∀ n, Text.IsNumeral cs n ↔ Row.number line field cs = .ok n :=
    fun _ => Row.number_eq_ok_iff.symm
  simp only [hok]
  unfold Row.number
  cases Text.readWord cs <;> simp [eq_comm]

/-- The field of the governor is refused if it is neither an underscore nor the numeral of a number.
-/
theorem Row.governor_eq_error_iff :
    Row.governor line cs = .error e ↔
      cs ≠ ['_'] ∧ (∀ n, ¬Text.IsNumeral cs n) ∧
        e = .invalidNumber line .head (String.ofList cs) := by
  unfold Row.governor
  split
  next h => simp [h]
  next h => simp [h, map_eq_error_iff, Row.number_eq_error_iff]

/-- The fields of a line of ten are read one after the other. -/
theorem HasColumns.parse_eq (h : HasColumns cs id head) :
    ∃ form lemmaForm pos relation, ∀ line, Row.parse line cs =
      Row.number line .id id >>= fun n => Row.governor line head >>= fun governor =>
        .ok ⟨line, n, form, lemmaForm, pos, governor, relation⟩ := by
  obtain ⟨fields, hfields, hlen, hid, hhead⟩ := h
  match fields with
  | [f₀, f₁, f₂, f₃, f₄, f₅, f₆, f₇, f₈, f₉] =>
      cases hid
      cases hhead
      refine ⟨String.ofList f₁, String.ofList f₂, String.ofList f₃, String.ofList f₇,
        fun line => ?_⟩
      rw [Row.parse, splitFields_of_separated hfields]

/-- A line with another number of fields is refused. -/
theorem Row.parse_of_length_ne
    (h : ∀ fields, Text.Separated (Text.trimmed cs) fields → fields.length ≠ 10) :
    Row.parse line (Text.trimmed cs) =
      .error (.fieldCount line (splitFields (Text.trimmed cs)).1.length) := by
  unfold Row.parse
  split
  next hfields => exact absurd rfl (h _ (splitFields_eq_iff.1 hfields))
  next hfields => rw [hfields]

/-- A line is refused with its defect. -/
theorem Row.parse_eq_error_iff :
    Row.parse line (Text.trimmed cs) = .error e ↔ LineDefect line (Text.trimmed cs) e := by
  rcases exists_hasColumns_or (Text.trimmed cs) with ⟨id, head, hcolumns⟩ | hfields
  · obtain ⟨form, lemmaForm, pos, relation, hparse⟩ := hcolumns.parse_eq
    have hok : ∀ n governor, (Except.ok ⟨line, n, form, lemmaForm, pos, governor, relation⟩ :
        Except ReadError Row) ≠ .error e := nofun
    simp only [hparse, hcolumns.lineDefect_iff, bind_eq_error_iff, Row.number_eq_error_iff,
      Row.number_eq_ok_iff, Row.governor_eq_error_iff, hok, and_false, exists_false, or_false]
  · rw [Row.parse_of_length_ne hfields, Except.error.injEq, eq_comm,
      lineDefect_iff_of_length_ne hfields (maximalRuns_splitFields _)]

/-! ## Lines at their places -/

/-- A row is refused at its place if its number does not follow that of the row before, or else if
its governor lies beyond the sentence. -/
theorem Row.token_eq_error_iff {row : Row} :
    row.token len position = .error e ↔
      (row.id ≠ position + 1 ∧ e = .nonSequentialId row.line (position + 1) row.id) ∨
        row.id = position + 1 ∧ ∃ n, row.head = some n ∧ len < n ∧
          e = .headOutOfRange row.line n len := by
  unfold Row.token
  split
  next hid => simp [hid, eq_comm]
  next hid =>
    rw [not_not] at hid
    cases row.head with
    | none => simp [hid]
    | some head =>
        by_cases hlen : len < head
        · simp [hid, hlen, eq_comm]
        · simp [hid, hlen]

/-- The governor that is read is the number in the field, unless that is zero. -/
theorem Row.governor_eq_ok_some_iff (hn : 0 < n) :
    Row.governor line cs = .ok (some n) ↔ Text.IsNumeral cs n := by
  unfold Row.governor
  split
  next h =>
    refine iff_of_false (by simp) fun hnumeral => ?_
    exact hnumeral.ne_underscore h
  next h =>
    rw [map_eq_ok_iff]
    constructor
    · rintro ⟨m, hm, hread⟩
      split at hread
      · cases hread
      · cases hread
        exact Row.number_eq_ok_iff.1 hm
    · intro hnumeral
      exact ⟨n, Row.number_eq_ok_iff.2 hnumeral, if_neg (by omega)⟩

/-- A row that was read is refused at a place with the defect of its line there. -/
theorem Row.token_eq_error_iff_placeDefect {row : Row}
    (hrow : Row.parse line (Text.trimmed cs) = .ok row) :
    row.token len position = .error e ↔ PlaceDefect len position line (Text.trimmed cs) e := by
  rcases exists_hasColumns_or (Text.trimmed cs) with ⟨id, head, hcolumns⟩ | hfields
  · obtain ⟨form, lemmaForm, pos, relation, hparse⟩ := hcolumns.parse_eq
    rw [hparse, bind_eq_ok_iff] at hrow
    obtain ⟨number, hid, hrow⟩ := hrow
    obtain ⟨governor, hhead, hrow⟩ := bind_eq_ok_iff.1 hrow
    cases hrow
    rw [Row.token_eq_error_iff, hcolumns.placeDefect_iff (Row.number_eq_ok_iff.1 hid)]
    refine or_congr_right (and_congr_right fun _ => exists_congr fun m => ?_)
    -- A number that is too large is not zero, and so is the governor that was read.
    rw [← and_assoc, ← and_assoc]
    refine and_congr_left fun _ => and_congr_left fun hlen => ?_
    rw [← Row.governor_eq_ok_some_iff (by omega), hhead, Except.ok.injEq]
  · rw [Row.parse_of_length_ne hfields] at hrow
    cases hrow

/-! ## Sentences -/

variable {run : List TrimmedLine} {rows : List Row} {text : String}

/-- The rows of a sentence are refused with the defect of the first line at a wrong place. -/
theorem Row.fragment_eq_error_iff (htrim : ∀ p ∈ run, ∃ cs, p.2 = Text.trimmed cs)
    (hrows : run.mapM (fun p => Row.parse p.1 p.2) = .ok rows) :
    Row.fragment rows = .error e ↔
      FirstError (fun k p => PlaceDefect run.length k p.1 p.2) run e := by
  have hread := mapM_eq_ok_iff.1 hrows
  rw [Row.fragment, mapM_zipIdx_of_mapM hrows, mapM_zipIdx_eq_error_iff, ← hread.length_eq]
  refine FirstError.congr fun k p hp e => ?_
  obtain ⟨cs, hcs⟩ := htrim p (List.mem_of_getElem? hp)
  obtain ⟨row, hrow⟩ := exists_forall₂_iff.1 ⟨rows, hread⟩ p (List.mem_of_getElem? hp)
  dsimp only
  rw [hrow, Nat.zero_add]
  rw [hcs] at hrow ⊢
  exact Row.token_eq_error_iff_placeDefect hrow

/-- A sentence is refused with its defect. -/
theorem readRun_eq_error_iff (htrim : ∀ p ∈ run, ∃ cs, p.2 = Text.trimmed cs) :
    readRun run = .error e ↔ SentenceDefect run e := by
  have hline : ∀ p ∈ run, ∀ e, Row.parse p.1 p.2 = .error e ↔ LineDefect p.1 p.2 e := by
    intro p hp e
    obtain ⟨cs, hcs⟩ := htrim p hp
    rw [hcs]
    exact Row.parse_eq_error_iff
  have hlines : (∃ rows, run.mapM (fun p => Row.parse p.1 p.2) = .ok rows) ↔
      ∀ p ∈ run, ∀ e, ¬LineDefect p.1 p.2 e := by
    simp only [mapM_eq_ok_iff, exists_forall₂_iff, ← forall_ne_error_iff]
    exact forall₂_congr fun p hp => forall_congr' fun e => not_congr (hline p hp e)
  have hfirst : run.mapM (fun p => Row.parse p.1 p.2) = .error e ↔
      FirstError (fun _ p => LineDefect p.1 p.2) run e := by
    rw [mapM_eq_error_iff]
    exact FirstError.congr fun k p hp e => hline p (List.mem_of_getElem? hp) e
  rw [readRun, bind_eq_error_iff, hfirst]
  constructor
  · rintro (h | ⟨rows, hrows, hfragment⟩)
    · exact .line h
    · exact .place (hlines.1 ⟨rows, hrows⟩) ((Row.fragment_eq_error_iff htrim hrows).1 hfragment)
  · rintro (h | ⟨hread, h⟩)
    · exact .inl h
    · obtain ⟨rows, hrows⟩ := hlines.2 hread
      exact .inr ⟨rows, hrows, (Row.fragment_eq_error_iff htrim hrows).2 h⟩

/-- A sentence without a defect is read. -/
theorem forall_not_sentenceDefect_iff (htrim : ∀ p ∈ run, ∃ cs, p.2 = Text.trimmed cs) :
    (∀ e, ¬SentenceDefect run e) ↔ ∃ f, IsSentence (run.map Prod.snd) f := by
  simp only [← readRun_eq_error_iff htrim, ← readRun_eq_ok_iff htrim]
  exact forall_ne_error_iff

/-- A text is refused with the defect of the first of its sentences that has one. -/
theorem readSentences_eq_error_iff :
    readSentences text = .error e ↔
      FirstError (fun _ => SentenceDefect) (sentenceRuns text) e := by
  rw [readSentences, mapM_eq_error_iff]
  exact FirstError.congr fun k run hrun e =>
    readRun_eq_error_iff (exists_trimmed_of_mem_sentenceRuns (List.mem_of_getElem? hrun))

/-- A text that may hold only one sentence is refused with its first defect, or else for its second
sentence. -/
theorem readSentence_eq_error_iff :
    readSentence text = .error e ↔
      readSentences text = .error e ∨
        ∃ fs second, readSentences text = .ok fs ∧ (sentenceRuns text)[1]? = some second ∧
          e = .multipleSentences (runStart second) := by
  rw [readSentence, bind_eq_error_iff]
  refine or_congr_right (exists_congr fun fs => ?_)
  split
  next _ second _ hruns => simp [hruns, eq_comm]
  next _ hruns =>
    -- A list without a second element is empty or has one element.
    have hsecond : (sentenceRuns text)[1]? = none := by
      match hlist : sentenceRuns text with
      | [] | [_] => rfl
      | first :: second :: rest => exact absurd hlist (hruns first second rest)
    simp [hsecond]

end Entailment
