import Entailment.Align.Manual
import Entailment.Proofs.Text.Basic
import Mathlib.Data.Finset.Card
import Mathlib.Data.Finset.Image

/-! # What a manual list declares

A line of a manual list declares one pair at most, and no other line declares the same pair, but for
the carriage returns at its end. So the pairs of a list are its lines that are not blank, and a list
is refused for the first such line that declares none.

* **`Declares`** — a line that declares a pair;
* **`manualPair?_eq_some_iff`** — the pair on a line is the one that it declares;
* **`readManual_eq_error_iff`** — a list is refused for its first malformed line;
* **`readManual_eq_ok_iff`** — any other list is read;
* **`manual_list_reads_every_line`** — what is read from a list, and when it is refused. -/

namespace Entailment

variable {line : List Char} {t h : String} {p : String × String} {pairs m : ManualPairs}
  {text : String}

/-! ## Pairs on lines -/

/-- A line declares a pair of two sides: it is the two sides with a tab between them. Neither is
empty, and no other tab is on the line. -/
structure Declares (line : List Char) (t h : String) : Prop where
  /-- The sides stand around a tab. -/
  eq_sides : line = t.toList ++ '\t' :: h.toList
  /-- The text side is not empty. -/
  text_ne_empty : t ≠ ""
  /-- The hypothesis side is not empty. -/
  hypothesis_ne_empty : h ≠ ""
  /-- There is no tab in the text side. -/
  tab_not_mem_text : '\t' ∉ t.toList
  /-- There is no tab in the hypothesis side. -/
  tab_not_mem_hypothesis : '\t' ∉ h.toList

/-- The pair on a line is the one that it declares. -/
theorem manualPair?_eq_some_iff : manualPair? line = some p ↔ Declares line p.1 p.2 := by
  constructor
  · intro hp
    rw [manualPair?] at hp
    split at hp
    · next t h hsplit =>
        obtain ⟨hline, ht⟩ := Text.splitAt?_eq_some_iff.1 hsplit
        obtain ⟨⟨hne, hne', hh⟩, heq⟩ := Option.ite_none_right_eq_some.1 hp
        obtain rfl := Option.some.inj heq
        exact ⟨by simpa using hline, by simpa using hne, by simpa using hne', by simpa using ht,
          by simpa using hh⟩
    · cases hp
  · rintro ⟨hline, hne, hne', ht, hh⟩
    rw [manualPair?, Text.splitAt?_eq_some_iff.2 ⟨hline, ht⟩]
    simp [hne, hne', hh]

/-- A line has no pair exactly if it declares none. -/
theorem manualPair?_eq_none_iff : manualPair? line = none ↔ ∀ t h, ¬Declares line t h := by
  rw [Option.eq_none_iff_forall_ne_some]
  exact ⟨fun hnone t h hd => hnone (t, h) (manualPair?_eq_some_iff.2 hd),
    fun hnone p hp => hnone p.1 p.2 (manualPair?_eq_some_iff.1 hp)⟩

/-- A line declares no more than one pair. -/
theorem Declares.unique {t' h' : String} (hd : Declares line t h) (hd' : Declares line t' h') :
    (t, h) = (t', h') :=
  Option.some.inj ((manualPair?_eq_some_iff (p := (t, h)).2 hd).symm.trans
    (manualPair?_eq_some_iff.2 hd'))

/-- The line that declares a pair. -/
def pairLine (p : String × String) : List Char := p.1.toList ++ '\t' :: p.2.toList

/-- Where the line of two sides declares some pair, it declares these two, for the tab between them
is the only one. -/
theorem Declares.of_pairLine (hd : Declares (pairLine p) t h) (hne : p.1 ≠ "") (hne' : p.2 ≠ "") :
    Declares (pairLine p) p.1 p.2 := by
  -- There is one tab between the sides that the line declares, so there is none in the other two.
  have hcount := congrArg (List.count '\t') hd.eq_sides
  simp only [pairLine, List.count_append, List.count_cons_self,
    List.count_eq_zero_of_not_mem hd.tab_not_mem_text,
    List.count_eq_zero_of_not_mem hd.tab_not_mem_hypothesis] at hcount
  exact ⟨rfl, hne, hne', List.count_eq_zero.1 (by omega), List.count_eq_zero.1 (by omega)⟩

/-- The line of the pair of two tokens has their forms and parts of speech on its two sides. -/
theorem pairLine_manualKey (x y : Token) :
    pairLine (x.manualKey, y.manualKey) =
      (x.form ++ "_" ++ x.pos ++ "\t" ++ y.form ++ "_" ++ y.pos).toList := by
  simp [pairLine, Token.manualKey]

/-- The side of a token is not empty. -/
theorem manualKey_ne_empty (x : Token) : x.manualKey ≠ "" := by
  simp [Token.manualKey]

/-- The line of the pair of two tokens is not blank. -/
theorem allBlank_pairLine_manualKey (x y : Token) :
    Text.allBlank (pairLine (x.manualKey, y.manualKey)) = false := by
  refine List.all_eq_false.2 ⟨'_', ?_, by decide⟩
  simp [pairLine, Token.manualKey]

/-! ## Lines of a list -/

/-- A line without the carriage returns at its end. -/
def withoutReturns (line : List Char) : List Char := Text.dropEndWhile (· == '\r') line

/-- A line is malformed if it is not blank and declares no pair. -/
def Malformed (line : List Char) : Prop := Text.allBlank line = false ∧ ∀ t h, ¬Declares line t h

/-- A line is malformed if it is not blank and no pair is found on it. -/
theorem malformed_iff : Malformed line ↔ Text.allBlank line = false ∧ manualPair? line = none :=
  and_congr_right fun _ => manualPair?_eq_none_iff.symm

/-- Whether a line is malformed can be read off it. -/
instance (line : List Char) : Decidable (Malformed line) := decidable_of_iff _ malformed_iff.symm

/-- A line is well-formed if it is blank or declares a pair. -/
theorem not_malformed_iff :
    ¬Malformed line ↔ (Text.allBlank line = false → ∃ t h, Declares line t h) := by
  simp [Malformed]

/-- The pair of a line. A blank line has none, even if it holds a tab between other blanks. -/
def linePair? (line : List Char) : Option (String × String) :=
  if Text.allBlank line then none else manualPair? line

/-- A blank line has no pair. -/
theorem linePair?_of_blank (h : Text.allBlank line = true) : linePair? line = none := if_pos h

/-- Any other line has the pair that is found on it. -/
theorem linePair?_of_not_blank (h : Text.allBlank line = false) :
    linePair? line = manualPair? line := if_neg (by simp [h])

/-- A line has the pair that it declares, unless it is blank. -/
theorem linePair?_eq_some_iff :
    linePair? line = some p ↔ Text.allBlank line = false ∧ Declares line p.1 p.2 := by
  rw [linePair?, Option.ite_none_left_eq_some, manualPair?_eq_some_iff, Bool.not_eq_true]

/-! ## Sets of pairs -/

/-- The set with further pairs, in order. -/
def ManualPairs.insertAll (m : ManualPairs) (ps : List (String × String)) : ManualPairs :=
  ps.foldl (fun m p => m.insert p.1 p.2) m

/-- After all insertions a set has its pairs and the new ones. -/
theorem ManualPairs.mem_insertAll {ps : List (String × String)} :
    p ∈ (m.insertAll ps).pairs ↔ p ∈ m.pairs ∨ p ∈ ps := by
  induction ps generalizing m with
  | nil => simp [insertAll]
  | cons q ps ih =>
      show p ∈ ((m.insert q.1 q.2).insertAll ps).pairs ↔ _
      rw [ih, mem_insert, List.mem_cons, or_assoc]

/-! ## Reading a list -/

section

variable {q : Nat × List Char} {ls : List (Nat × List Char)}

/-- A blank line is passed over. -/
theorem readManualFrom_cons_of_blank (h : Text.allBlank (withoutReturns q.2) = true) :
    readManualFrom pairs (q :: ls) = readManualFrom pairs ls := if_pos h

/-- The pair of any other line is added, and without one the line is refused. -/
theorem readManualFrom_cons_of_not_blank (h : Text.allBlank (withoutReturns q.2) = false) :
    readManualFrom pairs (q :: ls) =
      match manualPair? (withoutReturns q.2) with
      | some (t, h) => readManualFrom (pairs.insert t h) ls
      | none => .error (.manualAlignment q.1) := if_neg (ne_true_of_eq_false h)

/-- Numbered lines are refused for the first malformed one, and otherwise all their pairs are
added. -/
theorem readManualFrom_eq (pairs : ManualPairs) (ls : List (Nat × List Char)) :
    readManualFrom pairs ls =
      match ls.find? fun q => Malformed (withoutReturns q.2) with
      | some q => .error (.manualAlignment q.1)
      | none => .ok (pairs.insertAll (ls.filterMap fun q => linePair? (withoutReturns q.2))) := by
  induction ls generalizing pairs with
  | nil => rfl
  | cons q ls ih =>
      rw [List.find?_cons, List.filterMap_cons]
      cases hblank : Text.allBlank (withoutReturns q.2) with
      | true =>
          have hwell : ¬Malformed (withoutReturns q.2) := by simp [malformed_iff, hblank]
          rw [readManualFrom_cons_of_blank hblank, linePair?_of_blank hblank, decide_eq_false hwell]
          exact ih pairs
      | false =>
          rw [readManualFrom_cons_of_not_blank hblank, linePair?_of_not_blank hblank]
          cases hpair : manualPair? (withoutReturns q.2) with
          | none => rw [decide_eq_true (malformed_iff.2 ⟨hblank, hpair⟩)]
          | some p =>
              have hwell : ¬Malformed (withoutReturns q.2) := by simp [malformed_iff, hpair]
              rw [decide_eq_false hwell]
              exact ih (pairs.insert p.1 p.2)

end

/-- The lines of a manual list, without the carriage returns at their ends. -/
def manualLines (text : String) : List (List Char) := (Text.lines text.toList).map withoutReturns

/-- The lines of a manual list are the numbered lines, without carriage returns at their ends. -/
theorem getElem?_manualLines (text : String) (k : Nat) :
    (manualLines text)[k]? =
      (Text.numbered text.toList)[k]?.map fun q => withoutReturns q.2 := by
  rw [manualLines, List.getElem?_map, Text.getElem?_numbered, Option.map_map]
  rfl

/-- A numbered line carries its place, counted from one. -/
theorem fst_of_getElem?_numbered {cs : List Char} {k : Nat} {q : Nat × List Char}
    (h : (Text.numbered cs)[k]? = some q) : q.1 = k + 1 := by
  rw [Text.getElem?_numbered, Option.map_eq_some_iff] at h
  obtain ⟨line, -, rfl⟩ := h
  rfl

/-- The first element with a property is the one with no such element before it. -/
theorem find?_eq_some_iff_getElem? {α : Type} {xs : List α} {P : α → Bool} {x : α} :
    xs.find? P = some x ↔
      ∃ k : Nat, xs[k]? = some x ∧ P x = true ∧ ∀ j < k, ∀ y, xs[j]? = some y → ¬P y = true := by
  rw [List.find?_eq_some_iff_getElem]
  constructor
  · rintro ⟨hx, k, hk, rfl, hbefore⟩
    refine ⟨k, List.getElem?_eq_getElem hk, hx, fun j hj y hy => ?_⟩
    obtain ⟨_, rfl⟩ := List.getElem?_eq_some_iff.1 hy
    simpa using hbefore j hj
  · rintro ⟨k, hk, hx, hbefore⟩
    obtain ⟨hlt, rfl⟩ := List.getElem?_eq_some_iff.1 hk
    refine ⟨hx, k, hlt, rfl, fun j hj => ?_⟩
    simpa using hbefore j hj _ (List.getElem?_eq_getElem (hj.trans hlt))

/-- A list is refused for its first malformed line. -/
theorem readManual_eq_error_iff {e : ReadError} :
    readManual text = .error e ↔
      ∃ k line, (manualLines text)[k]? = some line ∧ Malformed line ∧
        (∀ j < k, ∀ earlier, (manualLines text)[j]? = some earlier → ¬Malformed earlier) ∧
        e = .manualAlignment (k + 1) := by
  have hfound : readManual text = .error e ↔
      ∃ q, (Text.numbered text.toList).find? (fun q => Malformed (withoutReturns q.2)) = some q ∧
        e = .manualAlignment q.1 := by
    rw [readManual, readManualFrom_eq]
    split <;> simp [*, eq_comm]
  rw [hfound]
  simp only [find?_eq_some_iff_getElem?, decide_eq_true_eq]
  constructor
  · rintro ⟨q, ⟨k, hk, hq, hbefore⟩, rfl⟩
    refine ⟨k, withoutReturns q.2, ?_, hq, fun j hj earlier hearlier => ?_, ?_⟩
    · rw [getElem?_manualLines, hk, Option.map_some]
    · rw [getElem?_manualLines, Option.map_eq_some_iff] at hearlier
      obtain ⟨q', hq', rfl⟩ := hearlier
      exact hbefore j hj q' hq'
    · rw [fst_of_getElem?_numbered hk]
  · rintro ⟨k, line, hk, hline, hbefore, rfl⟩
    rw [getElem?_manualLines, Option.map_eq_some_iff] at hk
    obtain ⟨q, hk, rfl⟩ := hk
    refine ⟨q, ⟨k, hk, hline, fun j hj q' hq' => hbefore j hj _ ?_⟩, ?_⟩
    · rw [getElem?_manualLines, hq', Option.map_some]
    · rw [fst_of_getElem?_numbered hk]

/-- A list without malformed lines is read, and has the pairs of its lines. -/
theorem readManual_eq_ok_iff :
    readManual text = .ok m ↔
      (∀ line ∈ manualLines text, ¬Malformed line) ∧
        m = ManualPairs.empty.insertAll ((manualLines text).filterMap linePair?) := by
  have hlines : manualLines text =
      (Text.numbered text.toList).map fun q => withoutReturns q.2 := by
    rw [manualLines, ← Text.map_snd_numbered, List.map_map]
    rfl
  rw [readManual, readManualFrom_eq, hlines, List.forall_mem_map, List.filterMap_map]
  split
  · next q hfind =>
      have hq : Malformed (withoutReturns q.2) := by simpa using List.find?_some hfind
      exact iff_of_false (by simp) fun hall => hall.1 q (List.mem_of_find?_eq_some hfind) hq
  · next hfind =>
      rw [and_iff_right (by simpa using List.find?_eq_none.1 hfind), Except.ok.injEq]
      exact eq_comm

/-! ## What is read -/

section

variable (hread : readManual text = .ok m)

include hread

/-- A pair is read if some line that is not blank declares it. -/
theorem mem_pairs_of_readManual :
    p ∈ m.pairs ↔
      ∃ line ∈ manualLines text, Text.allBlank line = false ∧ Declares line p.1 p.2 := by
  rw [(readManual_eq_ok_iff.1 hread).2, ManualPairs.mem_insertAll, List.mem_filterMap]
  simp [ManualPairs.empty, linePair?_eq_some_iff]

/-- A line that is not blank declares a pair. -/
theorem exists_declares_of_readManual (hline : line ∈ manualLines text)
    (hblank : Text.allBlank line = false) : ∃ t h, Declares line t h :=
  not_malformed_iff.1 ((readManual_eq_ok_iff.1 hread).1 line hline) hblank

/-- Two tokens are a pair if there is a line of their forms and parts of speech. -/
theorem contains_iff_of_readManual (x y : Token) :
    m.contains x y = true ↔ pairLine (x.manualKey, y.manualKey) ∈ manualLines text := by
  rw [ManualPairs.contains, ManualPairs.hasPair, List.contains_iff_mem,
    mem_pairs_of_readManual hread]
  constructor
  · rintro ⟨line, hline, -, hd⟩
    rwa [pairLine, ← hd.eq_sides]
  · intro hline
    obtain ⟨t, h, hd⟩ :=
      exists_declares_of_readManual hread hline (allBlank_pairLine_manualKey x y)
    exact ⟨_, hline, allBlank_pairLine_manualKey x y,
      hd.of_pairLine (manualKey_ne_empty x) (manualKey_ne_empty y)⟩

/-- There are as many pairs as different lines that are not blank. -/
theorem size_eq_of_readManual :
    m.size = ((manualLines text).filter fun line => !Text.allBlank line).toFinset.card := by
  have hdeclares (p) (hp : p ∈ m.pairs) : Declares (pairLine p) p.1 p.2 := by
    obtain ⟨line, -, -, hd⟩ := (mem_pairs_of_readManual hread).1 hp
    rwa [pairLine, ← hd.eq_sides]
  -- No two pairs have the same line, so that the lines of the pairs are counted instead.
  have hnodup : (m.pairs.map pairLine).Nodup := by
    refine List.Nodup.map_on (fun p hp q hq heq => ?_) m.distinct
    exact (hdeclares p hp).unique (heq ▸ hdeclares q hq)
  have hlines : (m.pairs.map pairLine).toFinset =
      ((manualLines text).filter fun line => !Text.allBlank line).toFinset := by
    ext line
    simp only [List.mem_toFinset, List.mem_map, List.mem_filter, Bool.not_eq_true']
    constructor
    · rintro ⟨p, hp, rfl⟩
      obtain ⟨line, hline, hblank, hd⟩ := (mem_pairs_of_readManual hread).1 hp
      rw [pairLine, ← hd.eq_sides]
      exact ⟨hline, hblank⟩
    · rintro ⟨hline, hblank⟩
      obtain ⟨t, h, hd⟩ := exists_declares_of_readManual hread hline hblank
      exact ⟨(t, h), (mem_pairs_of_readManual hread).2 ⟨line, hline, hblank, hd⟩,
        hd.eq_sides.symm⟩
  rw [← hlines, List.toFinset_card_of_nodup hnodup, List.length_map, ManualPairs.size]

end

/-- A manual list is read exactly if every line that is not blank declares a pair: it is two sides
that are not empty, with the only tab of the line between them. Otherwise it is refused for the
first line that does not, and lines count from one. In a list that is read, two tokens are a pair
exactly if some line is made up of their forms and parts of speech, and there are as many pairs as
different lines that are not blank. Carriage returns at the ends of lines do not count. -/
theorem manual_list_reads_every_line (text : String) :
    let lines := (Text.lines text.toList).map (Text.dropEndWhile (· == '\r'))
    ((∃ m, readManual text = .ok m) ↔
      ∀ line ∈ lines, Text.allBlank line = false → ∃ t h, Declares line t h) ∧
    (∀ e, readManual text = .error e ↔
      ∃ k line, lines[k]? = some line ∧ Malformed line ∧
        (∀ j < k, ∀ earlier, lines[j]? = some earlier → ¬Malformed earlier) ∧
        e = .manualAlignment (k + 1)) ∧
    ∀ m, readManual text = .ok m →
      (∀ x y : Token, m.contains x y = true ↔
        (x.form ++ "_" ++ x.pos ++ "\t" ++ y.form ++ "_" ++ y.pos).toList ∈ lines) ∧
      m.size = (lines.filter fun line => !Text.allBlank line).toFinset.card := by
  intro lines
  refine ⟨?_, fun e => readManual_eq_error_iff, fun m hread => ⟨fun x y => ?_, ?_⟩⟩
  · simp only [readManual_eq_ok_iff, exists_and_left, exists_eq, and_true, not_malformed_iff]
    rfl
  · rw [contains_iff_of_readManual hread, pairLine_manualKey]
    rfl
  · exact size_eq_of_readManual hread

/-- A pair that is declared twice, with a blank line in between that holds a tab. -/
theorem manual_list_reads_every_line_twice :
    let text := "kill_VB\tdie_VB\r\n \t \nkill_VB\tdie_VB"
    let kill := Token.make 0 "kill" "kill" "VB" none "ROOT"
    let die := Token.make 0 "die" "die" "VB" none "ROOT"
    ∃ m, readManual text = .ok m ∧ m.size = 1 ∧ m.contains kill die = true ∧
      m.contains die kill = false := by
  intro text kill die
  have hwell : ∀ line ∈ manualLines text, ¬Malformed line := by decide
  obtain ⟨hok, -, hm⟩ := manual_list_reads_every_line text
  obtain ⟨m, hread⟩ := hok.2 fun line hline => not_malformed_iff.1 (hwell line hline)
  obtain ⟨hcontains, hsize⟩ := hm m hread
  refine ⟨m, hread, hsize.trans (by decide), (hcontains kill die).2 (by decide), ?_⟩
  rw [← Bool.not_eq_true, hcontains]
  decide

end Entailment
