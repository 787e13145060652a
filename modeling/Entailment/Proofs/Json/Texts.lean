import Entailment.Json.Reader
import Entailment.Json.Writer
import Entailment.Proofs.Text.Basic

/-! # JSON texts

What a writer takes from a value is escaped, and what it adds are marks and digits. So a value that
is written compactly has no control character in it, and stays on one line. And as no lexeme but a
string reaches over a mark, a text can be read in parts that begin with marks.

* **`printable_quoted`**, **`printable_numberText`** — strings and numbers;
* **`printable_compact`** — every value;
* **`lexemesFrom_append`** — a mark ends a lexeme;
* **`readFrom_append`** — from a mark on, reading goes on where it was. -/

namespace Entailment.Json

open Decimal (Number Scaled)
open Text (Printable)

/-! ## Numbers -/

/-- Decimal digits are printable. -/
theorem printable_toDigits (n : Nat) : Printable (Nat.toDigits 10 n) := by
  intro c hc
  have hdigit := Nat.isDigit_of_mem_toDigits (by decide) (by decide) hc
  simp only [Char.isDigit, Bool.and_eq_true, decide_eq_true_eq] at hdigit
  exact Char.le_trans (b := '0') (by decide) hdigit.1

/-- The text of a natural number is printable. -/
theorem printable_natText (n : Nat) : Printable (toString n).toList := by
  rw [Nat.toString_eq_repr, Nat.toList_repr]
  exact printable_toDigits n

/-- Zeros are printable. -/
theorem printable_zeros (n : Nat) : Printable (zeros n) := by
  intro c hc
  rw [List.eq_of_mem_replicate hc]
  decide

/-- The text of a decimal is printable, wherever its point falls. -/
theorem printable_decimalText (s : Scaled) : Printable (decimalText s) := by
  have hdigits := printable_toDigits s.digits
  have htake : ∀ n, Printable ((Nat.toDigits 10 s.digits).take n) :=
    fun n => hdigits.sublist (List.take_sublist n _)
  have hdrop : ∀ n, Printable ((Nat.toDigits 10 s.digits).drop n) :=
    fun n => hdigits.sublist (List.drop_sublist n _)
  have htail : Printable (Nat.toDigits 10 s.digits).tail := hdigits.sublist (List.tail_sublist _)
  unfold decimalText
  dsimp only
  split_ifs <;>
    simp [hdigits, htake, hdrop, htail, printable_zeros, printable_toDigits]

/-- The text of a float is printable. -/
theorem printable_floatText (x : Float) : Printable (floatText x).toList := by
  unfold floatText
  split
  · simp
  · simp
  · split <;> simp
  · split <;> simp [printable_decimalText]

/-- The text of a number is printable. -/
theorem printable_numberText (n : Number) : Printable (numberText n).toList := by
  cases n with
  | natural n => exact printable_natText n
  | negative n =>
      rw [numberText, String.toList_append, Text.printable_append]
      exact ⟨by simp, printable_natText n⟩
  | float x => exact printable_floatText x

/-! ## Strings -/

/-- Hexadecimal digits are printable. -/
theorem space_le_digitChar : ∀ n < 16, ' ' ≤ Nat.digitChar n := by decide

/-- A control character is escaped, and every other character is printable. -/
theorem printable_escapedChar (c : Char) : Printable (escapedChar c) := by
  -- The escape of a control character has two hexadecimal digits of its code point.
  by_cases hcontrol : c < ' '
  · have hlow : c.toNat < 32 := hcontrol
    have hhigh : ' ' ≤ Nat.digitChar (c.toNat / 16) := space_le_digitChar _ (by omega)
    have hrest : ' ' ≤ Nat.digitChar (c.toNat % 16) := space_le_digitChar _ (by omega)
    unfold escapedChar
    split_ifs <;> simp [hhigh, hrest]
  · unfold escapedChar
    split_ifs <;> simp [Char.not_lt.1 hcontrol]

/-- A string between its quotes is printable. -/
theorem printable_quoted (s : String) : Printable (quoted s).toList := by
  have hbody : Printable (s.toList.flatMap escapedChar) := by
    intro c hc
    obtain ⟨d, -, hd⟩ := List.mem_flatMap.1 hc
    exact printable_escapedChar d c hd
  simp [quoted, hbody]

/-! ## Values -/

mutual

/-- A value on one line has no control character. -/
theorem printable_compact : ∀ v, Printable (compact v).toList
  | .null => by simp [compact]
  | .bool b => by cases b <;> simp [compact]
  | .number n => printable_numberText n
  | .string s => printable_quoted s
  | .array items => by simp [compact, printable_compactItems items]
  | .object fields => by simp [compact, printable_compactFields fields]
  | .illFormed => by simp [compact]

/-- The items of an array on one line have no control character. -/
theorem printable_compactItems : ∀ items, Printable (compactItems items).toList
  | [] => by simp [compactItems]
  | [v] => printable_compact v
  | v :: w :: rest => by
      simp [compactItems, printable_compact v, printable_compactItems (w :: rest)]

/-- The fields of an object on one line have no control character. -/
theorem printable_compactFields : ∀ fields, Printable (compactFields fields).toList
  | [] => by simp [compactFields]
  | [f] => by simp [compactFields, printable_quoted, printable_compact f.2]
  | f :: g :: rest => by
      simp [compactFields, printable_quoted, printable_compact f.2,
        printable_compactFields (g :: rest)]

end

/-! ## Reading in parts -/

section Parts

variable {acc ls : List Lexeme} {state next last : ReadState} {xs ys : List Char} {c : Char}

/-- Marks are not blank. -/
theorem isSpace_eq_false_of_isMark (hc : isMark c = true) : isSpace c = false := by
  simp only [isMark, Bool.or_eq_true, beq_iff_eq] at hc
  rcases hc with ((((rfl | rfl) | rfl) | rfl) | rfl) | rfl <;> decide

/-- Outside strings a mark ends a lexeme: up to it and from it on, a text is cut apart. -/
theorem lexemesFrom_append {place : LexState} (hc : isMark c = true)
    (h : lexemesFrom acc place xs = some ls) :
    lexemesFrom acc place (xs ++ c :: ys) = lexemesFrom ls.reverse .between (c :: ys) := by
  have hspace := isSpace_eq_false_of_isMark hc
  fun_induction lexemesFrom acc place xs with
  | case1 acc =>
      obtain rfl := Option.some.inj h
      rw [List.nil_append, List.reverse_reverse]
  | case3 acc raw =>
      obtain ⟨l, hl, rfl⟩ := Option.map_eq_some_iff.1 h
      simp [lexemesFrom, hl, hc, hspace]
  -- Everywhere else the text has a first character, which is taken either way.
  | _ => grind [lexemesFrom]

/-- Lexemes that are there already stay in front. -/
theorem lexemesFrom_concat (acc front : List Lexeme) (place : LexState) (cs : List Char) :
    lexemesFrom (acc ++ front) place cs = (lexemesFrom acc place cs).map (front.reverse ++ ·) := by
  fun_induction lexemesFrom acc place cs with
  | case1 acc => simp [lexemesFrom]
  | case3 acc raw => simp [lexemesFrom, Function.comp_def]
  | _ => grind [lexemesFrom]

/-- The state after the lexemes of a text, from a state on. -/
def readFrom (state : ReadState) (s : String) : Option ReadState :=
  (lexemes? s).bind fun ls => ls.foldlM Phase.step state

/-- From a mark on, reading goes on where it was. -/
theorem readFrom_append {left right : String} (hleft : readFrom state left = some next)
    (hc : isMark c = true) (hright : readFrom next (String.singleton c ++ right) = some last) :
    readFrom state (left ++ (String.singleton c ++ right)) = some last := by
  obtain ⟨ls, hls, hnext⟩ := Option.bind_eq_some_iff.1 hleft
  obtain ⟨ms, hms, hlast⟩ := Option.bind_eq_some_iff.1 hright
  have hcut : lexemes? (left ++ (String.singleton c ++ right)) = some (ls ++ ms) := by
    have hmark : (String.singleton c ++ right).toList = c :: right.toList := by simp
    rw [lexemes?, hmark] at hms
    rw [lexemes?, String.toList_append, hmark, lexemesFrom_append hc hls,
      ← List.nil_append ls.reverse, lexemesFrom_concat, hms, List.reverse_reverse, Option.map_some]
  rw [readFrom, hcut, Option.bind_some, List.foldlM_append, hnext]
  exact hlast

/-- A text is read when all of it is one value. -/
theorem read?_of_readFrom {s : String} {v : Value}
    (h : readFrom ([], .value) s = some ([], .complete v)) : read? s = some v := by
  obtain ⟨ls, hls, hv⟩ := Option.bind_eq_some_iff.1 h
  rw [read?, hls]
  simp [hv]

end Parts

end Entailment.Json
