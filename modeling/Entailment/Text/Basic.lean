/-! # Texts

Blanks and lines of a text, and one text in another. White space is what has the Unicode property
`White_Space`. A line ends at a line feed, and a carriage return right before that line feed belongs
to the end of the line; text after the last line feed is a line of its own, unless it is empty.

* **`isBlank`**, **`trimmed`** — white space, and a text without any at its two ends;
* **`lines`**, **`numbered`** — the lines of a text without their ends, and with their numbers;
* **`occurs`**, **`splitAt?`** — whether a text occurs in another, and the two sides of a character;
* **`joinWith`** — texts with a separator between neighbours. -/

namespace Entailment.Text

/-! ## White space -/

/-- The characters with the Unicode property `White_Space`. -/
def isBlank (c : Char) : Bool :=
  let n := c.toNat
  (0x09 ≤ n && n ≤ 0x0D) || n == 0x20 || n == 0x85 || n == 0xA0 || n == 0x1680 ||
    (0x2000 ≤ n && n ≤ 0x200A) || n == 0x2028 || n == 0x2029 || n == 0x202F || n == 0x205F ||
    n == 0x3000

/-- The characters that separate the fields of one line: space and tab. -/
def isGap (c : Char) : Bool := c == ' ' || c == '\t'

/-- A separator of fields is a blank. -/
theorem isBlank_of_isGap {c : Char} (h : isGap c = true) : isBlank c = true := by
  simp only [isGap, Bool.or_eq_true, beq_iff_eq] at h
  rcases h with rfl | rfl <;> decide

/-- The text without the characters of class `p` at its end. -/
def dropEndWhile (p : Char → Bool) (cs : List Char) : List Char :=
  (cs.reverse.dropWhile p).reverse

/-- The text without blanks at its two ends. -/
def trimmed (cs : List Char) : List Char := dropEndWhile isBlank (cs.dropWhile isBlank)

/-- Whether the text holds nothing but blanks. -/
def allBlank (cs : List Char) : Bool := cs.all isBlank

/-- The string without blanks at its two ends. -/
def trim (s : String) : String := String.ofList (trimmed s.toList)

/-- There is nothing to trim in the empty text. -/
@[simp] theorem trimmed_nil : trimmed [] = [] := rfl

/-! ## Lines -/

/-- A line read so far, last character first, without the carriage return of its end. -/
def dropReturn : List Char → List Char
  | '\r' :: cs => cs
  | cs => cs

/-- The lines of `acc.reverse ++ cs`, where `acc` is the current line read so far, last character
first. -/
def linesFrom (acc : List Char) : List Char → List (List Char)
  | [] => if acc.isEmpty then [] else [acc.reverse]
  | '\n' :: cs => (dropReturn acc).reverse :: linesFrom [] cs
  | c :: cs => linesFrom (c :: acc) cs

/-- The lines of a text, without their ends. -/
def lines (cs : List Char) : List (List Char) := linesFrom [] cs

/-- The lines of a text with their numbers, counted from one. -/
def numbered (cs : List Char) : List (Nat × List Char) :=
  (lines cs).zipIdx 1 |>.map fun p => (p.2, p.1)

/-- The empty text has no lines. -/
@[simp] theorem lines_nil : lines [] = [] := rfl

/-! ## Finding and joining -/

/-- Whether `needle` occurs in the given text as a run of neighbouring characters. -/
def occurs (needle : List Char) : List Char → Bool
  | [] => needle.isEmpty
  | c :: cs => needle.isPrefixOf (c :: cs) || occurs needle cs

/-- Whether the string `needle` occurs in `s`. -/
def occursIn (needle s : String) : Bool := occurs needle.toList s.toList

/-- The text before and the text after the first occurrence of `sep`. -/
def splitAt? (sep : Char) : List Char → Option (List Char × List Char)
  | [] => none
  | c :: cs =>
    if c = sep then some ([], cs)
    else (splitAt? sep cs).map fun p => (c :: p.1, p.2)

/-- The strings one after the other, with `sep` between neighbours. -/
def joinWith (sep : String) : List String → String
  | [] => ""
  | [s] => s
  | s :: t :: rest => s ++ sep ++ joinWith sep (t :: rest)

/-- Joining no strings gives the empty one. -/
@[simp] theorem joinWith_nil (sep : String) : joinWith sep [] = "" := rfl

/-- One string needs no separator. -/
@[simp] theorem joinWith_singleton (sep s : String) : joinWith sep [s] = s := rfl

/-- The first two of several strings have the separator between them. -/
@[simp] theorem joinWith_cons_cons (sep s t : String) (rest : List String) :
    joinWith sep (s :: t :: rest) = s ++ sep ++ joinWith sep (t :: rest) := rfl

/-- A string in front of others is followed by the separator. -/
theorem joinWith_cons_of_ne_nil (sep s : String) {rest : List String} (h : rest ≠ []) :
    joinWith sep (s :: rest) = s ++ sep ++ joinWith sep rest := by
  cases rest with
  | nil => exact absurd rfl h
  | cons t rest => exact joinWith_cons_cons sep s t rest

/-- The letters `A` to `Z` in lower case, every other character as it is. -/
def asciiLower (cs : List Char) : List Char :=
  cs.map fun c => if 'A' ≤ c ∧ c ≤ 'Z' then Char.ofNat (c.toNat + 32) else c

end Entailment.Text
