import Entailment.Json.Value

/-! # Reading JSON

The lexemes of a text are taken one by one, with a stack of the arrays and objects that are still
open.

* **`Lexeme`** — a mark of punctuation, a string, or another value without parts;
* **`lexemes?`** — the lexemes of a text;
* **`Frame`**, **`Phase`** — an open array or object; what may come next;
* **`Phase.step`** — what one lexeme does;
* **`read?`** — the value of a text. -/

namespace Entailment.Json

/-! ## Lexemes -/

/-- The smallest parts of a JSON text. -/
inductive Lexeme where
  /-- A bracket, a brace, a colon or a comma. -/
  | mark (c : Char)
  /-- A string; none if half a surrogate pair is in it. -/
  | text (s : Option String)
  /-- A number or a name of a value. -/
  | scalar (v : Value)

/-- A character of a string literal, or a 16-bit unit that is written as an escape. -/
inductive Piece where
  /-- A character. -/
  | plain (c : Char)
  /-- A unit. -/
  | unit (n : Nat)
  deriving DecidableEq, Repr

/-- The character behind a one-letter escape. -/
def escaped? : Char → Option Char
  | '"' => some '"'
  | '\\' => some '\\'
  | '/' => some '/'
  | 'b' => some '\x08'
  | 'f' => some '\x0c'
  | 'n' => some '\n'
  | 'r' => some '\r'
  | 't' => some '\t'
  | _ => none

/-- The pieces between the quotes of a string literal; none if an escape is malformed. -/
def pieces? : List Char → Option (List Piece)
  | [] => some []
  | '\\' :: 'u' :: a :: b :: c :: d :: cs =>
    match Text.hexDigitsValue? [a, b, c, d] with
    | some n => (pieces? cs).map (.unit n :: ·)
    | none => none
  | '\\' :: c :: cs =>
    match escaped? c with
    | some e => (pieces? cs).map (.plain e :: ·)
    | none => none
  | ['\\'] => none
  | c :: cs => (pieces? cs).map (.plain c :: ·)

/-- Whether a unit is the first half of a surrogate pair. -/
def isHighSurrogate (n : Nat) : Bool := 0xD800 ≤ n && n < 0xDC00

/-- Whether a unit is the second half of a surrogate pair. -/
def isLowSurrogate (n : Nat) : Bool := 0xDC00 ≤ n && n < 0xE000

/-- The characters that pieces stand for; none if half a surrogate pair is left. -/
def joinPieces? : List Piece → Option (List Char)
  | [] => some []
  | .plain c :: rest => (joinPieces? rest).map (c :: ·)
  | .unit high :: .unit low :: rest =>
    if isHighSurrogate high then
      -- The halves carry ten bits each.
      if isLowSurrogate low then
        (joinPieces? rest).map
          (Char.ofNat (0x10000 + (high - 0xD800) * 0x400 + (low - 0xDC00)) :: ·)
      else none
    else if isLowSurrogate high then none
    else (joinPieces? (.unit low :: rest)).map (Char.ofNat high :: ·)
  | .unit n :: rest =>
    if isHighSurrogate n || isLowSurrogate n then none
    else (joinPieces? rest).map (Char.ofNat n :: ·)

/-- The lexeme of a string literal, given what stands between its quotes. -/
def textLexeme? (raw : List Char) : Option Lexeme :=
  (pieces? raw).map fun ps => .text ((joinPieces? ps).map String.ofList)

/-- The lexeme of a word: the name of a value, or a numeral. -/
def wordLexeme? (word : List Char) : Option Lexeme :=
  match String.ofList word with
  | "null" => some (.scalar .null)
  | "true" => some (.scalar (.bool true))
  | "false" => some (.scalar (.bool false))
  | _ => (Decimal.Numeral.read? word).map fun numeral =>
    .scalar ((numeral.number?.map Value.number).getD .illFormed)

/-- The white space of JSON. -/
def isSpace (c : Char) : Bool := c == ' ' || c == '\n' || c == '\t' || c == '\r'

/-- The marks of punctuation of JSON. -/
def isMark (c : Char) : Bool :=
  c == '[' || c == ']' || c == '\x7b' || c == '\x7d' || c == ':' || c == ','

/-- Where in a lexeme a reader stands. -/
inductive LexState where
  /-- Between lexemes. -/
  | between
  /-- In a string, after the characters `raw` (last one first), right behind a backslash or not. -/
  | inText (raw : List Char) (behindBackslash : Bool)
  /-- In a word, after the characters `raw` (last one first). -/
  | inWord (raw : List Char)

/-- The lexemes from some point on, after those in `acc` (last one first). -/
def lexemesFrom (acc : List Lexeme) : LexState → List Char → Option (List Lexeme)
  | .between, [] => some acc.reverse
  | .inText .., [] => none
  | .inWord raw, [] => (wordLexeme? raw.reverse).map fun l => (l :: acc).reverse
  | .between, c :: cs =>
    if isSpace c then lexemesFrom acc .between cs
    else if isMark c then lexemesFrom (.mark c :: acc) .between cs
    else if c = '"' then lexemesFrom acc (.inText [] false) cs
    else lexemesFrom acc (.inWord [c]) cs
  | .inText raw behindBackslash, c :: cs =>
    -- A control character has to be escaped.
    if c < ' ' then none
    else if behindBackslash then lexemesFrom acc (.inText (c :: raw) false) cs
    else if c = '\\' then lexemesFrom acc (.inText (c :: raw) true) cs
    else if c = '"' then
      match textLexeme? raw.reverse with
      | some l => lexemesFrom (l :: acc) .between cs
      | none => none
    else lexemesFrom acc (.inText (c :: raw) false) cs
  | .inWord raw, c :: cs =>
    if isSpace c || isMark c || c == '"' then
      match wordLexeme? raw.reverse with
      | none => none
      | some l =>
        if isSpace c then lexemesFrom (l :: acc) .between cs
        else if isMark c then lexemesFrom (.mark c :: l :: acc) .between cs
        else lexemesFrom (l :: acc) (.inText [] false) cs
    else lexemesFrom acc (.inWord (c :: raw)) cs

/-- The lexemes of a text. -/
def lexemes? (s : String) : Option (List Lexeme) := lexemesFrom [] .between s.toList

/-! ## Values -/

/-- An array or object that is still open, around a value that is being read. -/
inductive Frame where
  /-- An array with the items so far, last one first. -/
  | items (done : List Value)
  /-- An object with the fields so far, last one first, and the name of the value being read. It is
  sound as long as all names are well-formed. -/
  | fields (sound : Bool) (done : List (String × Value)) (name : String)

/-- What may come next. -/
inductive Phase where
  /-- A value. -/
  | value
  /-- The first item of an array, or its end. -/
  | firstItem
  /-- The first name of an object, or its end. -/
  | firstName
  /-- A further name of an object. -/
  | nextName (sound : Bool) (done : List (String × Value))
  /-- The colon after a name. -/
  | colon (sound : Bool) (done : List (String × Value)) (name : String)
  /-- What follows a value that was read. -/
  | complete (v : Value)

/-- The state of a reader: the open arrays and objects, the innermost first, and what may come
next. -/
abbrev ReadState := List Frame × Phase

/-- The state after a name. -/
def afterName (stack : List Frame) (sound : Bool) (done : List (String × Value)) :
    Option String → ReadState
  | some name => (stack, .colon sound done name)
  | none => (stack, .colon false done "")

/-- The state after the first lexeme of a value. -/
def beginValue (stack : List Frame) : Lexeme → Option ReadState
  | .scalar v => some (stack, .complete v)
  | .text (some s) => some (stack, .complete (.string s))
  | .text none => some (stack, .complete .illFormed)
  | .mark c =>
    if c = '[' then some (stack, .firstItem)
    else if c = '\x7b' then some (stack, .firstName)
    else none

/-- The state after a mark that follows a value. -/
def afterValue (v : Value) (c : Char) : List Frame → Option ReadState
  | [] => none
  | .items done :: stack =>
    if c = ',' then some (.items (v :: done) :: stack, .value)
    else if c = ']' then some (stack, .complete (.array (v :: done).reverse))
    else none
  | .fields sound done name :: stack =>
    if c = ',' then some (stack, .nextName sound ((name, v) :: done))
    else if c = '\x7d' then
      some (stack, .complete (if sound then .object ((name, v) :: done).reverse else .illFormed))
    else none

/-- The state after one further lexeme. -/
def Phase.step : ReadState → Lexeme → Option ReadState
  | (stack, .value), l => beginValue stack l
  | (stack, .firstItem), .mark ']' => some (stack, .complete (.array []))
  | (stack, .firstItem), l => beginValue (.items [] :: stack) l
  -- An end may stand before the first name only: a comma asks for another one.
  | (stack, .firstName), .mark '\x7d' => some (stack, .complete (.object []))
  | (stack, .firstName), .text s => some (afterName stack true [] s)
  | (stack, .nextName sound done), .text s => some (afterName stack sound done s)
  | (stack, .colon sound done name), .mark ':' => some (.fields sound done name :: stack, .value)
  | (stack, .complete v), .mark c => afterValue v c stack
  | _, _ => none

/-- The value of a text. -/
def read? (s : String) : Option Value := do
  let ls ← lexemes? s
  match ← ls.foldlM Phase.step ([], .value) with
  | ([], .complete v) => some v
  | _ => none

end Entailment.Json
