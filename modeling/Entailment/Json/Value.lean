import Entailment.Decimal.Numeral

/-! # JSON values

* **`Value`** — a JSON value; the fields of an object keep their order, and may repeat a name;
* **`Value.keepable`** — whether a value can be taken in as it is, down to a depth;
* **`Value.word?`**, **`Value.text?`**, … — a value as plain data;
* **`Value.optional?`** — a value that may be `null`;
* **`Value.choice?`**, **`Value.wideChoice?`** — one of a list of names;
* **`Value.record?`** — the fields of a record, which may be written as an object or as an array. -/

namespace Entailment.Json

open Decimal (Number)

/-- A JSON value. -/
inductive Value where
  /-- The value `null`. -/
  | null
  /-- A truth value. -/
  | bool (b : Bool)
  /-- A number. -/
  | number (n : Number)
  /-- A string. -/
  | string (s : String)
  /-- An array. -/
  | array (items : List Value)
  /-- An object. -/
  | object (fields : List (String × Value))
  /-- A text that is written like a value and stands for none: a number out of range, a string with
  half a surrogate pair, or an object with such a name in it. -/
  | illFormed

namespace Value

/-- A natural number as a value. -/
def ofNat (n : Nat) : Value := .number (.natural n)

/-- A double as a value. -/
def ofFloat (x : Float) : Value := .number (.float x)

/-- A value that may be missing, with `null` for the missing one. -/
def ofOption {α : Type} (f : α → Value) : Option α → Value
  | none => .null
  | some a => f a

/-- The deepest nesting of arrays and objects that is taken in. -/
def depthLimit : Nat := 127

mutual

/-- Whether nothing in a value is ill-formed, and its arrays and objects nest at most so deep. -/
def keepable (depth : Nat) : Value → Bool
  | .null => true
  | .bool _ => true
  | .number _ => true
  | .string _ => true
  | .array items => 0 < depth && keepableItems (depth - 1) items
  | .object fields => 0 < depth && keepableFields (depth - 1) fields
  | .illFormed => false

/-- Whether all items are keepable. -/
def keepableItems (depth : Nat) : List Value → Bool
  | [] => true
  | v :: rest => keepable depth v && keepableItems depth rest

/-- Whether the values of all fields are keepable. -/
def keepableFields (depth : Nat) : List (String × Value) → Bool
  | [] => true
  | f :: rest => keepable depth f.2 && keepableFields depth rest

end

/-! ## Taking values apart -/

/-- The machine word that a value is. -/
def word? : Value → Option Nat
  | .number n => n.word?
  | _ => none

/-- The double that a number is. -/
def float? : Value → Option Float
  | .number n => some n.toFloat
  | _ => none

/-- The string that a value is. -/
def text? : Value → Option String
  | .string s => some s
  | _ => none

/-- The truth value that a value is. -/
def bool? : Value → Option Bool
  | .bool b => some b
  | _ => none

/-- The items of an array. -/
def items? : Value → Option (List Value)
  | .array items => some items
  | _ => none

/-- What a reader makes of a value, or nothing of `null`. -/
def optional? {α : Type} (reader : Value → Option α) : Value → Option (Option α)
  | .null => some none
  | v => (reader v).map some

/-- What a reader makes of each item of an array. -/
def list? {α : Type} (reader : Value → Option α) (v : Value) : Option (List α) :=
  v.items?.bind fun items => items.mapM reader

/-- What a reader makes of a name. A name may stand alone, or as the only field of an object with
the value `null`. -/
def choice? {α : Type} (reader : String → Option α) : Value → Option α
  | .string s => reader s
  | .object [(s, .null)] => reader s
  | _ => none

/-- As `choice?`, but the value of the only field may also be an object without fields. -/
def wideChoice? {α : Type} (reader : String → Option α) : Value → Option α
  | .object [(s, .object [])] => reader s
  | v => v.choice? reader

/-- The value of the first field with a name. -/
def find? (fields : List (String × Value)) (name : String) : Option Value := fields.lookup name

/-- Whether a name occurs at most once among the fields. -/
def once (fields : List (String × Value)) (name : String) : Bool :=
  (fields.filter fun f => f.1 == name).length ≤ 1

/-- The values of the named fields of a record, none for those that are missing. In an object no
such field may repeat and others are passed over; in an array the fields come in order and only the
last ones may be missing. -/
def record? (names : List String) : Value → Option (List (Option Value))
  | .object fields =>
    if names.all (once fields) then some (names.map (find? fields)) else none
  | .array items =>
    -- What is behind the last field would have no name.
    if items.length ≤ names.length then
      some (items.map some ++ List.replicate (names.length - items.length) none)
    else none
  | _ => none

/-- What a reader makes of a field that has to be there. -/
def required? {α : Type} (reader : Value → Option α) (field : Option Value) : Option α :=
  field.bind reader

/-- What a reader makes of a field, or a default if it is missing. -/
def default? {α : Type} (reader : Value → Option α) (fallback : α) :
    Option Value → Option α
  | none => some fallback
  | some v => reader v

end Value

end Entailment.Json
