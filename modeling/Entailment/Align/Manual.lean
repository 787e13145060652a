import Entailment.Error
import Entailment.Token

/-! # Manual alignments

Pairs that a user declares to be entailed. Each side is a form and a part of speech, with an
underscore between them. A manual list has a pair on every line that is not blank: the text side, a
tab, and the hypothesis side.

* **`ManualPairs`** — a set of pairs;
* **`ManualPairs.contains`** — whether two tokens are a declared pair;
* **`manualPair?`** — the pair on a line;
* **`readManual`** — the pairs of a list. -/

namespace Entailment

/-- The side of a manual pair that a token stands for. -/
def Token.manualKey (t : Token) : String := t.form ++ "_" ++ t.pos

/-- A set of declared pairs, the text side first. -/
structure ManualPairs where
  /-- The pairs, in the order of their arrival. -/
  pairs : List (String × String)
  /-- No pair occurs twice. -/
  distinct : pairs.Nodup

namespace ManualPairs

/-- The set without pairs. -/
def empty : ManualPairs := ⟨[], List.nodup_nil⟩

/-- The number of pairs. -/
def size (m : ManualPairs) : Nat := m.pairs.length

/-- Whether the set has no pair. -/
def isEmpty (m : ManualPairs) : Bool := m.pairs.isEmpty

/-- Whether the set has the pair. -/
def hasPair (m : ManualPairs) (t h : String) : Bool := m.pairs.contains (t, h)

/-- The set with a further pair. -/
def insert (m : ManualPairs) (t h : String) : ManualPairs :=
  if hp : (t, h) ∈ m.pairs then m
  else
    { pairs := m.pairs ++ [(t, h)]
      distinct := List.nodup_append.2 ⟨m.distinct, by simp, fun a ha b hb hab => by
        simp only [List.mem_singleton] at hb
        exact hp (hb ▸ hab ▸ ha)⟩ }

/-- A pair offered to the set: whether it is new, and the set afterwards. -/
def offer (m : ManualPairs) (t h : String) : Bool × ManualPairs := (!m.hasPair t h, m.insert t h)

/-- Whether two tokens are a declared pair. -/
def contains (m : ManualPairs) (t h : Token) : Bool := m.hasPair t.manualKey h.manualKey

/-- After an insertion a set has its pairs and the new one. -/
@[simp] theorem mem_insert {m : ManualPairs} {t h : String} {p : String × String} :
    p ∈ (m.insert t h).pairs ↔ p ∈ m.pairs ∨ p = (t, h) := by
  unfold insert
  split
  · next hp => exact ⟨Or.inl, fun h => h.elim id fun e => e ▸ hp⟩
  · simp

end ManualPairs

/-! ## Reading -/

/-- The pair on a line: two texts that are not empty, with the only tab of the line between
them. -/
def manualPair? (line : List Char) : Option (String × String) :=
  match Text.splitAt? '\t' line with
  | some (t, h) =>
    if t ≠ [] ∧ h ≠ [] ∧ '\t' ∉ h then some (String.ofList t, String.ofList h) else none
  | none => none

/-- The given pairs with those on further lines. -/
def readManualFrom (pairs : ManualPairs) : List (Nat × List Char) → Except ReadError ManualPairs
  | [] => .ok pairs
  | (line, text) :: rest =>
    -- Other blanks at the end of a line belong to the hypothesis side.
    let text := Text.dropEndWhile (· == '\r') text
    if Text.allBlank text then readManualFrom pairs rest
    else
      match manualPair? text with
      | some (t, h) => readManualFrom (pairs.insert t h) rest
      | none => .error (.manualAlignment line)

/-- The pairs of a manual list. -/
def readManual (text : String) : Except ReadError ManualPairs :=
  readManualFrom .empty (Text.numbered text.toList)

end Entailment
