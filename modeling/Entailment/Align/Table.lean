import Entailment.Error
import Entailment.Token

/-! # Alignment tables

The links that an aligner found, by key. A key is the text side and the hypothesis side with a
double underscore between them; keys are compared as a whole, for either side may hold underscores
too.

* **`Direction`** — which side of a pair entails the other;
* **`Link`**, **`Link.describe`** — what an aligner found for a pair of texts, and what a
  transformation keeps of it;
* **`AlignTable`** — distinct keys with one link each, in the order of their arrival;
* **`AlignTable.insert`** — the first link that arrives under a key stays;
* **`AlignTable.getPair?`** — the link of a text side and a hypothesis side;
* **`AlignTable.lookup`** — the link of two tokens, by their forms, else by their lemmas;
* **`AlignTable.fillFrom`** — the links of another table under the keys that are still free. -/

namespace Entailment

/-! ## Judgments of an aligner -/

/-- Which side of a pair entails the other. -/
inductive Direction where
  /-- The text side entails the hypothesis side. -/
  | textToHypothesis
  /-- The hypothesis side entails the text side. -/
  | hypothesisToText
  deriving DecidableEq, Repr

namespace Direction

/-- The written form of a direction. -/
def name : Direction → String
  | .textToHypothesis => "TtoH"
  | .hypothesisToText => "HtoT"

/-- The direction with a given name. -/
def ofName? (s : String) : Option Direction :=
  if s = "TtoH" then some .textToHypothesis
  else if s = "HtoT" then some .hypothesisToText
  else none

/-- The direction with a given name; any other text is refused. -/
def ofName (s : String) : Except FormatError Direction :=
  match ofName? s with
  | some d => .ok d
  | none => .error (.unknownDirection s)

/-- A direction is read back from its name. -/
@[simp] theorem ofName?_name (d : Direction) : ofName? d.name = some d := by cases d <;> rfl

end Direction

/-- What an aligner found for a pair of texts. -/
structure Link where
  /-- The resource and the relation, such as `WORDNET__3.0__SYNONYM`. -/
  info : String
  /-- The aligner's confidence. -/
  strength : Float
  /-- Which side entails the other. -/
  direction : Direction

namespace Link

/-- Whether the link is one between antonyms. -/
def isAntonym (l : Link) : Bool := Text.occursIn "ANTONYM" l.info

/-- The link's info and its direction. -/
def describe (l : Link) : String := l.info ++ ":" ++ l.direction.name

end Link

/-! ## Tables -/

/-- The key of a text side and a hypothesis side. -/
def alignKey (t h : String) : String := t ++ "__" ++ h

/-- No link is found under a key exactly if the key is not among the keys of the list. -/
theorem lookup_eq_none_iff {entries : List (String × Link)} {key : String} :
    entries.lookup key = none ↔ key ∉ entries.map Prod.fst := by
  simp only [List.lookup_eq_none_iff, List.mem_map, not_exists, not_and, bne_iff_ne, ne_eq]
  exact forall₂_congr fun p _ => not_congr eq_comm

/-- Links by key. -/
structure AlignTable where
  /-- The keys with their links, in the order of their arrival. -/
  entries : List (String × Link)
  /-- No key occurs twice. -/
  distinct : (entries.map Prod.fst).Nodup

namespace AlignTable

/-- The table without links. -/
def empty : AlignTable := ⟨[], List.nodup_nil⟩

/-- The link under a key. -/
def get? (m : AlignTable) (key : String) : Option Link := m.entries.lookup key

/-- Whether the table has a link under the key. -/
def contains (m : AlignTable) (key : String) : Bool := (m.get? key).isSome

/-- The number of keys. -/
def size (m : AlignTable) : Nat := m.entries.length

/-- Whether the table has no link. -/
def isEmpty (m : AlignTable) : Bool := m.entries.isEmpty

/-- A key is one of the keys exactly if a link is found under it. -/
theorem get?_eq_none_iff {m : AlignTable} {key : String} :
    m.get? key = none ↔ key ∉ m.entries.map Prod.fst := lookup_eq_none_iff

/-- The table with a link under a key, unless the key is taken: the first link stays. -/
def insert (m : AlignTable) (key : String) (link : Link) : AlignTable :=
  if h : m.get? key = none then
    { entries := m.entries ++ [(key, link)]
      distinct := by
        have hk := get?_eq_none_iff.1 h
        simp only [List.map_append, List.map_cons, List.map_nil]
        exact List.nodup_append.2 ⟨m.distinct, by simp, fun a ha b hb hab => by
          simp only [List.mem_singleton] at hb
          exact hk (hb ▸ hab ▸ ha)⟩ }
  else m

/-- A key holds the separator of its two sides. -/
def validKey (key : String) : Bool := Text.occursIn "__" key

/-- The table with a link under a key as an aligner writes it; a key without the separator is
refused. -/
def insertKeyed (m : AlignTable) (key : String) (link : Link) : Except FormatError AlignTable :=
  if validKey key then .ok (m.insert key link) else .error (.malformedKey key)

/-- A link offered under a key: whether the key was free, and the table afterwards. -/
def offer (m : AlignTable) (key : String) (link : Link) : Bool × AlignTable :=
  (!m.contains key, m.insert key link)

/-- A link offered under a key as an aligner writes it: whether the key was free, and the table
afterwards. -/
def offerKeyed (m : AlignTable) (key : String) (link : Link) :
    Except FormatError (Bool × AlignTable) :=
  (m.insertKeyed key link).map fun next => (!m.contains key, next)

/-- The table with links for pairs of sides, the first link of each key. -/
def insertPairs (m : AlignTable) (items : List (String × String × Link)) : AlignTable :=
  items.foldl (fun m p => m.insert (alignKey p.1 p.2.1) p.2.2) m

/-- The link of a text side and a hypothesis side. -/
def getPair? (m : AlignTable) (t h : String) : Option Link := m.get? (alignKey t h)

/-- The link of two tokens: by their forms, else by their lemmas. -/
def lookup (m : AlignTable) (t h : Token) : Option Link :=
  (m.get? (alignKey t.form h.form)).or (m.get? (alignKey t.lemmaForm h.lemmaForm))

/-- The table with the links of `other` under the keys that are still free. -/
def fillFrom (m other : AlignTable) : AlignTable :=
  other.entries.foldl (fun m p => m.insert p.1 p.2) m

/-- The keys with their links, by increasing key. -/
def sorted (m : AlignTable) : List (String × Link) :=
  m.entries.mergeSort fun a b => decide (a.1 ≤ b.1)

/-- Nothing is found in the empty table. -/
@[simp] theorem get?_empty (key : String) : empty.get? key = none := rfl

/-- A taken key keeps its link, and a free key gets the new one. -/
theorem get?_insert (m : AlignTable) (key : String) (link : Link) (k : String) :
    (m.insert key link).get? k =
      (m.get? k).or (if k = key then some link else none) := by
  unfold insert
  split
  · next h =>
    simp only [get?, List.lookup_append]
    congr 1
    by_cases hk : k = key
    · subst hk; simp
    · have : (k == key) = false := by simpa using hk
      simp [List.lookup_cons, this, hk]
  · next h =>
    by_cases hk : k = key
    · subst hk
      obtain ⟨l, hl⟩ := Option.ne_none_iff_exists'.1 h
      simp [hl]
    · simp [hk]

end AlignTable

end Entailment
