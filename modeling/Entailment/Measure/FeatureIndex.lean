import Entailment.Measure.Distance

/-! # Numbering features

A feature index gives every feature string it has met a number. Number zero belongs to a placeholder
that stands for "no feature", so that no encoded pair is empty.

* **`FeatureIndex`** — the strings in the order of their numbers;
* **`FeatureIndex.observe`** — new numbers for what a measurement shows;
* **`FeatureIndex.encode`** — the numbers of what a measurement shows. -/

namespace Entailment

/-- The name with number zero. -/
def placeholderFeature : String := "fake_attribute"

/-- Feature strings in the order of their numbers. -/
structure FeatureIndex where
  /-- The names after the placeholder, in order. -/
  learned : List String
  /-- No name occurs twice, and the placeholder is not among the others. -/
  distinct : (placeholderFeature :: learned).Nodup

namespace FeatureIndex

/-- The index of the placeholder alone. -/
def empty : FeatureIndex := ⟨[], by simp⟩

/-- All names, in the order of their numbers. -/
def names (index : FeatureIndex) : List String := placeholderFeature :: index.learned

/-- The number of names, the placeholder included. -/
def size (index : FeatureIndex) : Nat := index.names.length

/-- The number of a name. -/
def id? (index : FeatureIndex) (name : String) : Option Nat := index.names.idxOf? name

/-- The name with a number. -/
def name? (index : FeatureIndex) (id : Nat) : Option String := index.names[id]?

/-- The index with a further name, which gets the next number unless it has one. -/
def insert (index : FeatureIndex) (name : String) : FeatureIndex :=
  if h : name ∈ index.names then index
  else
    { learned := index.learned ++ [name]
      distinct := by
        rw [← List.cons_append]
        exact List.nodup_append.2 ⟨index.distinct, by simp, fun a ha b hb hab => by
          simp only [List.mem_singleton] at hb
          exact h (hb ▸ hab ▸ ha)⟩ }

/-- The number of a name, and the index that has it: a new name gets the next number. -/
def number (index : FeatureIndex) (name : String) : Nat × FeatureIndex :=
  -- An absent name is counted behind all others, which is where it is inserted.
  (index.names.idxOf name, index.insert name)

/-- The index with further names, in order. -/
def insertAll (index : FeatureIndex) (names : List String) : FeatureIndex :=
  names.foldl insert index

/-- The index of a list of names. The placeholder comes first, wherever the list has it. -/
def ofNames (names : List String) : FeatureIndex := empty.insertAll names

/-- The index with the enabled features of a measurement. -/
def observe {α : Type} (index : FeatureIndex) (m : Measurement α) (enabled : Kinds) :
    FeatureIndex :=
  index.insertAll (m.features enabled)

/-- How many enabled features of a measurement are new, and the index with them. -/
def learn {α : Type} (index : FeatureIndex) (m : Measurement α) (enabled : Kinds) :
    Nat × FeatureIndex :=
  let next := index.observe m enabled
  (next.size - index.size, next)

/-- The numbers of the given names, in increasing order and each once. -/
def idsOf (index : FeatureIndex) (names : List String) : List Nat :=
  (List.range index.size).filter fun id => (index.name? id).any (names.contains ·)

/-- The numbers of the enabled features of a measurement, in increasing order. Features without a
number are left out, and a measurement without any other gets the number of the placeholder. -/
def encode {α : Type} (index : FeatureIndex) (m : Measurement α) (enabled : Kinds) : List Nat :=
  match index.idsOf (m.features enabled) with
  | [] => [0]
  | ids => ids

/-- The empty index has the placeholder only. -/
@[simp] theorem names_empty : empty.names = [placeholderFeature] := rfl

/-- A name that is new comes last. -/
theorem names_insert (index : FeatureIndex) (name : String) :
    (index.insert name).names =
      if name ∈ index.names then index.names else index.names ++ [name] := by
  unfold insert
  split <;> simp [names, *]

end FeatureIndex

end Entailment
