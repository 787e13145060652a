import Entailment.Proofs.Measure.Features
import Mathlib.Data.Finset.Card
import Mathlib.Data.Finset.Sort
import Mathlib.Data.String.Basic

/-! # Numbers of features over any run

However an index comes about, it has the names that it was given, each once and behind the
placeholder, in the order in which they first came. So it numbers its names without gaps, and no
call changes a number. The same holds of an index that keeps its names twice, in a list and in a
table of their numbers: over any run the two agree.

* **`FeatureCall`**, **`FeatureIndex.run`** — the calls that may bring new names, and runs of them;
* **`FeatureIndex.names_insertAll`** — the names after further ones have come;
* **`FeatureIndex.id?_eq_some_iff`** — the number of a name, and the name with a number;
* **`NameTable`** — names with a table of their numbers;
* **`NameTable.Represents.run`** — such a table goes along with the index;
* **`index_numbers_each_name_once`** — what holds after any run. -/

namespace Entailment

/-! ## Calls -/

/-- A call that may bring new names. -/
inductive FeatureCall (α : Type) where
  /-- A name is added. -/
  | insert (name : String)
  /-- The enabled features of a measurement are added. -/
  | observe (m : Measurement α) (enabled : Kinds)

variable {α : Type}

/-- The names that a call brings, in order. -/
def FeatureCall.names : FeatureCall α → List String
  | .insert name => [name]
  | .observe m enabled => m.features enabled

namespace FeatureIndex

variable {index : FeatureIndex} {name : String} {names : List String} {id : Nat}
  {m : Measurement α} {enabled : Kinds}

/-- What a call answers, and the index afterwards. -/
def perform (index : FeatureIndex) : FeatureCall α → Nat × FeatureIndex
  | .insert name => index.number name
  | .observe m enabled => index.learn m enabled

/-- The index after a run of calls. -/
def run (index : FeatureIndex) (calls : List (FeatureCall α)) : FeatureIndex :=
  calls.foldl (fun index call => (index.perform call).2) index

/-- A call adds the names that it brings. -/
theorem perform_snd (index : FeatureIndex) (call : FeatureCall α) :
    (index.perform call).2 = index.insertAll call.names := by
  cases call <;> rfl

/-- Names are added one list after the other. -/
theorem insertAll_append (index : FeatureIndex) (names more : List String) :
    index.insertAll (names ++ more) = (index.insertAll names).insertAll more := List.foldl_append

/-- A run adds the names that its calls bring. -/
theorem run_eq_insertAll (index : FeatureIndex) (calls : List (FeatureCall α)) :
    index.run calls = index.insertAll (calls.flatMap FeatureCall.names) := by
  induction calls generalizing index with
  | nil => rfl
  | cons call calls ih =>
      rw [List.flatMap_cons, insertAll_append, ← perform_snd]
      exact ih _

/-! ## Names -/

/-- Behind the names of an index come those that are new, each once. -/
theorem names_insertAll (index : FeatureIndex) (names : List String) :
    (index.insertAll names).names =
      index.names ++ (names.filter (· ∉ index.names)).eraseDups := by
  induction names generalizing index with
  | nil => simp [insertAll]
  | cons name names ih =>
      rw [insertAll_cons, ih, names_insert]
      by_cases hknown : name ∈ index.names
      · rw [if_pos hknown, List.filter_cons_of_neg (by simpa using hknown)]
      -- From the first of a new name on, further ones like it are known.
      · have hnew : names.filter (· ∉ index.names ++ [name]) =
            names.filter fun x => (!x == name) && decide (x ∉ index.names) :=
          List.filter_congr fun x _ => by simp [Bool.and_comm, beq_eq_decide]
        rw [if_neg hknown, List.filter_cons_of_pos (by simpa using hknown), List.eraseDups_cons,
          List.filter_filter, List.append_assoc, hnew]
        rfl

/-- An index that is read has the placeholder and behind it the other names of the list, each
once. -/
theorem names_ofNames (names : List String) :
    (ofNames names).names =
      placeholderFeature :: (names.filter (· ≠ placeholderFeature)).eraseDups := by
  rw [ofNames, names_insertAll]
  simp

/-- As many names are new as there are different ones that the index does not have. -/
theorem size_insertAll (index : FeatureIndex) (names : List String) :
    (index.insertAll names).size =
      index.size + (names.toFinset.filter (· ∉ index.names)).card := by
  -- Since no index has a name twice, the names may be counted as a set.
  have hsize (index : FeatureIndex) : index.size = index.names.toFinset.card := by
    rw [List.toFinset_card_of_nodup index.nodup_names, size]
  have hnames : (index.insertAll names).names.toFinset =
      index.names.toFinset ∪ names.toFinset.filter (· ∉ index.names) := by
    ext name
    simp only [List.mem_toFinset, mem_names_insertAll, Finset.mem_union, Finset.mem_filter]
    tauto
  rw [hsize, hsize, hnames, Finset.card_union_of_disjoint]
  refine Finset.disjoint_left.2 fun name hknown hnew => ?_
  exact (Finset.mem_filter.1 hnew).2 (List.mem_toFinset.1 hknown)

/-! ## Numbers -/

/-- A name has the number under which it is found. -/
theorem id?_eq_some_iff : index.id? name = some id ↔ index.name? id = some name := by
  rw [id?, name?, List.idxOf?_eq_some_iff, List.getElem?_eq_some_iff]
  refine exists_congr fun hlt => and_iff_left_of_imp fun hname j hj heq => ?_
  exact absurd ((List.Nodup.getElem_inj_iff index.nodup_names).1 (heq.trans hname.symm)) hj.ne

/-- A name has no number exactly if the index does not have it. -/
theorem id?_eq_none_iff : index.id? name = none ↔ name ∉ index.names := List.idxOf?_eq_none_iff

/-- There is a name for each number below the size, and for no other. -/
theorem exists_name?_iff : (∃ name, index.name? id = some name) ↔ id < index.size := by
  rw [← Option.isSome_iff_exists, name?, isSome_getElem?, size]

/-- A number stays when names are added. -/
theorem id?_insertAll (h : index.id? name = some id) (names : List String) :
    (index.insertAll names).id? name = some id :=
  id?_eq_some_iff.2 (name?_of_isPrefix (index.names_isPrefix_insertAll names) (id?_eq_some_iff.1 h))

/-- Adding a name answers the number that it has, or else the next one. -/
theorem number_fst (index : FeatureIndex) (name : String) :
    (index.number name).1 = (index.id? name).getD index.size := List.idxOf_eq_getD_idxOf? ..

/-- A name that was added has the number that was answered. -/
theorem id?_number (index : FeatureIndex) (name : String) :
    (index.number name).2.id? name = some (index.number name).1 := by
  rw [number_fst]
  cases hid : index.id? name with
  | some id => exact id?_insertAll hid [name]
  | none =>
      rw [id?_eq_some_iff]
      show (index.insert name).names[index.names.length]? = some name
      rw [names_insert, if_neg (id?_eq_none_iff.1 hid), List.getElem?_concat_length]

/-- Other names keep their numbers, or have none, when a name is added. -/
theorem id?_number_of_ne (index : FeatureIndex) {x : String} (h : x ≠ name) :
    (index.number name).2.id? x = index.id? x := by
  show (index.insert name).id? x = index.id? x
  rw [id?, id?, names_insert]
  split_ifs
  · rfl
  · have hlast : (name == x) = false := beq_eq_false_iff_ne.2 h.symm
    simp [List.idxOf?, List.findIdx?_append, hlast]

/-- A run changes no number. -/
theorem id?_run (h : index.id? name = some id) (calls : List (FeatureCall α)) :
    (index.run calls).id? name = some id := by
  rw [run_eq_insertAll]
  exact id?_insertAll h _

/-- Observing answers how many different features of the measurement had no number. -/
theorem learn_fst (index : FeatureIndex) (m : Measurement α) (enabled : Kinds) :
    (index.learn m enabled).1 =
      ((m.features enabled).toFinset.filter fun f => index.id? f = none).card := by
  show (index.insertAll (m.features enabled)).size - index.size = _
  rw [size_insertAll, Nat.add_sub_cancel_left]
  simp only [id?_eq_none_iff]

/-! ## Encoding -/

/-- The numbers of names are those under which they are found. -/
theorem mem_idsOf_iff : id ∈ index.idsOf names ↔ ∃ name ∈ names, index.id? name = some id := by
  simp only [mem_idsOf, id?_eq_some_iff]

/-- A measurement is encoded by the placeholder alone if none of its features has a number. -/
theorem encode_eq_zero (h : ∀ f ∈ m.features enabled, index.id? f = none) :
    index.encode m enabled = [0] := by
  have hids : index.idsOf (m.features enabled) = [] := by
    refine List.eq_nil_iff_forall_not_mem.2 fun id hid => ?_
    obtain ⟨f, hf, hid⟩ := mem_idsOf_iff.1 hid
    exact Option.some_ne_none id (hid.symm.trans (h f hf))
  rw [encode, hids]

/-- A measurement is encoded by the numbers that its features have, if there are any. -/
theorem encode_eq_idsOf (h : ∃ f ∈ m.features enabled, index.id? f ≠ none) :
    index.encode m enabled = index.idsOf (m.features enabled) := by
  obtain ⟨f, hf, hknown⟩ := h
  obtain ⟨id, hid⟩ := Option.ne_none_iff_exists'.1 hknown
  exact encode_of_idsOf_ne_nil (List.ne_nil_of_mem (mem_idsOf_iff.2 ⟨f, hf, hid⟩))

/-- A measurement is encoded by numbers of the index. -/
theorem lt_size_of_mem_encode (h : id ∈ index.encode m enabled) : id < index.size := by
  rw [encode] at h
  split at h
  · rw [List.mem_singleton.1 h]
    exact Nat.zero_lt_succ _
  · obtain ⟨name, -, hname⟩ := mem_idsOf.1 h
    exact exists_name?_iff.1 ⟨name, hname⟩

end FeatureIndex

/-! ## Names with a table of their numbers -/

/-- Names in the order of their numbers, and the numbers by name. -/
structure NameTable where
  /-- The names. -/
  names : List String
  /-- The number of each name. -/
  ids : Std.ExtHashMap String Nat

namespace NameTable

variable {table : NameTable} {index : FeatureIndex} {m : Measurement α} {enabled : Kinds}

/-- The number of a name, and the table that has it. -/
def number (table : NameTable) (name : String) : Nat × NameTable :=
  match table.ids[name]? with
  | some id => (id, table)
  | none =>
      let id := table.names.length
      (id, ⟨table.names ++ [name], table.ids.insert name id⟩)

/-- The table with further names, in order. -/
def insertAll (table : NameTable) (names : List String) : NameTable :=
  names.foldl (fun table name => (table.number name).2) table

/-- The table of the placeholder alone. -/
def empty : NameTable :=
  ⟨[placeholderFeature], (∅ : Std.ExtHashMap String Nat).insert placeholderFeature 0⟩

/-- The table of a list of names, behind the placeholder. -/
def ofNames (names : List String) : NameTable := empty.insertAll names

/-- What a call answers, and the table afterwards. -/
def perform (table : NameTable) : FeatureCall α → Nat × NameTable
  | .insert name => table.number name
  | .observe m enabled =>
      let next := table.insertAll (m.features enabled)
      (next.names.length - table.names.length, next)

/-- The table after a run of calls. -/
def run (table : NameTable) (calls : List (FeatureCall α)) : NameTable :=
  calls.foldl (fun table call => (table.perform call).2) table

/-- The sorted numbers that the table has for the enabled features of a measurement, or that of the
placeholder. -/
def encode (table : NameTable) (m : Measurement α) (enabled : Kinds) : List Nat :=
  let ids := ((m.features enabled).filterMap (table.ids[·]?)).toFinset
  if ids = ∅ then [0] else ids.sort (· ≤ ·)

/-- The table has the names of an index, with their numbers. -/
structure Represents (table : NameTable) (index : FeatureIndex) : Prop where
  /-- The names are the same. -/
  names_eq : table.names = index.names
  /-- The table finds the number of each name, and no other. -/
  ids_eq : ∀ name, table.ids[name]? = index.id? name

namespace Represents

/-- Tables of the same index are the same. -/
theorem unique {table' : NameTable} (h : table.Represents index) (h' : table'.Represents index) :
    table = table' := by
  obtain ⟨names, ids⟩ := table
  obtain ⟨names', ids'⟩ := table'
  obtain rfl : names = names' := h.names_eq.trans h'.names_eq.symm
  obtain rfl : ids = ids' :=
    Std.ExtHashMap.ext_getElem? fun name => (h.ids_eq name).trans (h'.ids_eq name).symm
  rfl

/-- The empty table is that of the empty index. -/
theorem empty : NameTable.empty.Represents FeatureIndex.empty where
  names_eq := rfl
  ids_eq name := by
    rw [NameTable.empty, Std.ExtHashMap.getElem?_insert, Std.ExtHashMap.getElem?_empty,
      FeatureIndex.id?, FeatureIndex.names_empty, List.idxOf?_cons]
    rfl

/-- Adding a name answers alike on both sides, and keeps them together. -/
theorem number (h : table.Represents index) (name : String) :
    (table.number name).1 = (index.number name).1 ∧
      (table.number name).2.Represents (index.number name).2 := by
  have hanswer := index.number_fst name
  rw [NameTable.number, h.ids_eq]
  cases hid : index.id? name with
  | some id =>
      have hknown := FeatureIndex.mem_names_iff.2 ⟨id, FeatureIndex.id?_eq_some_iff.1 hid⟩
      rw [hid] at hanswer
      refine ⟨hanswer.symm, ?_⟩
      show table.Represents (index.insert name)
      rwa [FeatureIndex.insert_of_mem hknown]
  | none =>
      have hnew := FeatureIndex.id?_eq_none_iff.1 hid
      replace hanswer : table.names.length = (index.number name).1 := by
        rw [hanswer, hid, h.names_eq]
        rfl
      refine ⟨hanswer, ?_, fun x => ?_⟩
      · show table.names ++ [name] = (index.insert name).names
        rw [FeatureIndex.names_insert, if_neg hnew, h.names_eq]
      -- The new name is found under the number that was answered, and the others as before.
      · show (table.ids.insert name table.names.length)[x]? = _
        rw [Std.ExtHashMap.getElem?_insert]
        split_ifs with hx
        · rw [hanswer, ← index.id?_number name, eq_of_beq hx]
        · have hne : x ≠ name := fun heq => hx (beq_iff_eq.2 heq.symm)
          rw [h.ids_eq, index.id?_number_of_ne hne]

/-- Adding names on both sides keeps them together. -/
theorem insertAll (h : table.Represents index) (names : List String) :
    (table.insertAll names).Represents (index.insertAll names) := by
  induction names generalizing table index with
  | nil => exact h
  | cons name names ih => exact ih (h.number name).2

/-- The table that is read from a list is that of the index that is read from it. -/
theorem ofNames (names : List String) :
    (NameTable.ofNames names).Represents (FeatureIndex.ofNames names) := empty.insertAll names

/-- A call answers alike on both sides, and keeps them together. -/
theorem perform (h : table.Represents index) (call : FeatureCall α) :
    (table.perform call).1 = (index.perform call).1 ∧
      (table.perform call).2.Represents (index.perform call).2 := by
  cases call with
  | insert name => exact h.number name
  | observe m enabled =>
      have hnext := h.insertAll (m.features enabled)
      exact ⟨congrArg₂ (·.length - ·.length) hnext.names_eq h.names_eq, hnext⟩

/-- Over a run the two stay together. -/
theorem run (h : table.Represents index) (calls : List (FeatureCall α)) :
    (table.run calls).Represents (index.run calls) := by
  induction calls generalizing table index with
  | nil => exact h
  | cons call calls ih => exact ih (h.perform call).2

/-- The numbers of names are the same on both sides. -/
theorem mem_ids (h : table.Represents index) {id : Nat} {names : List String} :
    id ∈ (names.filterMap (table.ids[·]?)).toFinset ↔ id ∈ index.idsOf names := by
  simp only [List.mem_toFinset, List.mem_filterMap, h.ids_eq, FeatureIndex.mem_idsOf_iff]

/-- Both encode a measurement in the same way. -/
theorem encode_eq (h : table.Represents index) (m : Measurement α) (enabled : Kinds) :
    table.encode m enabled = index.encode m enabled := by
  rw [NameTable.encode]
  by_cases hids : index.idsOf (m.features enabled) = []
  · have hempty : ((m.features enabled).filterMap (table.ids[·]?)).toFinset = ∅ :=
      Finset.eq_empty_of_forall_notMem fun id hid => by
        rw [h.mem_ids, hids] at hid
        cases hid
    rw [if_pos hempty, FeatureIndex.encode, hids]
  · obtain ⟨id, hid⟩ := List.exists_mem_of_ne_nil _ hids
    rw [if_neg (Finset.ne_empty_of_mem (h.mem_ids.2 hid)),
      FeatureIndex.encode_of_idsOf_ne_nil hids]
    -- Both lists are strictly increasing, so that they are the same if their members are.
    refine (Finset.sortedLT_sort _).pairwise.eq_of_mem_iff (index.pairwise_idsOf _) fun id => ?_
    rw [Finset.mem_sort, h.mem_ids]

/-- A table that represents an index is read back from its names. -/
theorem ofNames_names (h : table.Represents index) : NameTable.ofNames table.names = table := by
  have hread := Represents.ofNames index.names
  rw [index.ofNames_names, ← h.names_eq] at hread
  exact hread.unique h

end Represents

end NameTable

/-! ## Any run -/

/-- After any run from the index of any list of names, the names are numbered without gaps, each
once, and the placeholder has number zero. No call changes a number; adding a name answers its
number, and observing a measurement the count of its features that are new. The index is read back
from its names, and a list is read as the placeholder and the other names of the list, each once.
Encodings are increasing numbers of names: those of the features that are known, or else the
placeholder's alone. And a list of names with a table of their numbers goes along. -/
theorem index_numbers_each_name_once (names : List String) (calls : List (FeatureCall α)) :
    let index := (FeatureIndex.ofNames names).run calls
    let table := (NameTable.ofNames names).run calls
    (index.names.Nodup ∧ index.name? 0 = some placeholderFeature ∧
      (∀ id, (∃ name, index.name? id = some name) ↔ id < index.size) ∧
      ∀ name id, index.id? name = some id ↔ index.name? id = some name) ∧
    (∀ (more : List (FeatureCall α)) name id, index.id? name = some id →
      (index.run more).id? name = some id) ∧
    (∀ name, (index.number name).2.id? name = some (index.number name).1) ∧
    (∀ (m : Measurement α) enabled, (index.learn m enabled).1 =
      ((m.features enabled).toFinset.filter fun f => index.id? f = none).card) ∧
    (FeatureIndex.ofNames index.names = index ∧ FeatureIndex.ofJson? index.json = some index) ∧
    (FeatureIndex.ofNames names).names =
      placeholderFeature :: (names.filter (· ≠ placeholderFeature)).eraseDups ∧
    (∀ (m : Measurement α) enabled,
      (index.encode m enabled).Pairwise (· < ·) ∧
      (∀ id ∈ index.encode m enabled, id < index.size) ∧
      ((∀ f ∈ m.features enabled, index.id? f = none) → index.encode m enabled = [0]) ∧
      ((∃ f ∈ m.features enabled, index.id? f ≠ none) → 0 ∉ index.encode m enabled ∧
        ∀ id, id ∈ index.encode m enabled ↔
          ∃ f ∈ m.features enabled, index.id? f = some id)) ∧
    table.Represents index ∧
      (∀ call : FeatureCall α, (table.perform call).1 = (index.perform call).1) ∧
      (∀ (m : Measurement α) enabled, table.encode m enabled = index.encode m enabled) ∧
      NameTable.ofNames table.names = table := by
  intro index table
  have htable : table.Represents index := (NameTable.Represents.ofNames names).run calls
  refine ⟨⟨index.nodup_names, index.name?_zero, fun _ => FeatureIndex.exists_name?_iff,
    fun _ _ => FeatureIndex.id?_eq_some_iff⟩, fun more _ _ h => FeatureIndex.id?_run h more,
    index.id?_number, index.learn_fst, ⟨index.ofNames_names, index.ofJson?_json⟩,
    FeatureIndex.names_ofNames names, fun m enabled => ?_, htable,
    fun call => (htable.perform call).1, htable.encode_eq, htable.ofNames_names⟩
  refine ⟨index.pairwise_encode m enabled, fun _ => FeatureIndex.lt_size_of_mem_encode,
    FeatureIndex.encode_eq_zero, fun hknown => ?_⟩
  rw [FeatureIndex.encode_eq_idsOf hknown]
  exact ⟨index.zero_not_mem_idsOf m enabled, fun _ => FeatureIndex.mem_idsOf_iff⟩

/-- A list that has the placeholder and a name twice is read, a name is added, and the deletion of
a determiner is observed: the numbers are kept, the deletion is encoded by its own, and an
insertion that was not met by the placeholder's. -/
theorem index_numbers_each_name_once_determiner :
    let x := (Token.make 0 "The" "the" "DT" (some 1) "det").withPath "det#ROOT"
    let m : Measurement Rat := ⟨1, 1, [.deleted x]⟩
    let m' : Measurement Rat := ⟨1, 1, [.inserted x]⟩
    let index := (FeatureIndex.ofNames ["b", "fake_attribute", "a", "b"]).run
      [.insert "c", .observe m .all]
    index.names = ["fake_attribute", "b", "a", "c", "Type:del#T_DPrelR:det#ROOT"] ∧
      index.id? "c" = some 3 ∧ (index.run [.insert "d", .observe m' .all]).id? "c" = some 3 ∧
      4 ∈ index.encode m .all ∧ index.encode m' .all = [0] := by
  intro x m m' index
  obtain ⟨-, hstable, -, -, -, -, hencode, -⟩ :=
    index_numbers_each_name_once ["b", "fake_attribute", "a", "b"]
      [.insert "c", .observe m .all]
  have hc : index.id? "c" = some 3 := by decide
  have hdel : index.id? "Type:del#T_DPrelR:det#ROOT" = some 4 := by decide
  have hmem : "Type:del#T_DPrelR:det#ROOT" ∈ m.features .all := by decide
  have hnew : ∀ f ∈ m'.features .all, index.id? f = none := by decide
  refine ⟨by decide, hc, hstable _ _ _ hc, ?_, (hencode m' .all).2.2.1 hnew⟩
  refine (((hencode m .all).2.2.2 ⟨_, hmem, ?_⟩).2 4).2 ⟨_, hmem, hdel⟩
  rw [hdel]
  exact Option.some_ne_none 4

end Entailment
