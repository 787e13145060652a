import Entailment.Command.Batch
import Mathlib.Data.List.Sort

/-! # Learning features and encoding with them

The names of a feature index only grow at the end, so a number that was given stays. An index is
what its list of names makes of it, whether it was learned or read; so a pair that an index has
learned from is encoded by exactly its own features, and stays so.

* **`FeatureIndex.names_isPrefix_insertAll`**, **`FeatureIndex.mem_names_insertAll`** — growth;
* **`FeatureIndex.ofNames_names`** — the names of an index read back;
* **`FeatureIndex.observeAll`** — an index that learns from measurements;
* **`FeatureIndex.Knows`** — all enabled features of a measurement have a number;
* **`FeatureIndex.reloaded_encodes_learned`** — what was learned is encoded as it was seen. -/

namespace Entailment

/-! ## Features -/

/-- Every feature string starts alike. -/
theorem Transformation.exists_feature_eq (x : Transformation) :
    ∃ rest, x.feature = "Type:" ++ rest := by
  have hpair (kind : String) (info : Option String) (t h : Token) :
      ∃ rest, pairFeature kind info t h = "Type:" ++ rest := by
    simp only [pairFeature, String.append_assoc]
    exact ⟨_, rfl⟩
  cases x with
  | matched info t h => exact hpair ..
  | replaced judgment info t h => exact hpair ..
  | inserted h =>
      refine ⟨"ins#H_DPrelR:" ++ h.pathText, ?_⟩
      show "Type:ins#H_DPrelR:" ++ h.pathText = _
      rw [← String.append_assoc]
      exact congrArg (· ++ h.pathText) (by decide)
  | deleted t =>
      refine ⟨"del#T_DPrelR:" ++ t.pathText, ?_⟩
      show "Type:del#T_DPrelR:" ++ t.pathText = _
      rw [← String.append_assoc]
      exact congrArg (· ++ t.pathText) (by decide)

/-- No feature string is the placeholder. -/
theorem Transformation.feature_ne_placeholder (x : Transformation) :
    x.feature ≠ placeholderFeature := by
  obtain ⟨rest, hx⟩ := x.exists_feature_eq
  intro heq
  have hhead := congrArg (fun s : String => s.toList.head?) (hx.symm.trans heq)
  simp [placeholderFeature] at hhead

/-- The placeholder is no feature. -/
theorem Measurement.placeholder_not_mem_features {α : Type} (m : Measurement α) (enabled : Kinds) :
    placeholderFeature ∉ m.features enabled := by
  intro hmem
  obtain ⟨x, -, hx⟩ := List.mem_filterMap.1 hmem
  obtain ⟨-, hx⟩ := Option.ite_none_right_eq_some.1 hx
  exact x.feature_ne_placeholder (Option.some.inj hx)

namespace FeatureIndex

variable {α : Type} {index index' : FeatureIndex} {name : String} {names : List String} {id : Nat}
  {m : Measurement α} {enabled : Kinds}

/-! ## Names and numbers -/

/-- No name stands in an index twice. -/
theorem nodup_names (index : FeatureIndex) : index.names.Nodup := index.distinct

/-- Indices with the same names are the same. -/
theorem eq_of_names_eq (h : index.names = index'.names) : index = index' := by
  obtain ⟨learned, _⟩ := index
  obtain ⟨learned', _⟩ := index'
  obtain rfl : learned = learned' := (List.cons.inj h).2
  rfl

/-- The placeholder has the number zero. -/
theorem name?_zero (index : FeatureIndex) : index.name? 0 = some placeholderFeature := rfl

/-- The names are those that have a number. -/
theorem mem_names_iff : name ∈ index.names ↔ ∃ id, index.name? id = some name :=
  List.mem_iff_getElem?

/-- No name has two numbers. -/
theorem name?_inj {id' : Nat} (h : index.name? id = some name) (h' : index.name? id' = some name) :
    id = id' := by
  obtain ⟨hlt, -⟩ := List.getElem?_eq_some_iff.1 h
  exact (List.getElem?_inj hlt index.nodup_names).1 (h.trans h'.symm)

/-- A number keeps its name when names are added behind the others. -/
theorem name?_of_isPrefix (hle : index.names <+: index'.names) (h : index.name? id = some name) :
    index'.name? id = some name := by
  obtain ⟨hlt, hname⟩ := List.getElem?_eq_some_iff.1 h
  rw [← hname]
  exact List.prefix_iff_getElem?.1 hle id hlt

/-! ## Growth -/

/-- A name that has a number is not added. -/
theorem insert_of_mem (h : name ∈ index.names) : index.insert name = index := dif_pos h

/-- After an addition an index has its names and the new one. -/
theorem mem_names_insert {x : String} :
    x ∈ (index.insert name).names ↔ x ∈ index.names ∨ x = name := by
  rw [names_insert]
  split_ifs with h
  · exact ⟨.inl, fun hx => hx.elim id fun hx => hx ▸ h⟩
  · rw [List.mem_append, List.mem_singleton]

/-- A new name comes behind the others. -/
theorem names_isPrefix_insert (index : FeatureIndex) (name : String) :
    index.names <+: (index.insert name).names := by
  rw [names_insert]
  split_ifs
  · exact List.prefix_rfl
  · exact List.prefix_append ..

/-- The first name is added, and then the others. -/
theorem insertAll_cons (index : FeatureIndex) (name : String) (names : List String) :
    index.insertAll (name :: names) = (index.insert name).insertAll names := rfl

/-- After all additions an index has its names and the new ones. -/
theorem mem_names_insertAll {x : String} :
    x ∈ (index.insertAll names).names ↔ x ∈ index.names ∨ x ∈ names := by
  induction names generalizing index with
  | nil => simp [insertAll]
  | cons name names ih => rw [insertAll_cons, ih, mem_names_insert, List.mem_cons, or_assoc]

/-- New names come behind the others. -/
theorem names_isPrefix_insertAll (index : FeatureIndex) (names : List String) :
    index.names <+: (index.insertAll names).names := by
  induction names generalizing index with
  | nil => exact List.prefix_rfl
  | cons name names ih => exact (index.names_isPrefix_insert name).trans (ih _)

/-- Names that are all new, and distinct, come behind the others as they are. -/
theorem names_insertAll_of_nodup (h : (index.names ++ names).Nodup) :
    (index.insertAll names).names = index.names ++ names := by
  induction names generalizing index with
  | nil => rw [List.append_nil, insertAll, List.foldl_nil]
  | cons name names ih =>
      have hnew : name ∉ index.names := fun hmem =>
        (List.nodup_append.1 h).2.2 name hmem name List.mem_cons_self rfl
      have hinsert : (index.insert name).names = index.names ++ [name] := by
        rw [names_insert, if_neg hnew]
      rw [insertAll_cons, ih (by simpa [hinsert] using h), hinsert, List.append_assoc,
        List.singleton_append]

/-- An index is read back from its names. -/
theorem ofNames_names (index : FeatureIndex) : ofNames index.names = index := by
  -- The placeholder is the first of the names, and the empty index has it.
  have hcons : ofNames index.names = empty.insertAll index.learned := by
    rw [ofNames, names, insertAll_cons, insert_of_mem (by simp)]
  apply eq_of_names_eq
  rw [hcons, names_insertAll_of_nodup index.distinct]
  rfl

/-- An index is read back from its record. -/
theorem ofJson?_json (index : FeatureIndex) : ofJson? index.json = some index := by
  have hnames : (index.names.map Json.Value.string).mapM Json.Value.text? = some index.names := by
    rw [List.mapM_map]
    exact List.mapM_pure.trans (congrArg some (List.map_id _))
  show ((index.names.map Json.Value.string).mapM Json.Value.text?).map ofNames = some index
  rw [hnames, Option.map_some, ofNames_names]

/-! ## Learning -/

/-- The index with the enabled features of measurements, in order. -/
def observeAll (index : FeatureIndex) (ms : List (Measurement α)) (enabled : Kinds) :
    FeatureIndex :=
  ms.foldl (fun index m => index.observe m enabled) index

/-- Measurements are observed one list after the other. -/
theorem observeAll_append (index : FeatureIndex) (ms ms' : List (Measurement α)) (enabled : Kinds) :
    index.observeAll (ms ++ ms') enabled = (index.observeAll ms enabled).observeAll ms' enabled :=
  List.foldl_append

/-- What measurements bring comes behind the other names. -/
theorem names_isPrefix_observeAll (index : FeatureIndex) (ms : List (Measurement α))
    (enabled : Kinds) : index.names <+: (index.observeAll ms enabled).names := by
  induction ms generalizing index with
  | nil => exact List.prefix_rfl
  | cons m ms ih => exact (index.names_isPrefix_insertAll _).trans (ih _)

/-- All enabled features of a measurement have a number. -/
def Knows (index : FeatureIndex) (m : Measurement α) (enabled : Kinds) : Prop :=
  ∀ feature ∈ m.features enabled, feature ∈ index.names

/-- An index that grows knows what it knew. -/
theorem Knows.of_isPrefix (h : index.Knows m enabled) (hle : index.names <+: index'.names) :
    index'.Knows m enabled :=
  fun feature hfeature => hle.subset (h feature hfeature)

/-- An index knows the measurement that it has just observed. -/
theorem knows_observe (index : FeatureIndex) (m : Measurement α) (enabled : Kinds) :
    (index.observe m enabled).Knows m enabled :=
  fun _ hfeature => mem_names_insertAll.2 (.inr hfeature)

/-- What was observed is known from then on. -/
theorem knows_observeAll (index : FeatureIndex) {ms : List (Measurement α)} (h : m ∈ ms)
    (enabled : Kinds) : (index.observeAll ms enabled).Knows m enabled := by
  obtain ⟨before, after, rfl⟩ := List.append_of_mem h
  rw [observeAll_append]
  exact (knows_observe _ m enabled).of_isPrefix (names_isPrefix_observeAll _ after enabled)

/-! ## Encoding -/

/-- The numbers of names are in increasing order, and each is there once. -/
theorem pairwise_idsOf (index : FeatureIndex) (names : List String) :
    (index.idsOf names).Pairwise (· < ·) :=
  List.pairwise_lt_range.filter _

/-- The numbers of names are the numbers that stand for one of them. -/
theorem mem_idsOf : id ∈ index.idsOf names ↔ ∃ name ∈ names, index.name? id = some name := by
  rw [idsOf, List.mem_filter, List.mem_range, Option.any_eq_true]
  constructor
  · rintro ⟨-, name, hid, hname⟩
    exact ⟨name, List.contains_iff_mem.1 hname, hid⟩
  · rintro ⟨name, hname, hid⟩
    obtain ⟨hlt, -⟩ := List.getElem?_eq_some_iff.1 hid
    exact ⟨hlt, name, hid, List.contains_iff_mem.2 hname⟩

/-- Names that all have numbers keep them as the index grows. -/
theorem idsOf_of_isPrefix (hle : index.names <+: index'.names)
    (h : ∀ name ∈ names, name ∈ index.names) : index'.idsOf names = index.idsOf names := by
  -- Both lists are strictly increasing, so that they are the same if their members are.
  refine (index'.pairwise_idsOf names).eq_of_mem_iff (index.pairwise_idsOf names) fun id => ?_
  rw [mem_idsOf, mem_idsOf]
  constructor
  · rintro ⟨name, hname, hid⟩
    obtain ⟨id', hid'⟩ := mem_names_iff.1 (h name hname)
    obtain rfl : id = id' := name?_inj hid (name?_of_isPrefix hle hid')
    exact ⟨name, hname, hid'⟩
  · rintro ⟨name, hname, hid⟩
    exact ⟨name, hname, name?_of_isPrefix hle hid⟩

/-- The numbers of names that all have one are the numbers of exactly those names. -/
theorem mem_map_name?_idsOf (h : ∀ name ∈ names, name ∈ index.names) {x : Option String} :
    x ∈ (index.idsOf names).map index.name? ↔ x ∈ names.map some := by
  simp only [List.mem_map, mem_idsOf]
  constructor
  · rintro ⟨id, ⟨name, hname, hid⟩, rfl⟩
    exact ⟨name, hname, hid.symm⟩
  · rintro ⟨name, hname, rfl⟩
    obtain ⟨id, hid⟩ := mem_names_iff.1 (h name hname)
    exact ⟨id, ⟨name, hname, hid⟩, hid⟩

/-- The placeholder is no feature of a measurement, so its number is none of theirs. -/
theorem zero_not_mem_idsOf (index : FeatureIndex) (m : Measurement α) (enabled : Kinds) :
    0 ∉ index.idsOf (m.features enabled) := by
  intro hzero
  obtain ⟨name, hname, hid⟩ := mem_idsOf.1 hzero
  obtain rfl : placeholderFeature = name := Option.some.inj ((name?_zero index).symm.trans hid)
  exact m.placeholder_not_mem_features enabled hname

/-- A measurement without enabled features is encoded by the placeholder alone. -/
theorem encode_of_features_eq_nil (index : FeatureIndex) (h : m.features enabled = []) :
    index.encode m enabled = [0] := by
  have hids : index.idsOf (m.features enabled) = [] := by
    rw [h, List.eq_nil_iff_forall_not_mem]
    intro id hid
    obtain ⟨name, hname, -⟩ := mem_idsOf.1 hid
    cases hname
  rw [encode, hids]

/-- A measurement with numbers is encoded by them. -/
theorem encode_of_idsOf_ne_nil (h : index.idsOf (m.features enabled) ≠ []) :
    index.encode m enabled = index.idsOf (m.features enabled) := by
  rw [encode]
  split
  · next hnil => exact absurd hnil h
  · rfl

/-- A measurement whose features are known is encoded by their numbers, if there are any. -/
theorem Knows.encode_eq (h : index.Knows m enabled) (hne : m.features enabled ≠ []) :
    index.encode m enabled = index.idsOf (m.features enabled) := by
  apply encode_of_idsOf_ne_nil
  obtain ⟨feature, hfeature⟩ := List.exists_mem_of_ne_nil _ hne
  obtain ⟨id, hid⟩ := mem_names_iff.1 (h feature hfeature)
  exact List.ne_nil_of_mem (mem_idsOf.2 ⟨feature, hfeature, hid⟩)

/-- An encoding is strictly increasing. -/
theorem pairwise_encode (index : FeatureIndex) (m : Measurement α) (enabled : Kinds) :
    (index.encode m enabled).Pairwise (· < ·) := by
  rw [encode]
  split
  · exact List.pairwise_singleton ..
  · exact index.pairwise_idsOf _

/-- A measurement whose features are known is encoded by the placeholder alone exactly if it has
no feature. -/
theorem Knows.encode_eq_zero_iff (h : index.Knows m enabled) :
    index.encode m enabled = [0] ↔ m.features enabled = [] := by
  constructor
  · intro hzero
    by_contra hne
    rw [h.encode_eq hne] at hzero
    exact index.zero_not_mem_idsOf m enabled (hzero ▸ List.mem_singleton_self 0)
  · exact index.encode_of_features_eq_nil

/-- A measurement whose features are known is encoded in the same way by every index that has grown
out of the given one. -/
theorem Knows.encode_of_isPrefix (h : index.Knows m enabled) (hle : index.names <+: index'.names) :
    index'.encode m enabled = index.encode m enabled := by
  by_cases hnil : m.features enabled = []
  · rw [encode_of_features_eq_nil _ hnil, encode_of_features_eq_nil _ hnil]
  · rw [h.encode_eq hnil, (h.of_isPrefix hle).encode_eq hnil, idsOf_of_isPrefix hle h]

/-! ## What was learned and read back -/

/-- The index learned from measurements is read back from its names as it is. Every measurement it
was learned from is then encoded by increasing numbers, which are those of exactly its enabled
features, or by the placeholder alone if it has none. Learning from more measurements adds names at
the end, and changes none of these encodings. -/
theorem reloaded_encodes_learned (ms : List (Measurement α)) (enabled : Kinds) :
    let learned := empty.observeAll ms enabled
    let index := ofNames learned.names
    ofJson? learned.json = some index ∧ index = learned ∧
      (∀ m ∈ ms, (index.encode m enabled).Pairwise (· < ·) ∧
        (index.encode m enabled = [0] ↔ m.features enabled = []) ∧
        (m.features enabled ≠ [] → ∀ x, x ∈ (index.encode m enabled).map index.name? ↔
          x ∈ (m.features enabled).map some)) ∧
      ∀ more, learned.names <+: (empty.observeAll (ms ++ more) enabled).names ∧
        ∀ m ∈ ms, (ofNames (empty.observeAll (ms ++ more) enabled).names).encode m enabled =
          index.encode m enabled := by
  intro learned index
  have hindex : index = learned := ofNames_names learned
  have hknows : ∀ m ∈ ms, learned.Knows m enabled := fun m hm => knows_observeAll _ hm enabled
  refine ⟨hindex ▸ ofJson?_json learned, hindex, ?_, ?_⟩
  · intro m hm
    rw [hindex]
    refine ⟨pairwise_encode .., (hknows m hm).encode_eq_zero_iff, fun hne x => ?_⟩
    rw [(hknows m hm).encode_eq hne]
    exact mem_map_name?_idsOf (hknows m hm)
  · intro more
    have hle : learned.names <+: (empty.observeAll (ms ++ more) enabled).names := by
      rw [observeAll_append]
      exact names_isPrefix_observeAll ..
    refine ⟨hle, fun m hm => ?_⟩
    rw [hindex, ofNames_names]
    exact (hknows m hm).encode_of_isPrefix hle

/-- A pair with one feature, which an index learns twice, is encoded by the number of that
feature. -/
theorem reloaded_encodes_learned_determiner :
    let x := (Token.make 0 "The" "the" "DT" (some 1) "det").withPath "det#ROOT"
    let m : Measurement Rat := ⟨1, 1, [.deleted x]⟩
    let index := ofNames (empty.observeAll [m, m] .all).names
    m ∈ [m, m] ∧ m.features .all = ["Type:del#T_DPrelR:det#ROOT"] ∧
      (index.encode m .all).Pairwise (· < ·) ∧ index.encode m .all ≠ [0] ∧
      (∀ x, x ∈ (index.encode m .all).map index.name? ↔
        x = some "Type:del#T_DPrelR:det#ROOT") ∧
      (ofNames (empty.observeAll ([m, m] ++ [m]) .all).names).encode m .all =
        index.encode m .all := by
  intro x m index
  have hm : m ∈ [m, m] := List.mem_cons_self
  have hfeatures : m.features .all = ["Type:del#T_DPrelR:det#ROOT"] := by decide
  obtain ⟨-, -, hencode, hmore⟩ := reloaded_encodes_learned [m, m] .all
  obtain ⟨hincreasing, hzero, hnames⟩ := hencode m hm
  have hne : m.features .all ≠ [] := by
    rw [hfeatures]
    exact List.cons_ne_nil _ _
  refine ⟨hm, hfeatures, hincreasing, hzero.not.2 hne, fun x => ?_, (hmore [m]).2 m hm⟩
  rw [hnames hne, hfeatures, List.map_singleton, List.mem_singleton]

end FeatureIndex

/-- A batch learns from the measurements of its lines, in order. -/
theorem Command.learnedIndex_eq_observeAll (enabled : Kinds) (reports : List LineReport) :
    learnedIndex enabled reports =
      FeatureIndex.empty.observeAll (reports.filterMap LineReport.measurement?) enabled := rfl

end Entailment
