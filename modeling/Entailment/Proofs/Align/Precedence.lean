import Entailment.Proofs.Align.Histories

/-! # Whose judgment counts

A pair has judgments of its own, and the others are shared. Under one key its own come first. A
look-up asks for the forms of two tokens before it asks for their lemmas, so that a shared judgment
about the forms is found before one of the pair's own about the lemmas.

* **`AlignTable.entries_perm_iff`** — what a table holds, whatever the order of its entries;
* **`AlignTable.ofRecords_eq_ok_iff`**, **`AlignTable.ofRecords_eq_error_iff`** — the table of
  judgments, and the first key that is refused;
* **`layer_is_concatenation`** — the table of a pair is that of both lists, one after the other;
* **`lookup_layer_own_first`** — which judgment a look-up finds. -/

namespace Entailment

/-- A key that an aligner may write: its two sides have the separator between them. -/
def AlignmentRecord.HasSeparator (r : AlignmentRecord) : Prop := ['_', '_'] <:+: r.key.toList

/-- The two underscores are searched for. -/
instance (r : AlignmentRecord) : Decidable r.HasSeparator :=
  inferInstanceAs (Decidable (['_', '_'] <:+: r.key.toList))

/-- The keys of judgments with their links. -/
def AlignmentRecord.entry (r : AlignmentRecord) : String × Link := (r.key, r.link)

namespace AlignTable

variable {m n : AlignTable} {key : String} {link : Link} {order : List (String × Link)}
  {rs : List AlignmentRecord} {e : FormatError}

/-! ## What a table holds -/

/-- No entry stands in a table twice. -/
theorem nodup_entries (m : AlignTable) : m.entries.Nodup := m.distinct.of_map

/-- The entries of a table are what is found under its keys. -/
theorem mem_entries_iff : (key, link) ∈ m.entries ↔ m.get? key = some link := by
  rw [get?, List.lookup_eq_some_iff]
  constructor
  · intro hmem
    obtain ⟨front, back, hentries⟩ := List.append_of_mem hmem
    refine ⟨front, back, hentries, fun p hp => ?_⟩
    -- The key stands only once among the keys.
    have hdistinct := m.distinct
    rw [hentries, List.map_append, List.map_cons, List.nodup_append] at hdistinct
    exact bne_iff_ne.2 (Ne.symm (hdistinct.2.2 p.1 (List.mem_map_of_mem hp) key List.mem_cons_self))
  · rintro ⟨front, back, hentries, -⟩
    rw [hentries]
    exact List.mem_append_right front List.mem_cons_self

/-- Two tables have the same entries, in some order, if the same links are found under all keys. -/
theorem entries_perm_iff : m.entries.Perm n.entries ↔ ∀ key, m.get? key = n.get? key := by
  rw [List.perm_ext_iff_of_nodup m.nodup_entries n.nodup_entries]
  constructor
  · intro h key
    ext link
    rw [← mem_entries_iff, ← mem_entries_iff]
    exact h (key, link)
  · rintro h ⟨key, link⟩
    rw [mem_entries_iff, mem_entries_iff, h]

/-- Tables that hold the same answer every look-up alike. -/
theorem lookup_congr (h : ∀ key, m.get? key = n.get? key) (x y : Token) :
    m.lookup x y = n.lookup x y := by
  rw [lookup, lookup, h, h]

/-- A table may be filled from the entries of another one in any order. -/
theorem get?_offerAll_perm (h : order.Perm n.entries) (m : AlignTable) (key : String) :
    (m.offerAll order).get? key = (m.fillFrom n).get? key := by
  have hdistinct : (order.map Prod.fst).Nodup := ((h.map Prod.fst).nodup_iff).2 n.distinct
  let reordered : AlignTable := ⟨order, hdistinct⟩
  have hsame : reordered.get? key = n.get? key := entries_perm_iff.1 h key
  rw [get?_offerAll, get?_fillFrom, ← hsame]
  rfl

/-! ## The table of judgments -/

/-- Judgments are added if all keys have the separator, and are then offered in their order. -/
theorem addRecords_eq_ok_iff :
    m.addRecords rs = .ok n ↔
      (∀ r ∈ rs, r.HasSeparator) ∧ n = m.offerAll (rs.map AlignmentRecord.entry) := by
  induction rs generalizing m with
  | nil => simp [addRecords, eq_comm]
  | cons r rs ih =>
      rw [addRecords, insertKeyed, List.forall_mem_cons]
      by_cases hkey : r.HasSeparator
      · rw [if_pos (validKey_iff.2 hkey)]
        simp only [hkey, true_and]
        exact ih
      · rw [if_neg (validKey_iff.not.2 hkey)]
        simp [hkey]

/-- Judgments are refused for the first key without the separator. -/
theorem addRecords_eq_error_iff :
    m.addRecords rs = .error e ↔
      FirstError (fun _ r e => ¬r.HasSeparator ∧ e = .malformedKey r.key) rs e := by
  induction rs generalizing m with
  | nil => simp [addRecords, not_firstError_nil]
  | cons r rs ih =>
      rw [addRecords, insertKeyed, firstError_cons]
      by_cases hkey : r.HasSeparator
      · rw [if_pos (validKey_iff.2 hkey)]
        simp only [hkey, not_true_eq_false, false_and, not_false_eq_true, implies_true, true_and,
          false_or]
        exact ih
      · rw [if_neg (validKey_iff.not.2 hkey)]
        simp [hkey, eq_comm]

/-- Records make a table exactly if every key has the separator: the table that their links are
offered to in order. -/
theorem ofRecords_eq_ok_iff :
    ofRecords rs = .ok m ↔
      (∀ r ∈ rs, r.HasSeparator) ∧ m = empty.offerAll (rs.map AlignmentRecord.entry) :=
  addRecords_eq_ok_iff

/-- Records are refused for the first key without the separator. -/
theorem ofRecords_eq_error_iff :
    ofRecords rs = .error e ↔
      FirstError (fun _ r e => ¬r.HasSeparator ∧ e = .malformedKey r.key) rs e :=
  addRecords_eq_error_iff

end AlignTable

/-! ## The table of a pair -/

namespace PairTable

variable {own global : List AlignmentRecord} {shared m : AlignTable} {pair : PairTable}
  {e : FormatError}

/-- A pair's own judgments are refused as they are without the shared ones. -/
theorem layer_eq_error_iff : layer own shared = .error e ↔ AlignTable.ofRecords own = .error e := by
  cases own with
  | nil => simp [layer, AlignTable.ofRecords, AlignTable.addRecords]
  | cons r own =>
      rw [layer, if_neg (by simp)]
      exact map_eq_error_iff

/-- Whether there is a table of the pair depends on its own judgments alone. -/
theorem exists_layer_iff :
    (∃ pair, layer own shared = .ok pair) ↔ ∃ m, AlignTable.ofRecords own = .ok m := by
  simp only [← forall_ne_error_iff, ne_eq, layer_eq_error_iff]

/-- Judgments with proper keys make a table of the pair. -/
theorem exists_layer (h : ∀ r ∈ own, r.HasSeparator) (shared : AlignTable) :
    ∃ m pair, AlignTable.ofRecords own = .ok m ∧ layer own shared = .ok pair := by
  have hm := AlignTable.ofRecords_eq_ok_iff.2 ⟨h, rfl⟩
  obtain ⟨pair, hpair⟩ := exists_layer_iff.2 ⟨_, hm⟩
  exact ⟨_, pair, hm, hpair⟩

/-- Only a pair without judgments of its own takes the shared table as it is. -/
theorem eq_borrowed_iff (h : layer own shared = .ok pair) : pair = borrowed ↔ own = [] := by
  cases own with
  | nil =>
      cases h
      exact iff_of_true rfl rfl
  | cons r own =>
      rw [layer, if_neg (by simp)] at h
      obtain ⟨m, -, rfl⟩ := map_eq_ok_iff.1 h
      exact iff_of_false (by simp) (by simp)

/-- Under a key, the pair's own judgment is found, or else the shared one. -/
theorem get?_table (hm : AlignTable.ofRecords own = .ok m) (h : layer own shared = .ok pair)
    (key : String) : (pair.table shared).get? key = (m.get? key).or (shared.get? key) := by
  cases own with
  | nil =>
      cases h
      cases hm
      rfl
  | cons r own =>
      rw [layer, if_neg (by simp), hm] at h
      cases h
      exact AlignTable.get?_fillFrom m shared key

/-- The table of a pair is filled from the shared one, which changes nothing if that is taken as it
is. -/
theorem table_eq_fillFrom (hshared : AlignTable.ofRecords global = .ok shared)
    (hm : AlignTable.ofRecords own = .ok m) (h : layer own shared = .ok pair) :
    pair.table shared = m.fillFrom shared := by
  have hboth : (layer own shared).map (table shared) = AlignTable.ofRecords (own ++ global) :=
    layer_eq_ofRecords hshared
  rw [h, AlignTable.ofRecords, AlignTable.addRecords_append] at hboth
  change Except.ok _ = AlignTable.ofRecords own >>= _ at hboth
  rw [hm] at hboth
  change Except.ok _ = m.addRecords global at hboth
  rw [AlignTable.addRecords_of_ofRecords m hshared] at hboth
  exact Except.ok.inj hboth

end PairTable

namespace TableOperation

variable {ι : Type} [DecidableEq ι]

/-- Judgments with proper keys are offered to one table. -/
theorem run_insertKeyed {rs : List AlignmentRecord} (h : ∀ r ∈ rs, r.HasSeparator)
    (tables : ι → AlignTable) (i : ι) :
    run tables (rs.map fun r => insertKeyed i r.key r.link) =
      Function.update tables i ((tables i).offerAll (rs.map AlignmentRecord.entry)) := by
  induction rs generalizing tables with
  | nil => simp [run]
  | cons r rs ih =>
      obtain ⟨hr, hrs⟩ := List.forall_mem_cons.1 h
      have hafter : (insertKeyed i r.key r.link).after tables =
          Function.update tables i ((tables i).insert r.key r.link) := by
        rw [after, perform_insertKeyed_of_valid hr]
      rw [List.map_cons, run, List.foldl_cons, hafter]
      refine (ih hrs _).trans ?_
      rw [Function.update_self, Function.update_idem]
      rfl

/-- A table that takes judgments and is then filled from another one leaves that one, and all
others, alone. -/
theorem run_insertKeyed_fillFrom {rs : List AlignmentRecord} (h : ∀ r ∈ rs, r.HasSeparator)
    (tables : ι → AlignTable) {i j : ι} (hij : i ≠ j) :
    run tables ((rs.map fun r => insertKeyed i r.key r.link) ++ [fillFrom i j]) =
      Function.update tables i
        (((tables i).offerAll (rs.map AlignmentRecord.entry)).fillFrom (tables j)) := by
  rw [run, List.foldl_append]
  show (fillFrom i j).after (run tables _) = _
  rw [run_insertKeyed h, after, perform, Function.update_self, Function.update_of_ne (Ne.symm hij),
    Function.update_idem]

end TableOperation

/-! ## Both lists as one -/

/-- The table of a pair is the table of its own judgments followed by the shared ones, so that the
first judgment of both lists stays under each key. It is refused exactly if a key of the pair's own
has no separator, for the first such key. The shared table may be gone through in any order, and is
left as it is; a pair takes it as it is exactly if it has no judgments of its own. -/
theorem layer_is_concatenation (own global : List AlignmentRecord)
    (hglobal : ∀ r ∈ global, r.HasSeparator) :
    ∃ shared, AlignTable.ofRecords global = .ok shared ∧
      (∀ e, PairTable.layer own shared = .error e ↔
        FirstError (fun _ r e => ¬r.HasSeparator ∧ e = .malformedKey r.key) own e) ∧
      ∀ pair, PairTable.layer own shared = .ok pair →
        (pair = .borrowed ↔ own = []) ∧
        AlignTable.ofRecords (own ++ global) = .ok (pair.table shared) ∧
        (∀ key, (pair.table shared).get? key =
          ((own ++ global).map AlignmentRecord.entry).lookup key) ∧
        (∀ m order, AlignTable.ofRecords own = .ok m → order.Perm shared.entries →
          let filled := m.offerAll order
          filled.entries.Perm (pair.table shared).entries ∧
          (∀ key, filled.get? key = (pair.table shared).get? key) ∧
          (∀ t h, filled.getPair? t h = (pair.table shared).getPair? t h) ∧
          ∀ x y, filled.lookup x y = (pair.table shared).lookup x y) ∧
        let tables := TableOperation.run (fun isShared => if isShared then shared else .empty)
          ((own.map fun r => .insertKeyed false r.key r.link) ++ [.fillFrom false true])
        tables true = shared ∧ tables false = pair.table shared := by
  have hshared := AlignTable.ofRecords_eq_ok_iff.2 ⟨hglobal, rfl⟩
  refine ⟨_, hshared, fun e => ?_, fun pair hpair => ?_⟩
  · rw [PairTable.layer_eq_error_iff, AlignTable.ofRecords_eq_error_iff]
  generalize AlignTable.empty.offerAll (global.map AlignmentRecord.entry) = shared
    at hshared hpair ⊢
  have hboth : AlignTable.ofRecords (own ++ global) = .ok (pair.table shared) := by
    rw [← PairTable.layer_eq_ofRecords hshared, hpair]
    rfl
  obtain ⟨m, hm⟩ := PairTable.exists_layer_iff.1 ⟨pair, hpair⟩
  have hfill := PairTable.table_eq_fillFrom hshared hm hpair
  refine ⟨PairTable.eq_borrowed_iff hpair, hboth, fun key => ?_, fun m' order hm' horder => ?_, ?_⟩
  · rw [(AlignTable.ofRecords_eq_ok_iff.1 hboth).2, AlignTable.get?_offerAll_empty]
  · obtain rfl : m = m' := Except.ok.inj (hm.symm.trans hm')
    have hget : ∀ key, (m.offerAll order).get? key = (pair.table shared).get? key := fun key => by
      rw [hfill, AlignTable.get?_offerAll_perm horder]
    exact ⟨AlignTable.entries_perm_iff.2 hget, hget, fun t h => hget (alignKey t h),
      AlignTable.lookup_congr hget⟩
  · obtain ⟨hown, hentries⟩ := AlignTable.ofRecords_eq_ok_iff.1 hm
    have hrun := TableOperation.run_insertKeyed_fillFrom hown
      (fun isShared => if isShared then shared else .empty) Bool.false_ne_true
    intro tables
    have htables : tables = _ := hrun
    rw [htables, hfill, hentries]
    exact ⟨rfl, rfl⟩

/-- One judgment of the pair's own takes the place of a shared one, and another shared one stays. A
key with a single underscore is refused. -/
theorem layer_is_concatenation_hypernym :
    let hypernym : Link := ⟨"WORDNET__3.0__HYPERNYM", 0.5, .hypothesisToText⟩
    let antonym : Link := ⟨"WORDNET__3.0__ANTONYM", 1.0, .textToHypothesis⟩
    let synonym : Link := ⟨"WORDNET__3.0__SYNONYM", 1.0, .textToHypothesis⟩
    let own : List AlignmentRecord := [⟨"cat__animal", hypernym⟩]
    let global : List AlignmentRecord := [⟨"cat__animal", antonym⟩, ⟨"big__large", synonym⟩]
    (∀ r ∈ global, r.HasSeparator) ∧
      ∃ shared pair, AlignTable.ofRecords global = .ok shared ∧
        PairTable.layer own shared = .ok pair ∧ pair ≠ .borrowed ∧
        (pair.table shared).get? "cat__animal" = some hypernym ∧
        (pair.table shared).get? "big__large" = some synonym ∧
        PairTable.layer [⟨"cat_animal", hypernym⟩] shared = .error (.malformedKey "cat_animal") := by
  intro hypernym antonym synonym own global
  have hglobal : ∀ r ∈ global, r.HasSeparator := by decide
  obtain ⟨shared, hshared, -, hlayer⟩ := layer_is_concatenation own global hglobal
  obtain ⟨shared', hshared', hrefused, -⟩ :=
    layer_is_concatenation [⟨"cat_animal", hypernym⟩] global hglobal
  obtain rfl : shared = shared' := Except.ok.inj (hshared.symm.trans hshared')
  have hown : ∀ r ∈ own, r.HasSeparator := by decide
  obtain ⟨-, pair, -, hpair⟩ := PairTable.exists_layer hown shared
  obtain ⟨hborrowed, -, hget, -⟩ := hlayer pair hpair
  refine ⟨hglobal, shared, pair, hshared, hpair, mt hborrowed.1 nofun, ?_, ?_, ?_⟩
  · rw [hget]
    rfl
  · rw [hget]
    rfl
  · exact (hrefused _).2 ⟨0, _, rfl, ⟨by decide, rfl⟩, nofun⟩

/-! ## Look-ups -/

/-- The forms are asked first, and then the lemmas. -/
theorem AlignTable.lookup_eq_or (m : AlignTable) (x y : Token) :
    m.lookup x y =
      (m.getPair? x.form y.form).or (m.getPair? x.lemmaForm y.lemmaForm) := rfl

/-- A look-up in two tables as one asks both for the forms before it asks both for the lemmas. -/
theorem AlignTable.lookup_of_get?_or {m shared layered : AlignTable}
    (h : ∀ key, layered.get? key = (m.get? key).or (shared.get? key)) (x y : Token) :
    layered.lookup x y =
      ((m.getPair? x.form y.form).or (shared.getPair? x.form y.form)).or
        ((m.getPair? x.lemmaForm y.lemmaForm).or (shared.getPair? x.lemmaForm y.lemmaForm)) := by
  rw [lookup, h, h]
  rfl

/-- Which judgment a look-up finds in the table of a pair. Tokens that the pair's own judgments do
not cover are looked up in the shared table. For tokens that they do cover, their judgment is found
exactly if it is one about the forms, or no other judgment about the forms is shared; otherwise the
shared judgment about the forms is found. -/
theorem lookup_layer_own_first (own : List AlignmentRecord) (shared : AlignTable) (x y : Token)
    (hown : ∀ r ∈ own, r.HasSeparator) :
    ∃ m pair, AlignTable.ofRecords own = .ok m ∧ PairTable.layer own shared = .ok pair ∧
      (∀ key link, m.get? key = some link → (pair.table shared).get? key = some link) ∧
      (m.lookup x y = none → (pair.table shared).lookup x y = shared.lookup x y) ∧
      ∀ link, m.lookup x y = some link →
        ((pair.table shared).lookup x y = some link ↔
          m.getPair? x.form y.form ≠ none ∨ shared.getPair? x.form y.form = none ∨
            shared.getPair? x.form y.form = some link) ∧
        ((pair.table shared).lookup x y ≠ some link →
          (pair.table shared).lookup x y = shared.getPair? x.form y.form) := by
  obtain ⟨m, pair, hm, hpair⟩ := PairTable.exists_layer hown shared
  have hget := PairTable.get?_table hm hpair
  have hlookup := AlignTable.lookup_of_get?_or hget x y
  refine ⟨m, pair, hm, hpair, fun key link hkey => by rw [hget, hkey, Option.some_or], ?_, ?_⟩
  · intro hnone
    rw [AlignTable.lookup_eq_or, Option.or_eq_none_iff] at hnone
    rw [hlookup, hnone.1, hnone.2, Option.none_or, Option.none_or, AlignTable.lookup_eq_or]
  · intro link hlink
    rw [AlignTable.lookup_eq_or] at hlink
    rw [hlookup]
    -- The forms are asked for in the pair's own table, then in the shared one.
    cases hforms : m.getPair? x.form y.form with
    | some l =>
        rw [hforms, Option.some_or] at hlink
        simp [hlink]
    | none =>
        rw [hforms, Option.none_or] at hlink
        cases shared.getPair? x.form y.form <;> simp [hlink]

/-- A judgment of the pair's own about the lemmas is found where no judgment about the forms is
shared; other lemmas are looked up in the shared table. -/
theorem lookup_layer_own_first_lemmas :
    let synonym : Link := ⟨"WORDNET__3.0__SYNONYM", 1.0, .textToHypothesis⟩
    let antonym : Link := ⟨"WORDNET__3.0__ANTONYM", 1.0, .textToHypothesis⟩
    let own : List AlignmentRecord := [⟨"kill__murder", synonym⟩]
    let shared : AlignTable := (AlignTable.empty.insert "kill__murder" antonym).insert
      "kill__heal" antonym
    let x : Token := .make 0 "killed" "kill" "VBD" none "ROOT"
    let y : Token := .make 0 "murdered" "murder" "VBD" none "ROOT"
    let z : Token := .make 0 "healed" "heal" "VBD" none "ROOT"
    (∀ r ∈ own, r.HasSeparator) ∧
      ∃ m pair, AlignTable.ofRecords own = .ok m ∧ PairTable.layer own shared = .ok pair ∧
        (m.lookup x y = some synonym ∧ (pair.table shared).lookup x y = some synonym) ∧
        (m.lookup x z = none ∧ (pair.table shared).lookup x z = some antonym) := by
  intro synonym antonym own shared x y z
  have hown : ∀ r ∈ own, r.HasSeparator := by decide
  obtain ⟨m, pair, hm, hpair, -, -, hcovered⟩ := lookup_layer_own_first own shared x y hown
  obtain ⟨m', pair', hm', hpair', -, hother, -⟩ := lookup_layer_own_first own shared x z hown
  obtain rfl : m = m' := Except.ok.inj (hm.symm.trans hm')
  obtain rfl : pair = pair' := Except.ok.inj (hpair.symm.trans hpair')
  obtain ⟨-, rfl⟩ := AlignTable.ofRecords_eq_ok_iff.1 hm
  exact ⟨hown, _, pair, hm, hpair, ⟨rfl, (hcovered synonym rfl).1.2 (.inr (.inl rfl))⟩,
    rfl, hother rfl⟩

/-- A shared judgment about the forms of two tokens is found before one of the pair's own about
their lemmas. -/
theorem shared_forms_before_own_lemmas :
    let synonym : Link := ⟨"WORDNET__3.0__SYNONYM", 1.0, .textToHypothesis⟩
    let antonym : Link := ⟨"WORDNET__3.0__ANTONYM", 1.0, .textToHypothesis⟩
    let own : List AlignmentRecord := [⟨"kill__murder", synonym⟩]
    let shared : AlignTable := AlignTable.empty.insert "killed__murdered" antonym
    let x : Token := .make 0 "killed" "kill" "VBD" none "ROOT"
    let y : Token := .make 0 "murdered" "murder" "VBD" none "ROOT"
    (∀ r ∈ own, r.HasSeparator) ∧
      ∃ m pair, AlignTable.ofRecords own = .ok m ∧ PairTable.layer own shared = .ok pair ∧
        m.lookup x y = some synonym ∧ (pair.table shared).lookup x y = some antonym ∧
        synonym ≠ antonym := by
  intro synonym antonym own shared x y
  have hown : ∀ r ∈ own, r.HasSeparator := by decide
  obtain ⟨m, pair, hm, hpair⟩ := PairTable.exists_layer hown shared
  have hlookup := AlignTable.lookup_of_get?_or (PairTable.get?_table hm hpair) x y
  obtain ⟨-, rfl⟩ := AlignTable.ofRecords_eq_ok_iff.1 hm
  have hdiffer : synonym.info ≠ antonym.info := by decide
  exact ⟨hown, _, pair, hm, hpair, rfl, hlookup, fun heq => hdiffer (congrArg Link.info heq)⟩

end Entailment
