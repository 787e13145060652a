import Entailment.Proofs.Align.Layering
import Entailment.Proofs.Text.Basic
import Mathlib.Data.Finset.Card
import Mathlib.Logic.Function.Basic

/-! # Histories of alignment tables

Tables are filled in four ways, one of which copies from another table. Each of them offers links to
one table, in some order, and of all the links ever offered under a key the table keeps the first.

* **`AlignTable.offerAll`** — a table after links were offered to it, whatever the way;
* **`TableOperation`**, **`TableOperation.perform`** — the four ways, on any number of tables;
* **`TableOperation.log`** — the links that a run offers to a table;
* **`TableOperation.run_eq_offerAll`** — a table is what was offered to it;
* **`alignKey_inj`** — sides without underscores at the seam have a key of their own;
* **`first_offer_stays`** — what a table holds after any run. -/

namespace Entailment

/-! ## Links offered one after the other -/

namespace AlignTable

variable {m : AlignTable} {key : String} {link : Link} {ps : List (String × Link)}

/-- The table after links were offered to it under keys, in order. -/
def offerAll (m : AlignTable) (ps : List (String × Link)) : AlignTable :=
  ps.foldl (fun m p => m.insert p.1 p.2) m

/-- Where no links are offered, nothing changes. -/
@[simp] theorem offerAll_nil (m : AlignTable) : m.offerAll [] = m := rfl

/-- Links are offered one list after the other. -/
theorem offerAll_append (m : AlignTable) (ps qs : List (String × Link)) :
    m.offerAll (ps ++ qs) = (m.offerAll ps).offerAll qs := List.foldl_append

/-- To fill a table from another one is to offer it the links of that one. -/
theorem fillFrom_eq_offerAll (m other : AlignTable) :
    m.fillFrom other = m.offerAll other.entries := rfl

/-- To insert links for pairs of sides is to offer them under the keys of the pairs. -/
theorem insertPairs_eq_offerAll (m : AlignTable) (items : List (String × String × Link)) :
    m.insertPairs items = m.offerAll (items.map fun p => (alignKey p.1 p.2.1, p.2.2)) := by
  rw [offerAll, List.foldl_map, insertPairs]

/-- What the table holds stays, and of the links offered under another key the first is kept. -/
theorem get?_offerAll (m : AlignTable) (ps : List (String × Link)) (key : String) :
    (m.offerAll ps).get? key = (m.get? key).or (ps.lookup key) :=
  get?_foldl_insert m ps key

/-- A link that the table holds is not overwritten. -/
theorem get?_offerAll_of_some (h : m.get? key = some link) :
    (m.offerAll ps).get? key = some link := by
  rw [get?_offerAll, h, Option.some_or]

/-- A table that was empty has the first link that was offered under a key. -/
theorem get?_offerAll_empty (ps : List (String × Link)) (key : String) :
    (empty.offerAll ps).get? key = ps.lookup key := by
  rw [get?_offerAll, get?_empty, Option.none_or]

/-- The keys of a table that was empty are the keys that were offered. -/
theorem contains_offerAll_empty (ps : List (String × Link)) (key : String) :
    (empty.offerAll ps).contains key = decide (key ∈ ps.map Prod.fst) := by
  rw [contains, get?_offerAll_empty, Bool.eq_iff_iff, decide_eq_true_iff, Option.isSome_iff_ne_none,
    ne_eq, lookup_eq_none_iff, not_not]

/-- A table that was empty has as many keys as different ones were offered. -/
theorem size_offerAll_empty (ps : List (String × Link)) :
    (empty.offerAll ps).size = (ps.map Prod.fst).toFinset.card := by
  have hkeys : ((empty.offerAll ps).entries.map Prod.fst).toFinset =
      (ps.map Prod.fst).toFinset := by
    ext key
    rw [List.mem_toFinset, List.mem_toFinset, ← not_iff_not, ← get?_eq_none_iff,
      get?_offerAll_empty, lookup_eq_none_iff]
  rw [← hkeys, List.toFinset_card_of_nodup (empty.offerAll ps).distinct, List.length_map, size]

/-- A key is accepted as an aligner writes it exactly if it has the separator. -/
theorem validKey_iff : validKey key = true ↔ ['_', '_'] <:+: key.toList := by
  have hseparator : "__".toList = ['_', '_'] := by decide
  rw [validKey, Text.occursIn_iff, hseparator]

end AlignTable

/-! ## Operations on several tables -/

/-- A way in which links come into one of several tables. -/
inductive TableOperation (ι : Type) where
  /-- A link for a text side and a hypothesis side. -/
  | insert (target : ι) (t h : String) (link : Link)
  /-- A link under a key as an aligner writes it. -/
  | insertKeyed (target : ι) (key : String) (link : Link)
  /-- Links for pairs of sides. -/
  | extend (target : ι) (items : List (String × String × Link))
  /-- The links of another table. -/
  | fillFrom (target source : ι)

namespace TableOperation

variable {ι : Type}

/-- The table that an operation is on. -/
def target : TableOperation ι → ι
  | insert i _ _ _ => i
  | insertKeyed i _ _ => i
  | extend i _ => i
  | fillFrom i _ => i

/-- The links that an operation offers to its table, in order. A key without the separator is
refused, so that nothing is offered under it; another table offers what it holds at the time. -/
def offers (tables : ι → AlignTable) : TableOperation ι → List (String × Link)
  | insert _ t h link => [(alignKey t h, link)]
  | insertKeyed _ key link => if ['_', '_'] <:+: key.toList then [(key, link)] else []
  | extend _ items => items.map fun p => (alignKey p.1 p.2.1, p.2.2)
  | fillFrom _ source => (tables source).entries

variable [DecidableEq ι] {tables : ι → AlignTable} {i : ι}

/-- What an operation answers, and the tables afterwards. -/
def perform (tables : ι → AlignTable) :
    TableOperation ι → Except FormatError (Option Bool) × (ι → AlignTable)
  | insert i t h link =>
    let (isNew, m) := (tables i).offer (alignKey t h) link
    (.ok (some isNew), Function.update tables i m)
  | insertKeyed i key link =>
    match (tables i).offerKeyed key link with
    | .ok (isNew, m) => (.ok (some isNew), Function.update tables i m)
    | .error e => (.error e, tables)
  | extend i items => (.ok none, Function.update tables i ((tables i).insertPairs items))
  | fillFrom i source =>
    (.ok none, Function.update tables i ((tables i).fillFrom (tables source)))

/-- What an operation answers. -/
def answer (tables : ι → AlignTable) (o : TableOperation ι) : Except FormatError (Option Bool) :=
  (o.perform tables).1

/-- The tables after an operation. -/
def after (tables : ι → AlignTable) (o : TableOperation ι) : ι → AlignTable := (o.perform tables).2

/-- The tables after a run of operations. -/
def run (tables : ι → AlignTable) (os : List (TableOperation ι)) : ι → AlignTable :=
  os.foldl after tables

/-- The links that a run offers to one table, in order. -/
def log (i : ι) (tables : ι → AlignTable) : List (TableOperation ι) → List (String × Link)
  | [] => []
  | o :: os => (if o.target = i then o.offers tables else []) ++ log i (o.after tables) os

/-! ## One operation -/

/-- A key with the separator is answered by whether it was free, and its link is inserted. -/
theorem perform_insertKeyed_of_valid {key : String} (h : ['_', '_'] <:+: key.toList)
    (tables : ι → AlignTable) (i : ι) (link : Link) :
    (insertKeyed i key link).perform tables =
      (.ok (some !(tables i).contains key),
        Function.update tables i ((tables i).insert key link)) := by
  rw [perform, AlignTable.offerKeyed, AlignTable.insertKeyed, if_pos (AlignTable.validKey_iff.2 h)]
  rfl

/-- A key without the separator is refused, and all tables stay as they are. -/
theorem perform_insertKeyed_of_invalid {key : String} (h : ¬['_', '_'] <:+: key.toList)
    (tables : ι → AlignTable) (i : ι) (link : Link) :
    (insertKeyed i key link).perform tables = (.error (.malformedKey key), tables) := by
  rw [perform, AlignTable.offerKeyed, AlignTable.insertKeyed,
    if_neg (AlignTable.validKey_iff.not.2 h)]
  rfl

/-- An operation offers its links to its own table, and leaves the others alone. -/
theorem after_eq_offerAll (tables : ι → AlignTable) (o : TableOperation ι) (i : ι) :
    o.after tables i = (tables i).offerAll (if o.target = i then o.offers tables else []) := by
  -- Each operation puts one table in place of another, which is its own with the links offered.
  have hupdate : o.after tables =
      Function.update tables o.target ((tables o.target).offerAll (o.offers tables)) := by
    cases o with
    | insert i t h link => rfl
    | insertKeyed i key link =>
        by_cases hkey : ['_', '_'] <:+: key.toList
        · rw [after, perform_insertKeyed_of_valid hkey, offers, if_pos hkey]
          rfl
        · rw [after, perform_insertKeyed_of_invalid hkey, offers, if_neg hkey,
            AlignTable.offerAll_nil, Function.update_eq_self]
    | extend i items =>
        rw [offers, ← AlignTable.insertPairs_eq_offerAll]
        rfl
    | fillFrom i source =>
        rw [offers, ← AlignTable.fillFrom_eq_offerAll]
        rfl
  rw [hupdate]
  by_cases htarget : o.target = i
  · subst htarget
    rw [Function.update_self, if_pos rfl]
  · rw [Function.update_of_ne (Ne.symm htarget), if_neg htarget, AlignTable.offerAll_nil]

/-! ## Runs -/

/-- After a run, a table is what it was with the links that the run offered to it. -/
theorem run_eq_offerAll (tables : ι → AlignTable) (os : List (TableOperation ι)) (i : ι) :
    run tables os i = (tables i).offerAll (log i tables os) := by
  -- For all tables that the run starts from: what a filling offers depends on them.
  induction os generalizing tables with
  | nil => rfl
  | cons o os ih =>
      rw [log, AlignTable.offerAll_append, ← after_eq_offerAll]
      exact ih (o.after tables)

end TableOperation

/-! ## Keys of pairs -/

/-- A side that does not run into the separator: it has no double underscore, and does not end with
an underscore. -/
def PlainSide (t : String) : Prop := ¬['_', '_'] <:+: t.toList ∧ ¬['_'] <:+ t.toList

/-- Where the separator follows on a part of a plain side and on all of it, the part is all of
it. -/
theorem PlainSide.eq_nil_of_append {t : String} {side rest hs hs' : List Char} (ht : PlainSide t)
    (hside : t.toList = side ++ rest) (hkey : '_' :: '_' :: hs = rest ++ '_' :: '_' :: hs') :
    rest = [] := by
  -- The rest starts as the separator does: one character of it is an underscore at the end of the
  -- side, and more of it are two underscores within the side.
  match rest with
  | [] => rfl
  | [c] =>
      obtain ⟨rfl, -⟩ := List.cons.inj hkey
      exact absurd ⟨side, hside.symm⟩ ht.2
  | c :: d :: rest =>
      obtain ⟨rfl, htail⟩ := List.cons.inj hkey
      obtain ⟨rfl, -⟩ := List.cons.inj htail
      exact absurd ⟨side, rest, by rw [hside, List.append_assoc]; rfl⟩ ht.1

/-- Pairs with plain text sides have a key of their own. -/
theorem alignKey_inj {t h t' h' : String} (ht : PlainSide t) (ht' : PlainSide t')
    (heq : alignKey t h = alignKey t' h') : t = t' ∧ h = h' := by
  have hkeys : t.toList ++ '_' :: '_' :: h.toList = t'.toList ++ '_' :: '_' :: h'.toList := by
    simpa [alignKey] using congrArg String.toList heq
  have hside : t.toList = t'.toList := by
    rcases List.append_eq_append_iff.1 hkeys with ⟨rest, hside, hrest⟩ | ⟨rest, hside, hrest⟩
    · rw [ht'.eq_nil_of_append hside hrest, List.append_nil] at hside
      exact hside.symm
    · rw [ht.eq_nil_of_append hside hrest, List.append_nil] at hside
      exact hside
  rw [hside] at hkeys
  have hrest := List.append_cancel_left hkeys
  exact ⟨String.toList_inj.1 hside,
    String.toList_inj.1 (List.cons.inj (List.cons.inj hrest).2).2⟩

/-- A link under the key of another pair is not found for a pair, where both text sides are
plain. -/
theorem AlignTable.getPair?_insert_of_ne {t h t' h' : String} (ht : PlainSide t)
    (ht' : PlainSide t') (hne : (t, h) ≠ (t', h')) (m : AlignTable) (link : Link) :
    (m.insert (alignKey t' h') link).getPair? t h = m.getPair? t h := by
  have hkey : alignKey t h ≠ alignKey t' h' := by
    intro heq
    obtain ⟨rfl, rfl⟩ := alignKey_inj ht ht' heq
    exact hne rfl
  rw [getPair?, getPair?, get?_insert, if_neg hkey, Option.or_none]

/-! ## The history of a table -/

/-- After any run of operations on tables that were empty, a table holds under each key the first
link that was offered to it under that key, and it has as many keys as different ones were offered.
No operation takes a link away or puts another in its place. A link is answered to be new exactly if
its key was not offered before, and a key without the separator is refused, with all tables left
alone. The link of a pair is the one under its two sides with the separator between them, and
inserting a link for another pair does not change it where both text sides are plain. -/
theorem first_offer_stays {ι : Type} [DecidableEq ι] (os : List (TableOperation ι)) :
    let start : ι → AlignTable := fun _ => .empty
    let tables := TableOperation.run start os
    (∀ i key, (tables i).get? key = (TableOperation.log i start os).lookup key) ∧
    (∀ i, (tables i).size = ((TableOperation.log i start os).map Prod.fst).toFinset.card) ∧
    (∀ (o : TableOperation ι) i key link, (tables i).get? key = some link →
      (o.after tables i).get? key = some link) ∧
    (∀ i t h link, (TableOperation.insert i t h link).answer tables =
      .ok (some (decide (alignKey t h ∉ (TableOperation.log i start os).map Prod.fst)))) ∧
    (∀ i key link, ['_', '_'] <:+: key.toList →
      (TableOperation.insertKeyed i key link).answer tables =
        .ok (some (decide (key ∉ (TableOperation.log i start os).map Prod.fst)))) ∧
    (∀ i key link, ¬['_', '_'] <:+: key.toList →
      (TableOperation.insertKeyed i key link).answer tables = .error (.malformedKey key) ∧
        (TableOperation.insertKeyed i key link).after tables = tables) ∧
    (∀ i t h, (tables i).getPair? t h = (tables i).get? (t ++ "__" ++ h)) ∧
    ∀ i t h t' h' link, PlainSide t → PlainSide t' → (t, h) ≠ (t', h') →
      ((TableOperation.insert i t' h' link).after tables i).getPair? t h =
        (tables i).getPair? t h := by
  intro start tables
  have htables : ∀ i, tables i = AlignTable.empty.offerAll (TableOperation.log i start os) :=
    TableOperation.run_eq_offerAll start os
  have hnew : ∀ i key, (!(tables i).contains key) =
      decide (key ∉ (TableOperation.log i start os).map Prod.fst) := by
    intro i key
    rw [htables, AlignTable.contains_offerAll_empty, decide_not]
  refine ⟨?_, ?_, ?_, ?_, ?_, ?_, ?_, ?_⟩
  · intro i key
    rw [htables, AlignTable.get?_offerAll_empty]
  · intro i
    rw [htables, AlignTable.size_offerAll_empty]
  · intro o i key link hlink
    rw [TableOperation.after_eq_offerAll]
    exact AlignTable.get?_offerAll_of_some hlink
  · intro i t h link
    rw [← hnew]
    rfl
  · intro i key link hkey
    rw [TableOperation.answer, TableOperation.perform_insertKeyed_of_valid hkey, ← hnew]
  · intro i key link hkey
    rw [TableOperation.answer, TableOperation.after,
      TableOperation.perform_insertKeyed_of_invalid hkey]
    exact ⟨rfl, rfl⟩
  · intro i t h
    rfl
  · intro i t h t' h' link ht ht' hne
    have hafter : (TableOperation.insert i t' h' link).after tables i =
        (tables i).insert (alignKey t' h') link := Function.update_self ..
    rw [hafter]
    exact AlignTable.getPair?_insert_of_ne ht ht' hne (tables i) link

/-- A table that has a link of its own is filled from another one: its own link stays, and the link
under the other key is copied. -/
theorem first_offer_stays_two_tables :
    let synonym : Link := ⟨"WORDNET__3.0__SYNONYM", 1.0, .textToHypothesis⟩
    let antonym : Link := ⟨"WORDNET__3.0__ANTONYM", 1.0, .textToHypothesis⟩
    let os : List (TableOperation Bool) :=
      [.insert true "hot" "cold" synonym, .insertKeyed true "big_large" synonym,
        .extend false [("hot", "cold", antonym), ("big", "large", antonym)], .fillFrom true false]
    let tables := TableOperation.run (fun _ => .empty) os
    (tables true).get? "hot__cold" = some synonym ∧
      (tables true).get? "big__large" = some antonym ∧ (tables true).size = 2 ∧
      (TableOperation.insert true "hot" "cold" antonym).answer tables = .ok (some false) ∧
      (['_', '_'] <:+: "big__large".toList ∧
        (TableOperation.insertKeyed true "big__large" synonym).answer tables = .ok (some false)) ∧
      (¬['_', '_'] <:+: "big_large".toList ∧
        (TableOperation.insertKeyed true "big_large" synonym).answer tables =
          .error (.malformedKey "big_large")) ∧
      (PlainSide "hot" ∧ PlainSide "warm" ∧ ("hot", "cold") ≠ ("warm", "cold") ∧
        ((TableOperation.insert true "warm" "cold" antonym).after tables true).getPair?
          "hot" "cold" = (tables true).getPair? "hot" "cold") := by
  intro synonym antonym os tables
  obtain ⟨hget, hsize, -, hinsert, hkeyed, hrefused, -, hpair⟩ := first_offer_stays os
  have hvalid : ['_', '_'] <:+: "big__large".toList := by decide
  have hinvalid : ¬['_', '_'] <:+: "big_large".toList := by decide
  have hhot : PlainSide "hot" := ⟨by decide, by decide⟩
  have hwarm : PlainSide "warm" := ⟨by decide, by decide⟩
  have hne : ("hot", "cold") ≠ ("warm", "cold") := by decide
  have hoffered : TableOperation.log true (fun _ => .empty) os =
      [("hot__cold", synonym), ("hot__cold", antonym), ("big__large", antonym)] := by
    rfl
  refine ⟨?_, ?_, ?_, ?_, ⟨hvalid, ?_⟩, ⟨hinvalid, (hrefused true _ _ hinvalid).1⟩,
    hhot, hwarm, hne, hpair true _ _ _ _ _ hhot hwarm hne⟩
  · rw [hget, hoffered]
    rfl
  · rw [hget, hoffered]
    rfl
  · rw [hsize, hoffered]
    decide
  · rw [hinsert, hoffered]
    rfl
  · rw [hkeyed true _ _ hvalid, hoffered]
    rfl

end Entailment
