import Entailment.Measure.Record
import Entailment.Proofs.Outcomes

/-! # Layering one table over another

Links that are offered to a table later leave the earlier ones alone. So to fill a table from
another one is to offer it the links that the other was built of, in their order, and the table of a
pair is the table of its own judgments with the shared ones behind them.

* **`AlignTable.fillFrom_insert`** — filling, one link at a time;
* **`AlignTable.addRecords_fillFrom`** — filling from a table that was built of judgments;
* **`PairTable.layer_eq_ofRecords`** — the table of a pair, from one list. -/

namespace Entailment

namespace AlignTable

variable {m n shared : AlignTable} {key : String} {link : Link}

/-- There is nothing to fill in from the empty table. -/
@[simp] theorem fillFrom_empty (m : AlignTable) : m.fillFrom empty = m := rfl

/-- A taken key keeps its link. -/
theorem insert_of_taken (h : m.get? key ≠ none) : m.insert key link = m := dif_neg h

/-- A free key comes last. -/
theorem entries_insert_of_free (h : m.get? key = none) :
    (m.insert key link).entries = m.entries ++ [(key, link)] := by
  rw [insert, dif_pos h]

/-- The links of a list of entries are found behind those that were there. -/
theorem get?_foldl_insert (m : AlignTable) (ps : List (String × Link)) (k : String) :
    (ps.foldl (fun m p => m.insert p.1 p.2) m).get? k = (m.get? k).or (ps.lookup k) := by
  induction ps generalizing m with
  | nil => simp
  | cons p ps ih =>
      rw [List.foldl_cons, ih, get?_insert, Option.or_assoc, List.lookup_cons]
      by_cases hk : k = p.1
      · simp [hk]
      · rw [beq_eq_false_iff_ne.2 hk, if_neg hk, Option.none_or]

/-- What a table holds goes before what it is filled with. -/
theorem get?_fillFrom (m other : AlignTable) (k : String) :
    (m.fillFrom other).get? k = (m.get? k).or (other.get? k) :=
  get?_foldl_insert m other.entries k

/-- A link that is new to the other table comes last, and one that is not changes nothing. -/
theorem fillFrom_insert (m n : AlignTable) (key : String) (link : Link) :
    m.fillFrom (n.insert key link) = (m.fillFrom n).insert key link := by
  -- Only a key that is new to `n` is there to be filled in, and whether it is free in `m` is then
  -- asked by the same insertion on both sides.
  by_cases hfree : n.get? key = none
  · rw [fillFrom, entries_insert_of_free hfree, List.foldl_append]
    rfl
  · have htaken : (m.fillFrom n).get? key ≠ none := by
      rw [get?_fillFrom]
      simp [hfree]
    rw [insert_of_taken hfree, insert_of_taken htaken]

/-- Two lists of judgments are added one after the other. -/
theorem addRecords_append (m : AlignTable) (rs ss : List AlignmentRecord) :
    m.addRecords (rs ++ ss) = m.addRecords rs >>= fun n => n.addRecords ss := by
  induction rs generalizing m with
  | nil => rfl
  | cons r rs ih =>
      rw [List.cons_append, addRecords, addRecords]
      cases m.insertKeyed r.key r.link with
      | error e => rfl
      | ok n => exact ih n

/-- Whatever a table is filled with, judgments added to that are added to the result. -/
theorem addRecords_fillFrom (m : AlignTable) {rs : List AlignmentRecord} {n' : AlignTable}
    (h : n.addRecords rs = .ok n') : (m.fillFrom n).addRecords rs = .ok (m.fillFrom n') := by
  induction rs generalizing n with
  | nil =>
      cases h
      rfl
  | cons r rs ih =>
      rw [addRecords] at h ⊢
      unfold insertKeyed at h ⊢
      by_cases hkey : validKey r.key = true
      · rw [if_pos hkey] at h ⊢
        rw [← fillFrom_insert]
        exact ih h
      · rw [if_neg hkey] at h
        cases h

/-- To fill a table from the table of some judgments is to add them. -/
theorem addRecords_of_ofRecords (m : AlignTable) {rs : List AlignmentRecord}
    (h : ofRecords rs = .ok shared) : m.addRecords rs = .ok (m.fillFrom shared) := by
  rw [← addRecords_fillFrom m h, fillFrom_empty]

end AlignTable

/-- The table of a pair is that of its own judgments followed by the shared ones, and it is refused
when that one is. -/
theorem PairTable.layer_eq_ofRecords {own global : List AlignmentRecord} {shared : AlignTable}
    (h : AlignTable.ofRecords global = .ok shared) :
    (PairTable.layer own shared).map (PairTable.table shared) =
      AlignTable.ofRecords (own ++ global) := by
  -- A pair without judgments takes the shared table as it is.
  cases own with
  | nil => exact h.symm
  | cons r own =>
      rw [AlignTable.ofRecords, AlignTable.addRecords_append, layer, if_neg (by simp)]
      show ((AlignTable.ofRecords (r :: own)).map _).map _ = AlignTable.ofRecords (r :: own) >>= _
      cases AlignTable.ofRecords (r :: own) with
      | error e => rfl
      | ok m => exact (AlignTable.addRecords_of_ofRecords m h).symm

end Entailment
