import Entailment.Proofs.Measure.Transformations
import Entailment.Proofs.Measure.Trees
import Entailment.Proofs.Text.Basic
import Entailment.Proofs.Tree.Positions
import Entailment.Proofs.Tree.RootPath

/-! # What a feature string tells

A feature string is made of fields with `#` between them, and so are the root paths in it. The first
field tells the kind, and the relations of the hypothesis token begin with the first field that has
its tag. So the string can be taken apart, as long as nothing that it is made of holds a `#` and no
relation looks like that tag.

* **`Transformation.fields`** — the fields of a feature string;
* **`Transformation.feature_eq_joinWith`** — a feature string is its fields, joined;
* **`Transformation.Legible.fields_eq_iff`** — what the fields tell;
* **`Transformation.Extracted`** — a transformation with the edit that it comes from;
* **`feature_tells_relations`** — what a feature string tells. -/

namespace Entailment

/-! ## Fields -/

/-- Fields of which the first has a tag. -/
def tagged (tag : String) : List String → List String
  | [] => []
  | field :: fields => (tag ++ field) :: fields

/-- The tag of the relations of the text token. -/
def textTag : String := "T_DPrelR:"

/-- The tag of the relations of the hypothesis token. -/
def hypothesisTag : String := "H_DPrelR:"

/-- The fields of the relations of the two tokens. -/
def relationFields (ts hs : List String) : List String :=
  tagged textTag ts ++ tagged hypothesisTag hs

/-- The field for what is known about a pair. -/
def Transformation.infoFields : Transformation → List String
  | .matched info _ _ => ["Info:" ++ info.getD "null"]
  | .replaced _ info _ _ => ["Info:" ++ info.getD "null"]
  | .inserted _ => []
  | .deleted _ => []

/-- The fields of a feature string, with the relations from the tokens up to their roots. -/
def Transformation.fields (x : Transformation) (ts hs : List String) : List String :=
  ("Type:" ++ x.typeName) :: (x.infoFields ++ relationFields ts hs)

variable {tag : String} {fields ts ts' hs hs' : List String} {x x' : Transformation}

/-- The tag of joined fields comes first. -/
theorem joinWith_tagged (h : fields ≠ []) :
    Text.joinWith "#" (tagged tag fields) = tag ++ Text.joinWith "#" fields := by
  match fields with
  | [field] => rfl
  | field :: next :: fields =>
      rw [tagged, Text.joinWith_cons_cons, Text.joinWith_cons_cons]
      simp only [String.append_assoc]

/-- Fields stay fields when they are tagged. -/
theorem tagged_ne_nil (h : fields ≠ []) : tagged tag fields ≠ [] := by
  cases fields with
  | nil => exact absurd rfl h
  | cons field fields => exact List.cons_ne_nil _ _

/-- Fields are told from their tagged form. -/
theorem tagged_inj : tagged tag ts = tagged tag ts' ↔ ts = ts' := by
  cases ts <;> cases ts' <;> simp [tagged]

/-! ## Feature strings -/

namespace Transformation

/-- The relations that a token shows: its root path is made of them. A token that is not there shows
none. -/
def Shows : Option Token → List String → Prop
  | none, rs => rs = []
  | some y, rs => rs ≠ [] ∧ y.pathText = Text.joinWith "#" rs

/-- The feature string of a pair is its fields, joined. -/
theorem pairFeature_eq_joinWith {y z : Token} (typeName : String) (info : Option String)
    (ht : Shows (some y) ts) (hh : Shows (some z) hs) :
    pairFeature typeName info y z =
      Text.joinWith "#" (("Type:" ++ typeName) :: ("Info:" ++ info.getD "null") ::
        relationFields ts hs) := by
  have hinfo : "#Info:" = "#" ++ "Info:" := by decide
  have htext : "#T_DPrelR:" = "#" ++ textTag := by decide
  have hhypothesis : "#H_DPrelR:" = "#" ++ hypothesisTag := by decide
  have hne : relationFields ts hs ≠ [] := List.append_ne_nil_of_left_ne_nil (tagged_ne_nil ht.1) _
  rw [Text.joinWith_cons_cons, Text.joinWith_cons_of_ne_nil _ _ hne, relationFields,
    Text.joinWith_append (tagged_ne_nil ht.1) (tagged_ne_nil hh.1), joinWith_tagged ht.1,
    joinWith_tagged hh.1, ← ht.2, ← hh.2, pairFeature, hinfo, htext, hhypothesis]
  simp only [String.append_assoc]

/-- A feature string is its fields, joined. -/
theorem feature_eq_joinWith (ht : Shows x.text? ts) (hh : Shows x.hypothesis? hs) :
    x.feature = Text.joinWith "#" (x.fields ts hs) := by
  cases x with
  | matched info t h => exact pairFeature_eq_joinWith "match" info ht hh
  | replaced judgment info t h => exact pairFeature_eq_joinWith "rep" info ht hh
  | inserted h =>
      obtain rfl : ts = [] := ht
      show "Type:ins#H_DPrelR:" ++ h.pathText =
        Text.joinWith "#" (("Type:" ++ "ins") :: tagged hypothesisTag hs)
      rw [Text.joinWith_cons_of_ne_nil _ _ (tagged_ne_nil hh.1), joinWith_tagged hh.1, hh.2,
        ← String.append_assoc]
      exact congrArg (· ++ _) (by decide)
  | deleted t =>
      obtain rfl : hs = [] := hh
      show "Type:del#T_DPrelR:" ++ t.pathText =
        Text.joinWith "#" (("Type:" ++ "del") :: (tagged textTag ts ++ []))
      rw [List.append_nil, Text.joinWith_cons_of_ne_nil _ _ (tagged_ne_nil ht.1),
        joinWith_tagged ht.1, ht.2, ← String.append_assoc]
      exact congrArg (· ++ _) (by decide)

end Transformation

/-! ## Taking a feature string apart -/

/-- A relation that is told from the other fields of a feature string: it holds no separator, and
does not begin with the tag of the hypothesis token. -/
structure PlainRelation (r : String) : Prop where
  /-- No separator is in it. -/
  separator_not_mem : '#' ∉ r.toList
  /-- It does not look like the first relation of a hypothesis token. -/
  not_tagged : ¬hypothesisTag.toList <+: r.toList

/-- No field of the text token has the tag of the hypothesis token. -/
theorem not_tagged_of_mem_tagged (hts : ∀ r ∈ ts, PlainRelation r) :
    ∀ field ∈ tagged textTag ts, ¬hypothesisTag.toList <+: field.toList := by
  cases ts with
  | nil => exact List.forall_mem_nil _
  | cons r ts =>
      obtain ⟨-, hts⟩ := List.forall_mem_cons.1 hts
      refine List.forall_mem_cons.2 ⟨?_, fun field hfield => (hts field hfield).not_tagged⟩
      -- The two tags differ in their first letters.
      rw [String.toList_append]
      rintro ⟨rest, hrest⟩
      exact absurd (List.cons.inj hrest).1 (by decide)

/-- Whether a relation is plain can be read off it. -/
instance (r : String) : Decidable (PlainRelation r) :=
  decidable_of_iff ('#' ∉ r.toList ∧ ¬hypothesisTag.toList <+: r.toList)
    ⟨fun h => ⟨h.1, h.2⟩, fun h => ⟨h.1, h.2⟩⟩

/-- The relations of the text token are the fields in front of the first one with the tag of the
hypothesis token. -/
theorem takeWhile_relationFields (hts : ∀ r ∈ ts, PlainRelation r) :
    (relationFields ts hs).takeWhile (fun field => ¬hypothesisTag.toList <+: field.toList) =
      tagged textTag ts := by
  rw [relationFields, List.takeWhile_append_of_pos (by simpa using not_tagged_of_mem_tagged hts)]
  cases hs with
  | nil => exact List.append_nil _
  | cons r hs =>
      rw [tagged, List.takeWhile_cons_of_neg (by simp), List.append_nil]

/-- A tag without a separator brings none into the fields. -/
theorem separator_not_mem_tagged (htag : '#' ∉ tag.toList) (hrs : ∀ r ∈ ts, PlainRelation r) :
    ∀ field ∈ tagged tag ts, '#' ∉ field.toList := by
  cases ts with
  | nil => exact List.forall_mem_nil _
  | cons r ts =>
      obtain ⟨hr, hts⟩ := List.forall_mem_cons.1 hrs
      refine List.forall_mem_cons.2 ⟨?_, fun field hfield => (hts field hfield).separator_not_mem⟩
      rw [String.toList_append, List.mem_append, not_or]
      exact ⟨htag, hr.separator_not_mem⟩

/-- The fields of the relations tell which are those of the text token, and which those of the
hypothesis token. -/
theorem relationFields_inj (hts : ∀ r ∈ ts, PlainRelation r) (hts' : ∀ r ∈ ts', PlainRelation r)
    (h : relationFields ts hs = relationFields ts' hs') : ts = ts' ∧ hs = hs' := by
  have htext : tagged textTag ts = tagged textTag ts' := by
    rw [← takeWhile_relationFields hts, h, takeWhile_relationFields hts']
  rw [relationFields, relationFields, htext] at h
  exact ⟨tagged_inj.1 htext, tagged_inj.1 (List.append_cancel_left h)⟩

namespace Transformation

/-- What is known about a pair cannot be mistaken for something else: it holds no separator, but a
colon, as the description of a link does. -/
def PlainInfo (info : Option String) : Prop := ∀ i ∈ info, '#' ∉ i.toList ∧ ':' ∈ i.toList

/-- A transformation whose feature string can be taken apart, with the relations that its tokens
show. -/
structure Legible (x : Transformation) (ts hs : List String) : Prop where
  /-- What is known about the pair is told from the other fields. -/
  info : PlainInfo x.info?
  /-- The text token shows the relations. -/
  text : Shows x.text? ts
  /-- The hypothesis token shows the relations. -/
  hypothesis : Shows x.hypothesis? hs
  /-- The relations of the text token are told from the other fields. -/
  text_plain : ∀ r ∈ ts, PlainRelation r
  /-- The relations of the hypothesis token are told from the other fields. -/
  hypothesis_plain : ∀ r ∈ hs, PlainRelation r

/-- The name of the type tells the kind. -/
theorem typeName_eq_iff : x.typeName = x'.typeName ↔ x.kind = x'.kind := by
  cases x <;> cases x' <;> simp [typeName, kind]

/-- A description that is not there is not mistaken for one that is. -/
theorem getD_null_inj {info info' : Option String} (h : PlainInfo info) (h' : PlainInfo info')
    (heq : info.getD "null" = info'.getD "null") : info = info' := by
  have hnull : ':' ∉ "null".toList := by decide
  cases info with
  | none =>
      cases info' with
      | none => rfl
      | some i' =>
          obtain rfl : "null" = i' := heq
          exact absurd (h' _ rfl).2 hnull
  | some i =>
      cases info' with
      | none =>
          obtain rfl : i = "null" := heq
          exact absurd (h _ rfl).2 hnull
      | some i' => exact congrArg some heq

/-- Transformations of one kind tell what is known about their pairs by one field, if by any. -/
theorem infoFields_inj (hx : PlainInfo x.info?) (hx' : PlainInfo x'.info?)
    (hkind : x.kind = x'.kind) (h : x.infoFields = x'.infoFields) : x.info? = x'.info? := by
  have hpair {info info' : Option String} (hi : PlainInfo info) (hi' : PlainInfo info')
      (heq : ["Info:" ++ info.getD "null"] = ["Info:" ++ info'.getD "null"]) : info = info' :=
    getD_null_inj hi hi' ((String.append_right_inj _).1 (List.cons.inj heq).1)
  cases x <;> cases x' <;> cases hkind
  case matched.matched => exact hpair hx hx' h
  case replaced.replaced => exact hpair hx hx' h
  case inserted.inserted => rfl
  case deleted.deleted => rfl

/-- The fields of a feature string tell the kind, what is known about the pair, and the relations of
the two tokens, and they tell nothing else. -/
theorem Legible.fields_eq_iff (hx : x.Legible ts hs) (hx' : x'.Legible ts' hs') :
    x.fields ts hs = x'.fields ts' hs' ↔
      x.kind = x'.kind ∧ x.info? = x'.info? ∧ ts = ts' ∧ hs = hs' := by
  constructor
  · intro h
    obtain ⟨hname, hrest⟩ := List.cons.inj h
    have hkind := typeName_eq_iff.1 ((String.append_right_inj _).1 hname)
    have hlength : x.infoFields.length = x'.infoFields.length := by
      cases x <;> cases x' <;> cases hkind <;> rfl
    obtain ⟨hinfo, hrelations⟩ := List.append_inj hrest hlength
    obtain ⟨rfl, rfl⟩ := relationFields_inj hx.text_plain hx'.text_plain hrelations
    exact ⟨hkind, infoFields_inj hx.info hx'.info hkind hinfo, rfl, rfl⟩
  · rintro ⟨hkind, hinfo, rfl, rfl⟩
    have hinfoFields : x.infoFields = x'.infoFields := by
      cases x <;> cases x' <;> cases hkind <;> cases hinfo <;> rfl
    rw [fields, fields, typeName_eq_iff.2 hkind, hinfoFields]

/-- No field holds a separator. -/
theorem Legible.separator_not_mem_fields (hx : x.Legible ts hs) :
    ∀ field ∈ x.fields ts hs, '#' ∉ field.toList := by
  have hname : '#' ∉ ("Type:" ++ x.typeName).toList := by
    cases x <;> simp [typeName]
  have hpair {info : Option String} (hinfo : PlainInfo info) :
      ∀ field ∈ ["Info:" ++ info.getD "null"], '#' ∉ field.toList := by
    rw [List.forall_mem_singleton, String.toList_append, List.mem_append, not_or]
    cases info with
    | none => exact ⟨by decide, by decide⟩
    | some i => exact ⟨by decide, (hinfo i rfl).1⟩
  have hinfo : ∀ field ∈ x.infoFields, '#' ∉ field.toList := by
    cases x with
    | matched info t h => exact hpair hx.info
    | replaced judgment info t h => exact hpair hx.info
    | inserted h => exact List.forall_mem_nil _
    | deleted t => exact List.forall_mem_nil _
  rw [fields, List.forall_mem_cons, relationFields, List.forall_mem_append, List.forall_mem_append]
  exact ⟨hname, hinfo, separator_not_mem_tagged (by decide) hx.text_plain,
    separator_not_mem_tagged (by decide) hx.hypothesis_plain⟩

/-- Transformations have the same feature string exactly if they have the same kind, the same is
known about their pairs, and their tokens show the same relations. -/
theorem Legible.feature_eq_iff (hx : x.Legible ts hs) (hx' : x'.Legible ts' hs') :
    x.feature = x'.feature ↔ x.kind = x'.kind ∧ x.info? = x'.info? ∧ ts = ts' ∧ hs = hs' := by
  rw [← hx.fields_eq_iff hx', feature_eq_joinWith hx.text hx.hypothesis,
    feature_eq_joinWith hx'.text hx'.hypothesis]
  refine ⟨fun h => ?_, congrArg _⟩
  exact Text.joinWith_inj (by decide) hx.separator_not_mem_fields hx'.separator_not_mem_fields
    (List.cons_ne_nil _ _) (List.cons_ne_nil _ _) h

end Transformation

/-! ## Transformations of edits -/

/-- The relations from a node up to its root. -/
def Tree.relationsUp (t : Tree) (node : Nat) : List String := (t.ancestry node).map t.relation

namespace Operation

/-- The relations from the text node of an edit up to its root. There are none if the edit is not
about a text node. -/
def textRelations (t : Tree) (e : Operation) : List String := e.textNode?.elim [] t.relationsUp

/-- The relations from the hypothesis node of an edit up to its root. There are none if the edit is
not about a hypothesis node. -/
def hypothesisRelations (h : Tree) (e : Operation) : List String :=
  e.hypothesisNode?.elim [] h.relationsUp

end Operation

/-- Two trees and what is known about their tokens, with relations and links whose texts are told
from the other fields of a feature string. -/
structure PlainPair (a : Aligner) (t h : Tree) : Prop where
  /-- The relations of the text. -/
  text : ∀ y ∈ t.given, PlainRelation y.relation
  /-- The relations of the hypothesis. -/
  hypothesis : ∀ z ∈ h.given, PlainRelation z.relation
  /-- The links. -/
  info : ∀ key link, a.table.get? key = some link → '#' ∉ link.info.toList

variable {a a' : Aligner} {t h t' h' : Tree} {node : Nat} {y z : Token} {link : Link}

/-- The token of a node shows the relations from the node up to its root. -/
theorem Transformation.shows_of_token? (hy : t.token? node = some y) :
    Shows (some y) (t.relationsUp node) := by
  obtain ⟨y, hgiven, rfl⟩ := Option.map_eq_some_iff.1 hy
  have hnode : node < t.size := by
    rw [Tree.size, t.length_parents]
    exact (List.getElem?_eq_some_iff.1 hgiven).1
  exact ⟨mt List.map_eq_nil_iff.1 (Tree.ancestry_ne_nil hnode), rfl⟩

/-- On the way up from a node all relations are plain, if those of the tokens are. -/
theorem plainRelation_of_mem_relationsUp (ht : ∀ y ∈ t.given, PlainRelation y.relation) :
    ∀ r ∈ t.relationsUp node, PlainRelation r := by
  rw [Tree.relationsUp, List.forall_mem_map]
  intro i _
  rw [Tree.relation]
  cases hy : t.given[i]? with
  | none => exact ⟨by decide, by decide⟩
  | some y => exact ht y (List.mem_of_getElem? hy)

/-- The description of a link has a colon between its info and its direction. -/
theorem Link.plainInfo_describe (link : Link) (h : '#' ∉ link.info.toList) :
    Transformation.PlainInfo (some link.describe) := by
  rintro _ ⟨⟩
  rw [describe]
  cases link.direction <;> simp [Direction.name, h]

/-- What is known about a pair is the description of a link, if anything. -/
theorem Aligner.plainInfo_classify {c : LocalAlignment}
    (ha : ∀ key link, a.table.get? key = some link → '#' ∉ link.info.toList)
    (hc : a.classify y z = some c) : Transformation.PlainInfo c.info := by
  rw [classify] at hc
  split_ifs at hc
  · cases hc
    rintro _ ⟨⟩
  · obtain ⟨link, hlink, rfl⟩ := Option.map_eq_some_iff.1 hc
    rcases Option.or_eq_some_iff.1 hlink with hlink | ⟨-, hlink⟩
    · exact link.plainInfo_describe (ha _ link hlink)
    · exact link.plainInfo_describe (ha _ link hlink)

namespace Transformation

/-- A transformation of an edit of a script. -/
structure Extracted (a : Aligner) (t h : Tree) (s : EditScript) (e : Operation)
    (x : Transformation) : Prop where
  /-- The edit is one of the script. -/
  mem : e ∈ s.operations
  /-- The transformation is that of the edit. -/
  eq : ofOperation? a t h e = some x

variable {s s' : EditScript} {e e' : Operation}

/-- The transformations of a script are those of its edits. -/
theorem mem_ofScript_iff : x ∈ ofScript a t h s ↔ ∃ e, Extracted a t h s e x :=
  List.mem_filterMap.trans (exists_congr fun _ => ⟨fun hx => ⟨hx.1, hx.2⟩, fun hx => ⟨hx.1, hx.2⟩⟩)

/-- What is known about a pair goes into its transformation. -/
theorem info?_ofPair (a : Aligner) (y z : Token) :
    (ofPair a y z).info? = (a.classify y z).bind LocalAlignment.info := by
  rw [ofPair]
  split <;> simp [info?, *]

/-- The transformation of an edit shows the relations of the nodes of the edit. -/
theorem Extracted.legible (hplain : PlainPair a t h) (hx : Extracted a t h s e x) :
    x.Legible (e.textRelations t) (e.hypothesisRelations h) := by
  have heq := hx.eq
  cases e with
  | replace i j =>
      obtain ⟨y, hy, heq⟩ := Option.bind_eq_some_iff.1 heq
      obtain ⟨z, hz, rfl⟩ := Option.map_eq_some_iff.1 heq
      exact {
        info := by
          rw [info?_ofPair]
          intro i hi
          obtain ⟨c, hc, hi⟩ := Option.bind_eq_some_iff.1 hi
          exact a.plainInfo_classify hplain.info hc i hi
        text := text?_ofPair a y z ▸ shows_of_token? hy
        hypothesis := hypothesis?_ofPair a y z ▸ shows_of_token? hz
        text_plain := plainRelation_of_mem_relationsUp hplain.text
        hypothesis_plain := plainRelation_of_mem_relationsUp hplain.hypothesis }
  | insert j =>
      obtain ⟨z, hz, rfl⟩ := Option.map_eq_some_iff.1 heq
      exact {
        info := fun i hi => by cases hi
        text := rfl
        hypothesis := shows_of_token? hz
        text_plain := List.forall_mem_nil _
        hypothesis_plain := plainRelation_of_mem_relationsUp hplain.hypothesis }
  | delete i =>
      obtain ⟨y, hy, rfl⟩ := Option.map_eq_some_iff.1 heq
      exact {
        info := fun i hi => by cases hi
        text := shows_of_token? hy
        hypothesis := rfl
        text_plain := plainRelation_of_mem_relationsUp hplain.text
        hypothesis_plain := List.forall_mem_nil _ }

end Transformation

open Transformation in
/-- Where no relation and no info of a link holds a separator, and no relation begins like the tag
of the hypothesis token, a feature string tells what it is made of. Two transformations have the
same feature string, with all kinds enabled, exactly if they are of the same kind, the same is known
about their pairs, and the relations from their tokens up to the roots are the same. -/
theorem feature_tells_relations {s s' : EditScript} {e e' : Operation}
    (hplain : PlainPair a t h) (hplain' : PlainPair a' t' h')
    (hx : Extracted a t h s e x) (hx' : Extracted a' t' h' s' e' x') :
    x.feature? .all = x'.feature? .all ↔
      x.kind = x'.kind ∧ x.info? = x'.info? ∧ e.textRelations t = e'.textRelations t' ∧
        e.hypothesisRelations h = e'.hypothesisRelations h' := by
  rw [feature?, feature?, if_pos (Kinds.all_has _), if_pos (Kinds.all_has _), Option.some.injEq]
  exact (hx.legible hplain).feature_eq_iff (hx'.legible hplain')

/-- The pair of `Tigers` and `Cats` has the same feature string in both directions. -/
theorem feature_tells_relations_subjects :
    let a : Aligner := ⟨.empty, .empty⟩
    let s : EditScript := ⟨[.replace 0 0]⟩
    ∃ t h x x', Tree.ofFragment Tree.tigersRun = .ok t ∧ Tree.ofFragment Tree.catsRunFast = .ok h ∧
      PlainPair a t h ∧ PlainPair a h t ∧
      Transformation.Extracted a t h s (.replace 0 0) x ∧
      Transformation.Extracted a h t s (.replace 0 0) x' ∧
      x.feature? .all = x'.feature? .all ∧ x.kind = x'.kind ∧
      (Operation.replace 0 0).textRelations t = (Operation.replace 0 0).textRelations h := by
  intro a s
  let y := (Token.make 0 "Tigers" "tiger" "NNS" (some 1) "nsubj").withPath "nsubj#ROOT"
  let z := (Token.make 0 "Cats" "cat" "NNS" (some 1) "nsubj").withPath "nsubj#ROOT"
  obtain ⟨t, ht, hgiven, hy⟩ : ∃ t, Tree.ofFragment Tree.tigersRun = .ok t ∧
      t.given = Tree.tigersRun ∧ t.token? 0 = some y := ⟨_, rfl, rfl, rfl⟩
  obtain ⟨h, hh, hgiven', hz⟩ : ∃ h, Tree.ofFragment Tree.catsRunFast = .ok h ∧
      h.given = Tree.catsRunFast ∧ h.token? 0 = some z := ⟨_, rfl, rfl, rfl⟩
  have hinfo : ∀ key link, a.table.get? key = some link → '#' ∉ link.info.toList :=
    fun key link hlink => by cases hlink
  have hplain : PlainPair a t h := ⟨by rw [hgiven]; decide, by rw [hgiven']; decide, hinfo⟩
  have hplain' : PlainPair a h t := ⟨by rw [hgiven']; decide, by rw [hgiven]; decide, hinfo⟩
  have hx : Transformation.Extracted a t h s (.replace 0 0) (.replaced none none y z) :=
    ⟨by decide, by rw [Transformation.ofOperation?, hy, hz]; decide⟩
  have hx' : Transformation.Extracted a h t s (.replace 0 0) (.replaced none none z y) :=
    ⟨by decide, by rw [Transformation.ofOperation?, hy, hz]; decide⟩
  have hfeature : (Transformation.replaced none none y z).feature? .all =
      (Transformation.replaced none none z y).feature? .all := by decide
  obtain ⟨hkind, -, htext, -⟩ := (feature_tells_relations hplain hplain' hx hx').1 hfeature
  exact ⟨t, h, _, _, ht, hh, hplain, hplain', hx, hx', hfeature, hkind, htext⟩

end Entailment
