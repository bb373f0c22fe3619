import XsdSynthesis.Proofs.Payloads
import XsdSynthesis.Proofs.Places

/-!
# XsdSynthesis.Proofs.Reading

Schemas as they are read. A JSON text gives a value in which no object uses a name twice
(`distinct_of_ofText?`). A schema that is read from such a value has every keyword at most once, at
every position, and no properties or definitions of one name (`Position.readFrom`).
-/

namespace XsdSynthesis

open Conversion

namespace Json

/-- No object in a value uses a name twice. -/
inductive Distinct : Json → Prop where
  | null : Distinct .null
  | bool {b : Bool} : Distinct (.bool b)
  | num {n : Number} : Distinct (.num n)
  | str {s : String} : Distinct (.str s)
  | arr {items : List Json} : (∀ j ∈ items, Distinct j) → Distinct (.arr items)
  | obj {members : List (String × Json)} : (members.map Prod.fst).Nodup →
      (∀ m ∈ members, Distinct m.2) → Distinct (.obj members)

theorem Distinct.names {members : List (String × Json)} (h : Distinct (.obj members)) :
    (members.map Prod.fst).Nodup := by
  cases h
  assumption

theorem Distinct.member {members : List (String × Json)} {m : String × Json}
    (h : Distinct (.obj members)) (hm : m ∈ members) : m.2.Distinct := by
  cases h with
  | obj _ hall => exact hall m hm

theorem Distinct.item {items : List Json} {j : Json} (h : Distinct (.arr items))
    (hj : j ∈ items) : j.Distinct := by
  cases h with
  | arr hall => exact hall j hj

mutual

theorem distinct_merged : ∀ j : Json, j.merged.Distinct
  | .null => .null
  | .bool _ => .bool
  | .num _ => .num
  | .str _ => .str
  | .arr items => .arr (distinct_mergedItems items)
  | .obj members => .obj (mergedMembers_nodup members) (distinct_mergedMembers members)

theorem distinct_mergedItems : ∀ items : List Json, ∀ j ∈ mergedItems items, j.Distinct
  | [], j, hj => by cases hj
  | first :: rest, j, hj => by
    rcases List.mem_cons.1 hj with rfl | hj
    · exact distinct_merged first
    · exact distinct_mergedItems rest j hj

theorem distinct_mergedMembers :
    ∀ members : List (String × Json), ∀ m ∈ mergedMembers members, m.2.Distinct
  | [], m, hm => by cases hm
  | (name, first) :: rest, m, hm => by
    have hrest := distinct_mergedMembers rest
    rcases List.mem_cons.1 hm with rfl | hm
    · cases hl : (mergedMembers rest).lookup name with
      | none => exact distinct_merged first
      | some j => exact hrest (name, j) (Tables.mem_of_lookup hl)
    · exact hrest m (List.mem_filter.1 hm).1

end

theorem distinct_of_merged {j : Json} (h : j.merged = j) : j.Distinct := h ▸ distinct_merged j

/-- **A text gives a value with distinct names.** -/
theorem distinct_of_ofText? {text : String} {j : Json} (h : ofText? text = some j) :
    j.Distinct := by
  obtain ⟨written, _, rfl⟩ := Option.map_eq_some_iff.1 h
  exact distinct_merged written

end Json

/-! ## Keywords by their spelling -/

namespace Schema

variable {p : Pointer} {name : String} {j : Json} {k : Keyword}

theorem readEntries_eq (members : List (String × Json)) :
    readEntries p members =
      members.mapM fun m => do return (m.1, ← readAt (p.child m.1) m.2) := by
  induction members with
  | nil => rfl
  | cons m rest ih => simp only [readEntries, List.mapM_cons, ih, bind_assoc, pure_bind]

theorem readKeywords_eq (members : List (String × Json)) :
    readKeywords p members = members.mapM fun m => readKeyword (p.child m.1) m.1 m.2 := by
  induction members with
  | nil => rfl
  | cons m rest ih => simp only [readKeywords, List.mapM_cons, ih]

theorem readBranches_eq (items : List Json) (index : Nat) :
    readBranches p index items =
      (items.zipIdx index).mapM fun e => readAt (p.child (toString e.2)) e.1 := by
  induction items generalizing index with
  | nil => rfl
  | cons j rest ih => simp only [readBranches, List.zipIdx_cons, List.mapM_cons, ih]

theorem readEntries_ok {members : List (String × Json)} {entries : List (String × Schema)} :
    readEntries p members = .ok entries ↔
      List.Forall₂ (fun m e => e.1 = m.1 ∧ readAt (p.child m.1) m.2 = .ok e.2) members entries := by
  rw [readEntries_eq, Checks.mapM_ok]
  refine Tables.forall₂_congr fun m _ e => ?_
  obtain ⟨name, t⟩ := e
  simp only [Checks.bind_ok, Checks.pure_ok, Prod.mk.injEq]
  constructor
  · rintro ⟨_, ht, rfl, rfl⟩
    exact ⟨rfl, ht⟩
  · rintro ⟨rfl, ht⟩
    exact ⟨t, ht, rfl, rfl⟩

theorem readKeywords_ok {members : List (String × Json)} {keywords : List Keyword} :
    readKeywords p members = .ok keywords ↔
      List.Forall₂ (fun m k => readKeyword (p.child m.1) m.1 m.2 = .ok k) members keywords := by
  rw [readKeywords_eq, Checks.mapM_ok]

/-- What a keyword was read from: its spelling, and the object behind its named subschemas. -/
structure KeywordRead (p : Pointer) (name : String) (j : Json) (k : Keyword) : Prop where
  name : k.name = name
  properties : ∀ entries, k = .properties entries →
    ∃ members, j = .obj members ∧ readEntries p members = .ok entries
  definitions : ∀ c entries, k = .definitions c entries →
    ∃ members, j = .obj members ∧ readEntries p members = .ok entries
  attributes : ∀ attributes, k = .documentAttributes attributes →
    ∃ members, j = .obj members ∧ attributes.map Prod.fst = members.map Prod.fst

theorem readKeyword_ok (h : readKeyword p name j = .ok k) : KeywordRead p name j k := by
  have hreads := Keyword.reads_payload name
  unfold readKeyword at h
  split at h
  · rename_i make members hmake
    obtain ⟨entries, he, h⟩ := Checks.bind_ok.1 h
    cases h
    rw [hmake] at hreads
    cases hreads with
    | definitions hname => exact ⟨hname.symm, nofun, by rintro _ _ ⟨⟩; exact ⟨_, rfl, he⟩, nofun⟩
    | properties hname => exact ⟨hname.symm, by rintro _ ⟨⟩; exact ⟨_, rfl, he⟩, nofun, nofun⟩
  · cases h
  · rename_i make items hmake
    obtain ⟨branches, he, h⟩ := Checks.bind_ok.1 h
    cases h
    rw [hmake] at hreads
    cases hreads with
    | combinator hname => exact ⟨hname.symm, nofun, nofun, nofun⟩
  · cases h
  · rename_i read hread
    rw [hread] at hreads
    cases hreads with
    | leaf hleaf =>
      have hk := hleaf p _ k h
      refine ⟨hk.name_eq, ?_, ?_, ?_⟩
      · rintro _ rfl
        exact absurd rfl hk.kind_ne_properties
      · rintro c _ rfl
        exact absurd rfl (hk.kind_ne_definitions c)
      · rintro attributes rfl
        cases hk
        exact ⟨_, rfl, by simp⟩

theorem readAt_keywords {t : Schema} (h : readAt p j = .ok t) :
    (∃ members, j = .obj members ∧
      List.Forall₂ (fun m k => readKeyword (p.child m.1) m.1 m.2 = .ok k) members t.keywords) ∨
      j = .bool true ∧ t = .mk [] := by
  cases j with
  | obj members =>
    simp only [readAt] at h
    obtain ⟨keywords, hk, h⟩ := Checks.bind_ok.1 h
    cases h
    exact .inl ⟨members, rfl, readKeywords_ok.1 hk⟩
  | bool b =>
    cases b with
    | true =>
      cases h
      exact .inr ⟨rfl, rfl⟩
    | false => cases h
  | _ => cases h

theorem readAt_ok {t : Schema} (h : readAt p j = .ok t) :
    (∃ members, j = .obj members ∧
      List.Forall₂ (fun m k => KeywordRead (p.child m.1) m.1 m.2 k) members t.keywords) ∨
      t.keywords = [] := by
  rcases readAt_keywords h with ⟨members, rfl, hall⟩ | ⟨_, rfl⟩
  · exact .inl ⟨members, rfl, hall.imp fun _ _ => readKeyword_ok⟩
  · exact .inr rfl

theorem readKeyword_namespaces {bindings : List (String × String)}
    (h : readKeyword p name j = .ok (.namespaces bindings)) :
    ∃ members, j = .obj members ∧ bindings.map Prod.fst = members.map Prod.fst := by
  have hname : Spelling.namespaces = name := (readKeyword_ok h).name
  subst hname
  have hpayload : Keyword.payload Spelling.namespaces =
      .leaf fun p j => return .namespaces (← Keyword.stringMap? p j) := rfl
  unfold readKeyword at h
  rw [hpayload] at h
  obtain ⟨read, hread, h⟩ := Checks.bind_ok.1 h
  cases Checks.pure_ok.1 h
  exact ⟨_, Keyword.stringMap?_ok.1 hread, by simp⟩

/-- A schema is read from a value in which no object uses a name twice. -/
def IsRead (t : Schema) : Prop := ∃ p j, Json.Distinct j ∧ readAt p j = .ok t

namespace IsRead

variable {t : Schema} {entries : List (String × Schema)}

theorem source (h : t.IsRead) (hk : k ∈ t.keywords) :
    ∃ p name j, Json.Distinct j ∧ KeywordRead p name j k := by
  obtain ⟨p, j, hj, hread⟩ := h
  rcases readAt_ok hread with ⟨members, rfl, hall⟩ | hnil
  · obtain ⟨m, hm, hk⟩ := Tables.exists_of_mem_right hall hk
    exact ⟨_, _, _, hj.member hm, hk⟩
  · rw [hnil] at hk
    cases hk

theorem names (h : t.IsRead) : (t.keywords.map Keyword.name).Nodup := by
  obtain ⟨p, j, hj, hread⟩ := h
  rcases readAt_ok hread with ⟨members, rfl, hall⟩ | hnil
  · have hsame : t.keywords.map Keyword.name = members.map Prod.fst :=
      Tables.map_eq_map hall fun _ _ hk => hk.name
    rw [hsame]
    exact hj.names
  · rw [hnil]
    exact .nil

theorem entries_ok {p : Pointer} {j : Json} (hj : Json.Distinct j)
    (h : ∃ members, j = .obj members ∧ readEntries p members = .ok entries) :
    (entries.map Prod.fst).Nodup ∧ ∀ e ∈ entries, e.2.IsRead := by
  obtain ⟨members, rfl, hread⟩ := h
  have hall := readEntries_ok.1 hread
  constructor
  · have hsame : entries.map Prod.fst = members.map Prod.fst :=
      Tables.map_eq_map hall fun _ _ he => he.1
    rw [hsame]
    exact hj.names
  · intro e he
    obtain ⟨m, hm, _, hread⟩ := Tables.exists_of_mem_right hall he
    exact ⟨_, _, hj.member hm, hread⟩

theorem properties (h : t.IsRead) (hk : .properties entries ∈ t.keywords) :
    (entries.map Prod.fst).Nodup ∧ ∀ e ∈ entries, e.2.IsRead := by
  obtain ⟨p, name, j, hj, hread⟩ := h.source hk
  exact entries_ok hj (hread.properties entries rfl)

theorem definitions (h : t.IsRead) {c : Container} (hk : .definitions c entries ∈ t.keywords) :
    (entries.map Prod.fst).Nodup ∧ ∀ e ∈ entries, e.2.IsRead := by
  obtain ⟨p, name, j, hj, hread⟩ := h.source hk
  exact entries_ok hj (hread.definitions c entries rfl)

theorem namespaces (h : t.IsRead) {bindings : List (String × String)}
    (hk : .namespaces bindings ∈ t.keywords) : (bindings.map Prod.fst).Nodup := by
  obtain ⟨p, j, hj, hread⟩ := h
  rcases readAt_keywords hread with ⟨members, rfl, hall⟩ | ⟨_, rfl⟩
  · obtain ⟨m, hm, hk⟩ := Tables.exists_of_mem_right hall hk
    obtain ⟨names, hobj, hsame⟩ := readKeyword_namespaces hk
    rw [hsame]
    exact (hobj ▸ hj.member hm).names
  · cases hk

theorem attributes (h : t.IsRead) {attributes : List (String × String)}
    (hk : .documentAttributes attributes ∈ t.keywords) : (attributes.map Prod.fst).Nodup := by
  obtain ⟨p, name, j, hj, hread⟩ := h.source hk
  obtain ⟨members, rfl, hsame⟩ := hread.attributes attributes rfl
  rw [hsame]
  exact hj.names

end IsRead
end Schema

theorem isRead_property {t : Schema} {e : String × Schema} (h : t.IsRead) (he : e ∈ t.properties) :
    e.2.IsRead := by
  obtain ⟨entries, hk, hm⟩ := Schema.mem_properties he
  exact (h.properties hk).2 e hm

theorem isRead_definition {t : Schema} {c : Container} {e : String × Schema} (h : t.IsRead)
    (he : e ∈ t.definitions c) : e.2.IsRead := by
  obtain ⟨entries, hk, hm⟩ := Schema.mem_definitions he
  exact (h.definitions hk).2 e hm

/-! ## Keywords by their kind -/

def Kind.spelling? : Kind → Option String
  | .schema => some "$schema"
  | .id => some "$id"
  | .type => some "type"
  | .definitions c => some c.name
  | .info => some "info"
  | .combinator c => some c.name
  | .properties => some "properties"
  | .required => some "required"
  | .ref => some "$ref"
  | .namespaces => some Spelling.namespaces
  | .documentAttributes => some Spelling.documentAttributes
  | .asAttribute => some Spelling.asAttribute
  | .unknown => none

theorem spelling?_kind {k : Keyword} (h : k.kind ≠ .unknown) : k.kind.spelling? = some k.name := by
  cases k with
  | unknown name value => exact absurd rfl h
  | _ => rfl

theorem name_eq_of_kind_eq {k k' : Keyword} (h : k.kind ≠ .unknown) (hk : k'.kind = k.kind) :
    k'.name = k.name := by
  have hs := spelling?_kind h
  rw [← hk, spelling?_kind (hk ▸ h)] at hs
  exact Option.some.inj hs

theorem eq_of_name_eq {ks : List Keyword} {k k' : Keyword} (h : (ks.map Keyword.name).Nodup)
    (hk : k ∈ ks) (hk' : k' ∈ ks) (hn : k.name = k'.name) : k = k' :=
  List.inj_on_of_nodup_map h hk hk' hn

namespace Schema.IsRead

variable {t : Schema} {k : Keyword} {entries : List (String × Schema)}

/-- A known keyword is the only one of its kind. -/
theorem get? (h : t.IsRead) (hk : k ∈ t.keywords) (hu : k.kind ≠ .unknown) :
    t.get? k.kind = some k := by
  have hsome : (t.get? k.kind).isSome = true := by
    rw [Schema.get?, List.find?_isSome]
    exact ⟨k, hk, beq_self_eq_true _⟩
  obtain ⟨k', hg⟩ := Option.isSome_iff_exists.1 hsome
  obtain ⟨hk', hkind⟩ := mem_of_get? hg
  rw [hg, eq_of_name_eq h.names hk' hk (name_eq_of_kind_eq hu hkind)]

/-- Known keywords are of different kinds. -/
theorem kinds (h : t.IsRead) :
    t.keywords.Pairwise fun k other => k.kind ≠ .unknown → other.kind ≠ k.kind := by
  refine (List.pairwise_map.1 h.names).imp fun {k other} hne hk hsame => hne ?_
  exact (name_eq_of_kind_eq hk hsame).symm

theorem properties_eq (h : t.IsRead) (hk : .properties entries ∈ t.keywords) :
    t.properties = entries := by
  have hg := h.get? hk nofun
  rw [Schema.properties, show t.get? .properties = _ from hg]

theorem definitions_eq (h : t.IsRead) {c : Container} (hk : .definitions c entries ∈ t.keywords) :
    t.definitions c = entries := by
  have hg := h.get? hk nofun
  rw [Schema.definitions, show t.get? (.definitions c) = _ from hg]

theorem types?_eq (h : t.IsRead) {types : List ValueType} (hk : .type types ∈ t.keywords) :
    t.types? = some types := by
  have hg := h.get? hk nofun
  rw [Schema.types?, show t.get? .type = _ from hg]

theorem reference?_eq (h : t.IsRead) {r : String} (hk : .ref r ∈ t.keywords) :
    t.reference? = some r := by
  have hg := h.get? hk nofun
  rw [Schema.reference?, show t.get? .ref = _ from hg]

theorem requiredNames_eq (h : t.IsRead) {names : List String} (hk : .required names ∈ t.keywords) :
    t.requiredNames = names := by
  have hg := h.get? hk nofun
  rw [Schema.requiredNames, show t.get? .required = _ from hg]

theorem asksAttribute_eq (h : t.IsRead) {flag : Bool} (hk : .asAttribute flag ∈ t.keywords) :
    t.asksAttribute = flag := by
  have hg := h.get? hk nofun
  rw [Schema.asksAttribute, show t.get? .asAttribute = _ from hg]

theorem properties_nodup (h : t.IsRead) : (t.properties.map Prod.fst).Nodup := by
  unfold Schema.properties
  split
  · rename_i entries hg
    exact (h.properties (mem_of_get? hg).1).1
  · exact .nil

theorem definitions_nodup (h : t.IsRead) (c : Container) :
    ((t.definitions c).map Prod.fst).Nodup := by
  unfold Schema.definitions
  split
  · rename_i entries hg
    exact (h.definitions (mem_of_get? hg).1).1
  · exact .nil

end Schema.IsRead

/-! ## Positions -/

theorem Position.isRead {s t : Schema} {p : Pointer} (hs : s.IsRead) (h : Position s p t) :
    t.IsRead := by
  induction h with
  | root => exact hs
  | definition hk he => exact (hs.definitions hk).2 _ he
  | property _ hk he ih => exact (ih.properties hk).2 _ he

/-- **A place holds one subschema**, by induction on how it is reached. -/
theorem Position.unique {s t u : Schema} {p : Pointer} (hs : s.IsRead) (h : Position s p t)
    (h' : Position s p u) : t = u := by
  induction h generalizing u with
  | root =>
    generalize hp : Pointer.root = q at h'
    cases h' with
    | root => rfl
    | definition _ _ => exact absurd hp.symm (definitionPlace_ne_root _ _)
    | property _ _ _ => exact absurd hp.symm (propertyPlace_ne_root _ _)
  | @definition c entries name t hk he =>
    generalize hp : definitionPlace c name = q at h'
    cases h' with
    | root => exact absurd hp (definitionPlace_ne_root _ _)
    | definition hk' he' =>
      obtain ⟨rfl, rfl⟩ := definitionPlace_inj hp
      cases (hs.definitions_eq hk).symm.trans (hs.definitions_eq hk')
      exact Tables.eq_of_mem (hs.definitions hk).1 he he'
    | property _ _ _ => exact absurd hp (definitionPlace_ne_propertyPlace _ _ _ _)
  | @property p t u entries name hparent hk he ih =>
    generalize hp : propertyPlace p name = q at h'
    cases h' with
    | root => exact absurd hp (propertyPlace_ne_root _ _)
    | definition _ _ => exact absurd hp.symm (definitionPlace_ne_propertyPlace _ _ _ _)
    | property hparent' hk' he' =>
      obtain ⟨rfl, rfl⟩ := propertyPlace_inj hp
      cases ih hparent'
      have ht := hparent.isRead hs
      cases (ht.properties_eq hk).symm.trans (ht.properties_eq hk')
      exact Tables.eq_of_mem (ht.properties hk).1 he he'

end XsdSynthesis
