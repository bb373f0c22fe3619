import XsdSynthesis.Proofs.Reading

/-!
# XsdSynthesis.Proofs.Grammar

The grammar of schema documents. `Json.IsSchema` says which values are schemas, and
`Keyword.Denotes` which keyword a member of a schema object stands for; neither knows of places or of
problems. A value is read just where the grammar accepts it (`isSchema_iff`), and as the grammar says
(`ofJson?_ok`). Both go by induction on the parts of the parts of a value, since the subschemas of a
schema are two steps below it.
-/

namespace XsdSynthesis

namespace Json

/-! ## Parts of values -/

/-- An object holds the values of its members, and an array its items. -/
inductive Holds : Json → Json → Prop where
  | member {members : List (String × Json)} {name : String} {u : Json} :
      (name, u) ∈ members → Holds (.obj members) u
  | item {items : List Json} {u : Json} : u ∈ items → Holds (.arr items) u

theorem Holds.sizeOf_lt {j u : Json} (h : Holds j u) : sizeOf u < sizeOf j := by
  cases h with
  | member hm =>
    have hlt := List.sizeOf_lt_of_mem hm
    simp only [Prod.mk.sizeOf_spec, obj.sizeOf_spec] at hlt ⊢
    omega
  | item hm =>
    have hlt := List.sizeOf_lt_of_mem hm
    simp only [arr.sizeOf_spec]
    omega

/-- What holds of a value if it holds of the parts of its parts holds of every value. -/
theorem induction_on_parts {motive : Json → Prop}
    (h : ∀ j, (∀ v u, j.Holds v → v.Holds u → motive u) → motive j) (j : Json) : motive j :=
  h j fun _ _ hv hu =>
    have := hv.sizeOf_lt
    have := hu.sizeOf_lt
    induction_on_parts h _
termination_by sizeOf j
decreasing_by omega

/-! ## The grammar -/

mutual

/-- The values that are schemas: `true`, and objects whose members fit their names. -/
inductive IsSchema : Json → Prop where
  | empty : IsSchema (.bool true)
  | obj {members : List (String × Json)} : (∀ m ∈ members, Fits m.1 m.2) →
      IsSchema (.obj members)

/-- The values that fit a keyword: objects or arrays of schemas, or leaves. -/
inductive Fits : String → Json → Prop where
  | entries {name : String} {members : List (String × Json)} : name ∈ Spelling.ofEntries →
      (∀ m ∈ members, IsSchema m.2) → Fits name (.obj members)
  | branches {name : String} {items : List Json} : name ∈ Spelling.ofBranches →
      (∀ j ∈ items, IsSchema j) → Fits name (.arr items)
  | leaf {name : String} {j : Json} {k : Keyword} : Keyword.Leaf name j k → Fits name j

end

end Json

open Json Schema

/-- A named subschema is what the member of that name is read as. -/
def Schema.EntryReads (m : String × Json) (e : String × Schema) : Prop :=
  e.1 = m.1 ∧ ofJson? m.2 = .ok e.2

/-- The keyword that a member of a schema object stands for. -/
inductive Keyword.Denotes : String → Json → Keyword → Prop where
  | definitions {c : Container} {members : List (String × Json)}
      {entries : List (String × Schema)} : List.Forall₂ EntryReads members entries →
      Denotes c.name (.obj members) (.definitions c entries)
  | properties {members : List (String × Json)} {entries : List (String × Schema)} :
      List.Forall₂ EntryReads members entries →
      Denotes "properties" (.obj members) (.properties entries)
  | combinator {c : Combinator} {items : List Json} {branches : List Schema} :
      List.Forall₂ (fun j t => ofJson? j = .ok t) items branches →
      Denotes c.name (.arr items) (.combinator c branches)
  | leaf {name : String} {j : Json} {k : Keyword} : Leaf name j k → Denotes name j k

theorem Keyword.Denotes.name_eq {name : String} {j : Json} {k : Keyword}
    (h : Keyword.Denotes name j k) : k.name = name := by
  cases h with
  | leaf hleaf => exact hleaf.name_eq
  | _ => rfl

namespace Schema

/-! ## Reading without places -/

variable {p : Pointer} {name : String} {j : Json} {k : Keyword}

section Placeless

/-- What is read from a value does not depend on its place. -/
def Placeless (j : Json) : Prop := ∀ p t, readAt p j = .ok t ↔ ofJson? j = .ok t

theorem readEntries_placeless {members : List (String × Json)} {entries : List (String × Schema)}
    (h : ∀ m ∈ members, Placeless m.2) :
    readEntries p members = .ok entries ↔ List.Forall₂ EntryReads members entries := by
  rw [readEntries_ok]
  exact Tables.forall₂_congr fun m hm e => and_congr_right fun _ => h m hm _ _

theorem readBranches_placeless {items : List Json} {branches : List Schema} {index : Nat}
    (h : ∀ j ∈ items, Placeless j) :
    readBranches p index items = .ok branches ↔
      List.Forall₂ (fun j t => ofJson? j = .ok t) items branches := by
  have hitems : (items.zipIdx index).map Prod.fst = items := List.zipIdx_map_fst index items
  have hmap : List.Forall₂ (fun j t => ofJson? j = .ok t) ((items.zipIdx index).map Prod.fst)
      branches ↔ List.Forall₂ (fun e t => ofJson? e.1 = .ok t) (items.zipIdx index) branches :=
    List.forall₂_map_left_iff
  rw [hitems] at hmap
  rw [hmap, readBranches_eq, Checks.mapM_ok]
  exact Tables.forall₂_congr fun e he t => h e.1 (List.fst_mem_of_mem_zipIdx he) _ t

theorem payload_container (c : Container) :
    Keyword.payload c.name = .entries (.definitions c) := by
  cases c <;> rfl

theorem payload_combinator (c : Combinator) :
    Keyword.payload c.name = .branches (.combinator c) := by
  cases c <;> rfl

theorem readKeyword_placeless (h : ∀ u, j.Holds u → Placeless u) :
    readKeyword p name j = .ok k ↔ Keyword.Denotes name j k := by
  constructor
  · intro hread
    have hreads := Keyword.reads_payload name
    unfold readKeyword at hread
    split at hread
    · rename_i make members hmake
      obtain ⟨entries, he, hk⟩ := Checks.bind_ok.1 hread
      cases Checks.pure_ok.1 hk
      have hentries := (readEntries_placeless fun m hm => h _ (.member hm)).1 he
      rw [hmake] at hreads
      cases hreads with
      | definitions hname => exact hname ▸ .definitions hentries
      | properties hname => exact hname ▸ .properties hentries
    · cases hread
    · rename_i make items hmake
      obtain ⟨branches, hb, hk⟩ := Checks.bind_ok.1 hread
      cases Checks.pure_ok.1 hk
      have hbranches := (readBranches_placeless fun u hu => h _ (.item hu)).1 hb
      rw [hmake] at hreads
      cases hreads with
      | combinator hname => exact hname ▸ .combinator hbranches
    · cases hread
    · rename_i read hleaf
      rw [hleaf] at hreads
      cases hreads with
      | leaf hsound => exact .leaf (hsound _ _ _ hread)
  · intro hdenotes
    cases hdenotes with
    | @definitions c members entries hentries =>
      unfold readKeyword
      rw [payload_container]
      exact Checks.bind_ok.2 ⟨entries, (readEntries_placeless fun m hm => h _ (.member hm)).2
        hentries, rfl⟩
    | @properties members entries hentries =>
      have hpayload : Keyword.payload "properties" = .entries .properties := rfl
      unfold readKeyword
      rw [hpayload]
      exact Checks.bind_ok.2 ⟨entries, (readEntries_placeless fun m hm => h _ (.member hm)).2
        hentries, rfl⟩
    | @combinator c items branches hbranches =>
      unfold readKeyword
      rw [payload_combinator]
      exact Checks.bind_ok.2 ⟨branches, (readBranches_placeless fun u hu => h _ (.item hu)).2
        hbranches, rfl⟩
    | leaf hleaf =>
      obtain ⟨read, hpayload, hread⟩ := hleaf.read
      unfold readKeyword
      rw [hpayload]
      exact hread p

theorem readAt_obj {members : List (String × Json)} {t : Schema}
    (h : ∀ v u, (Json.obj members).Holds v → v.Holds u → Placeless u) :
    readAt p (.obj members) = .ok t ↔
      List.Forall₂ (fun m k => Keyword.Denotes m.1 m.2 k) members t.keywords := by
  have hmembers : ∀ m ∈ members, ∀ u, m.2.Holds u → Placeless u := fun m hm u hu =>
    h m.2 u (.member hm) hu
  obtain ⟨keywords⟩ := t
  simp only [readAt, Checks.bind_ok, Checks.pure_ok, readKeywords_ok, mk.injEq, keywords_mk,
    exists_eq_right]
  exact Tables.forall₂_congr fun m hm k => readKeyword_placeless (hmembers m hm)

theorem placeless (j : Json) : Placeless j := by
  induction j using Json.induction_on_parts with
  | h j ih =>
    intro p t
    cases j with
    | obj members => exact (readAt_obj ih).trans (readAt_obj ih).symm
    | bool b =>
      cases b with
      | true => exact Iff.rfl
      | false => exact ⟨nofun, nofun⟩
    | _ => exact ⟨nofun, nofun⟩

end Placeless

theorem ofJson?_obj {members : List (String × Json)} {t : Schema} :
    ofJson? (.obj members) = .ok t ↔
      List.Forall₂ (fun m k => Keyword.Denotes m.1 m.2 k) members t.keywords :=
  readAt_obj fun _ u _ _ => placeless u

/-- **What is read**: `true` as the schema without keywords, and an object member by member. -/
theorem ofJson?_ok {t : Schema} :
    ofJson? j = .ok t ↔ (∃ members, j = .obj members ∧
      List.Forall₂ (fun m k => Keyword.Denotes m.1 m.2 k) members t.keywords) ∨
      j = .bool true ∧ t = .mk [] := by
  constructor
  · intro h
    rcases readAt_keywords h with ⟨members, rfl, _⟩ | htrue
    · exact .inl ⟨members, rfl, ofJson?_obj.1 h⟩
    · exact .inr htrue
  · rintro (⟨members, rfl, hall⟩ | ⟨rfl, rfl⟩)
    · exact ofJson?_obj.2 hall
    · rfl

/-! ## Acceptance -/

theorem fits_of_denotes (h : Keyword.Denotes name j k)
    (ih : ∀ u, j.Holds u → (∃ t, ofJson? u = .ok t) → u.IsSchema) : Fits name j := by
  have hentries : ∀ {members : List (String × Json)} {entries : List (String × Schema)},
      j = .obj members → List.Forall₂ EntryReads members entries →
      ∀ m ∈ members, m.2.IsSchema := by
    rintro members entries rfl hall m hm
    obtain ⟨e, _, _, ht⟩ := Tables.exists_of_mem_left hall hm
    exact ih _ (.member hm) ⟨e.2, ht⟩
  cases h with
  | @definitions c members entries hall =>
    exact .entries c.name_mem_ofEntries (hentries rfl hall)
  | properties hall => exact .entries (by decide) (hentries rfl hall)
  | @combinator c items branches hall =>
    refine .branches c.name_mem_ofBranches fun u hu => ?_
    obtain ⟨t, _, ht⟩ := Tables.exists_of_mem_left hall hu
    exact ih u (.item hu) ⟨t, ht⟩
  | leaf hleaf => exact .leaf hleaf

theorem denotes_entries {members : List (String × Json)} {entries : List (String × Schema)}
    (hname : name ∈ Spelling.ofEntries) (hall : List.Forall₂ EntryReads members entries) :
    ∃ k, Keyword.Denotes name (.obj members) k := by
  simp only [Spelling.ofEntries, List.mem_cons, List.not_mem_nil, or_false] at hname
  rcases hname with rfl | rfl | rfl
  · exact ⟨_, .definitions (c := .defs) hall⟩
  · exact ⟨_, .definitions (c := .definitions) hall⟩
  · exact ⟨_, .properties hall⟩

theorem denotes_branches {items : List Json} {branches : List Schema}
    (hname : name ∈ Spelling.ofBranches)
    (hall : List.Forall₂ (fun j t => ofJson? j = .ok t) items branches) :
    ∃ k, Keyword.Denotes name (.arr items) k := by
  simp only [Spelling.ofBranches, List.mem_cons, List.not_mem_nil, or_false] at hname
  rcases hname with rfl | rfl | rfl
  · exact ⟨_, .combinator (c := .oneOf) hall⟩
  · exact ⟨_, .combinator (c := .anyOf) hall⟩
  · exact ⟨_, .combinator (c := .allOf) hall⟩

theorem denotes_of_fits (h : Fits name j)
    (ih : ∀ u, j.Holds u → u.IsSchema → ∃ t, ofJson? u = .ok t) :
    ∃ k, Keyword.Denotes name j k := by
  cases h with
  | @entries name members hname hmembers =>
    obtain ⟨entries, hall⟩ : ∃ entries : List (String × Schema),
        List.Forall₂ EntryReads members entries := by
      refine Tables.exists_forall₂ fun m hm => ?_
      obtain ⟨t, ht⟩ := ih m.2 (.member hm) (hmembers m hm)
      exact ⟨(m.1, t), rfl, ht⟩
    exact denotes_entries hname hall
  | branches hname hitems =>
    obtain ⟨branches, hall⟩ := Tables.exists_forall₂ fun u hu => ih u (.item hu) (hitems u hu)
    exact denotes_branches hname hall
  | leaf hleaf => exact ⟨_, .leaf hleaf⟩

/-- **Reading accepts exactly the grammar.** -/
theorem isSchema_iff (j : Json) : (∃ t, ofJson? j = .ok t) ↔ j.IsSchema := by
  induction j using Json.induction_on_parts with
  | h j ih =>
    constructor
    · rintro ⟨t, ht⟩
      rcases ofJson?_ok.1 ht with ⟨members, rfl, hall⟩ | ⟨rfl, _⟩
      · refine .obj fun m hm => ?_
        obtain ⟨k, _, hk⟩ := Tables.exists_of_mem_left hall hm
        exact fits_of_denotes hk fun u hu => (ih m.2 u (.member hm) hu).1
      · exact .empty
    · intro h
      cases h with
      | empty => exact ⟨_, rfl⟩
      | @obj members hfits =>
        obtain ⟨keywords, hall⟩ := Tables.exists_forall₂ fun m hm =>
          denotes_of_fits (hfits m hm) fun u hu => (ih m.2 u (.member hm) hu).2
        exact ⟨.mk keywords, ofJson?_obj.2 hall⟩

end Schema
end XsdSynthesis
