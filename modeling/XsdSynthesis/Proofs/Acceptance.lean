import XsdSynthesis.Proofs.Completeness
import XsdSynthesis.Proofs.Kept

/-!
# XsdSynthesis.Proofs.Acceptance

The subschemas that can be synthesized. `Accepted` is their grammar, keyword by keyword; it mentions
neither ledgers nor work lists, nor the order in which something is checked. At a place that is clear
`synthesize` ends with a node exactly if the grammar accepts the subschema (`synthesize_ok_iff`).
-/

namespace XsdSynthesis

open Xsd

namespace Keyword

/-- Whether a keyword may stand in a subschema that becomes a complex type. -/
def FitsComplex (t : Schema) : Keyword → Prop
  | .type types => types = [.object]
  | .required names => ∀ n ∈ names, n ∈ t.properties.map Prod.fst
  | .asAttribute flag => flag = false
  | .properties _ | .schema _ | .id _ | .namespaces _ | .documentAttributes _ => True
  | _ => False

/-- Whether a keyword may stand in a subschema that becomes a simple type. `s` is the schema of the
document, and `ns` what the empty prefix is bound to. -/
def FitsSimple (s : Schema) (ns : Option String) : Keyword → Prop
  | .type types => types ∈ [[.string], [.integer], [.number], [.boolean]]
  | .ref r => (∃ c name, s.target? r = some (c, name)) ∧ ns = none
  | .asAttribute _ | .schema _ | .id _ | .namespaces _ | .documentAttributes _ => True
  | _ => False

end Keyword

namespace Conversion

/-- A subschema at a place is accepted: it has the plain shape of complex types or that of simple
types, and every keyword fits. The properties of a complex one have names of XML and are accepted one
level deeper. -/
inductive Accepted (source : Source) (ns : Option String) : Pointer → Nat → Schema → Prop where
  | complex {place : Pointer} {depth : Nat} {t : Schema} : depth ≤ source.options.maxDepth →
      (source.classifier.shapes place).contains .complexType = true →
      (∀ d ∈ Shape.complexDerivations, (source.classifier.shapes place).contains d = false) →
      (∀ k ∈ t.keywords, k.FitsComplex t) → (∀ e ∈ t.properties, Xml.isName e.1 = true) →
      (∀ e ∈ t.properties, Accepted source ns (propertyPlace place e.1) (depth + 1) e.2) →
      Accepted source ns place depth t
  | simple {place : Pointer} {depth : Nat} {t : Schema} : depth ≤ source.options.maxDepth →
      (source.classifier.shapes place).contains .simpleType = true →
      (∀ d ∈ .complexType :: Shape.complexDerivations ++ Shape.simpleDerivations,
        (source.classifier.shapes place).contains d = false) →
      (∀ r types, .ref r ∈ t.keywords → .type types ∉ t.keywords) →
      (∀ k ∈ t.keywords, k.FitsSimple source.schema ns) → Accepted source ns place depth t

variable {source : Source} {ns : Option String} {place : Pointer} {depth : Nat} {s t : Schema}
  {made : Synthesized} {l : Ledger} {k : Keyword}

/-! ## Shapes -/

section Shapes

variable {shapes : ShapeSet}

/-- Among plain shapes only that of complex types is complex. -/
theorem isComplex_iff (h : ∀ d ∈ Shape.complexDerivations, shapes.contains d = false) :
    shapes.isComplex = true ↔ shapes.contains .complexType = true := by
  have hnone : Shape.complexDerivations.any shapes.contains = false := by simpa using h
  rw [ShapeSet.isComplex, List.any_cons, hnone, Bool.or_false]

theorem isSimple_iff (h : ∀ d ∈ Shape.simpleDerivations, shapes.contains d = false) :
    shapes.isSimple = true ↔ shapes.contains .simpleType = true := by
  have hnone : Shape.simpleDerivations.any shapes.contains = false := by simpa using h
  rw [ShapeSet.isSimple, List.any_cons, hnone, Bool.or_false]

theorem isComplex_eq_false :
    shapes.isComplex = false ↔
      ∀ d ∈ .complexType :: Shape.complexDerivations, shapes.contains d = false := by
  simp only [ShapeSet.isComplex, List.any_eq_false, Bool.not_eq_true]

end Shapes

/-! ## Keywords -/

/-- A value type has a built-in type of XML Schema exactly if it is one of four. -/
theorem primitive?_isSome {types : List ValueType} :
    (∃ v name, types = [v] ∧ v.primitive? = some name) ↔
      types ∈ [[ValueType.string], [.integer], [.number], [.boolean]] := by
  simp only [List.mem_cons, List.not_mem_nil, or_false]
  constructor
  · rintro ⟨v, name, rfl, hv⟩
    cases v with
    | string | integer | number | boolean => simp
    | _ => cases hv
  · rintro (rfl | rfl | rfl | rfl) <;> exact ⟨_, _, rfl, rfl⟩

theorem fitsComplex_of_opens (ht : t.IsRead) (ho : OpensComplex source place t)
    (hflag : t.asksAttribute = false) (hk : k ∈ t.keywords)
    (hkind : k.kind ∈ documentKinds ++ complexKinds) : k.FitsComplex t := by
  cases k with
  | type types =>
    have htypes := ht.types?_eq hk
    rcases ho.types with hnone | hobject
    · cases hnone.symm.trans htypes
    · exact Option.some.inj (htypes.symm.trans hobject)
  | required names =>
    intro n hn
    rw [← ht.requiredNames_eq hk] at hn
    exact ho.required n hn
  | asAttribute flag => exact (ht.asksAttribute_eq hk).symm.trans hflag
  | properties _ | schema _ | id _ | namespaces _ | documentAttributes _ => trivial
  | _ => exact absurd hkind (by simp [documentKinds, complexKinds, Keyword.kind])

theorem opens_of_fitsComplex (hshape : (source.classifier.shapes place).contains .complexType = true)
    (hplain : ∀ d ∈ Shape.complexDerivations, (source.classifier.shapes place).contains d = false)
    (h : ∀ k ∈ t.keywords, k.FitsComplex t) : OpensComplex source place t := by
  refine ⟨(isComplex_iff hplain).2 hshape, hplain, ?_, fun n hn => ?_⟩
  · cases htypes : t.types? with
    | none => exact .inl rfl
    | some types => exact .inr (congrArg some (h _ (Schema.mem_of_types? htypes)))
  · obtain ⟨names, hk, hn⟩ := Schema.mem_requiredNames hn
    exact h _ hk n hn

theorem kind_of_fitsComplex (h : k.FitsComplex t) : k.kind ∈ documentKinds ++ complexKinds := by
  cases k with
  | definitions _ _ | info _ | combinator _ _ | ref _ | unknown _ _ => exact h.elim
  | _ => simp [documentKinds, complexKinds, Keyword.kind]

theorem fitsSimple_of_namesType {typeName : Option QualifiedName} (ht : t.IsRead)
    (hname : NamesType s ns t typeName) (hk : k ∈ t.keywords)
    (hkind : k.kind ∈ documentKinds ++ simpleKinds) : k.FitsSimple s ns := by
  cases k with
  | type types =>
    have htypes := ht.types?_eq hk
    cases hname with
    | untyped _ hno => cases hno.symm.trans htypes
    | primitive _ hv hb =>
      cases hv.symm.trans htypes
      exact primitive?_isSome.1 ⟨_, _, rfl, hb⟩
    | reference _ hno _ _ => cases hno.symm.trans htypes
  | ref r =>
    have href := ht.reference?_eq hk
    cases hname with
    | untyped hno _ => cases hno.symm.trans href
    | primitive hno _ _ => cases hno.symm.trans href
    | reference hr _ htarget hns =>
      cases hr.symm.trans href
      exact ⟨⟨_, _, htarget⟩, hns⟩
  | asAttribute _ | schema _ | id _ | namespaces _ | documentAttributes _ => trivial
  | _ => exact absurd hkind (by simp [documentKinds, simpleKinds, Keyword.kind])

/-- A rule of simple types reads a reference or a type, not both. -/
theorem notBoth_of_namesType {typeName : Option QualifiedName} (ht : t.IsRead)
    (hname : NamesType s ns t typeName) {r : String} {types : List ValueType}
    (hr : .ref r ∈ t.keywords) : .type types ∉ t.keywords := by
  intro hk
  have href := ht.reference?_eq hr
  have htypes := ht.types?_eq hk
  cases hname with
  | untyped hno _ => cases hno.symm.trans href
  | primitive hno _ _ => cases hno.symm.trans href
  | reference _ hno _ _ => cases hno.symm.trans htypes

theorem namesType_of_fitsSimple (hboth : ∀ r types, .ref r ∈ t.keywords → .type types ∉ t.keywords)
    (h : ∀ k ∈ t.keywords, k.FitsSimple s ns) : ∃ typeName, NamesType s ns t typeName := by
  cases href : t.reference? with
  | none =>
    cases htypes : t.types? with
    | none => exact ⟨_, .untyped href htypes⟩
    | some types =>
      obtain ⟨v, name, rfl, hv⟩ := primitive?_isSome.2 (h _ (Schema.mem_of_types? htypes))
      exact ⟨_, .primitive href htypes hv⟩
  | some r =>
    have hr := Schema.mem_of_reference? href
    obtain ⟨⟨c, name, htarget⟩, hns⟩ := h _ hr
    have htypes : t.types? = none := by
      by_contra hne
      obtain ⟨types, htypes⟩ := Option.ne_none_iff_exists'.1 hne
      exact hboth r types hr (Schema.mem_of_types? htypes)
    exact ⟨_, .reference href htypes htarget hns⟩

theorem kind_of_fitsSimple (h : k.FitsSimple s ns) : k.kind ∈ documentKinds ++ simpleKinds := by
  cases k with
  | definitions _ _ | info _ | combinator _ _ | properties _ | required _ | unknown _ _ =>
    exact h.elim
  | _ => simp [documentKinds, simpleKinds, Keyword.kind]

/-! ## Subschemas -/

/-- What becomes a node is accepted, by induction on the rules. -/
theorem accepted_of_becomes (h : Becomes source ns place depth t made) (ht : t.IsRead) :
    Accepted source ns place depth t := by
  induction h with
  | @complex place depth t parts hd ho hflag hkinds hparts hnames _ ih =>
    refine .complex hd ((isComplex_iff ho.plain).1 ho.shape) ho.plain
      (fun k hk => fitsComplex_of_opens ht ho hflag hk (hkinds k hk)) (fun e he => ?_) fun e he => ?_
    · rw [← hparts] at he
      obtain ⟨p, hp, rfl⟩ := List.mem_map.1 he
      exact hnames p hp
    · have hread := isRead_property ht he
      rw [← hparts] at he
      obtain ⟨p, hp, rfl⟩ := List.mem_map.1 he
      exact ih p hp hread
  | simple hd ho hkinds hname =>
    refine .simple hd ((isSimple_iff ho.plain).1 ho.shape) (fun d hm => ?_)
      (fun r types hr => notBoth_of_namesType ht hname hr)
      fun k hk => fitsSimple_of_namesType ht hname hk (hkinds k hk)
    rcases List.mem_append.1 hm with hm | hm
    · exact isComplex_eq_false.1 ho.notComplex d hm
    · exact ho.plain d hm

/-- What is accepted becomes a node, by induction on the grammar. -/
theorem becomes_of_accepted (h : Accepted source ns place depth t) :
    ∃ made, Becomes source ns place depth t made := by
  induction h with
  | @complex place depth t hd hshape hplain hfits hnames _ ih =>
    obtain ⟨parts, hparts⟩ : ∃ parts : List Part, List.Forall₂ (fun e p => p.entry = e ∧
        Becomes source ns (propertyPlace place p.name) (depth + 1) p.schema p.made)
        t.properties parts := by
      refine Tables.exists_forall₂ fun e he => ?_
      obtain ⟨made, hmade⟩ := ih e he
      exact ⟨⟨e.1, e.2, made⟩, rfl, hmade⟩
    have hentries : parts.map Part.entry = t.properties := by
      have hmap := Tables.map_eq_map (f := id) hparts fun _ _ h => h.1
      rwa [List.map_id] at hmap
    have hflag : t.asksAttribute = false := by
      by_contra hask
      have hk := Schema.mem_of_asksAttribute (Bool.not_eq_false _ ▸ hask)
      cases hfits _ hk
    refine ⟨_, .complex hd (opens_of_fitsComplex hshape hplain hfits) hflag
      (fun k hk => kind_of_fitsComplex (hfits k hk)) hentries (fun p hp => ?_) fun p hp => ?_⟩
    · exact hnames p.entry (hentries ▸ List.mem_map_of_mem hp)
    · obtain ⟨_, _, _, hmade⟩ := Tables.exists_of_mem_right hparts hp
      exact hmade
  | simple hd hshape hplain hboth hfits =>
    obtain ⟨typeName, hname⟩ := namesType_of_fitsSimple hboth hfits
    have hderived : ∀ d ∈ Shape.simpleDerivations, _ := fun d hm =>
      hplain d (List.mem_append_right _ hm)
    exact ⟨_, .simple hd ⟨isComplex_eq_false.2 fun d hm => hplain d (List.mem_append_left _ hm),
      (isSimple_iff hderived).2 hshape, hderived⟩ (fun k hk => kind_of_fitsSimple (hfits k hk)) hname⟩

/-- **Synthesis accepts exactly the grammar.** At a place that was not visited, nor any below it,
`synthesize` ends with a node if and only if the subschema is accepted there. -/
theorem synthesize_ok_iff (ht : t.IsRead) (hclear : l.Clear place) :
    (∃ made l', synthesize source place depth t l = (.ok made, l')) ↔
      Accepted source (l.document.namespaceOf? "") place depth t := by
  constructor
  · rintro ⟨made, l', h⟩
    exact accepted_of_becomes (synthesize_ok h).1 ht
  · intro h
    obtain ⟨made, hmade⟩ := becomes_of_accepted h
    obtain ⟨l', hrun, _⟩ := synthesize_of_becomes hmade ht l rfl hclear
    exact ⟨made, l', hrun⟩

/-- A node at `#/$defs/P/properties/x` with a required attribute and a reference. -/
def nestedNode : Json :=
  .obj [("properties", .obj [("a", .obj [("type", .str "string"), ("@xsdAttribute", .bool true)]),
    ("b", .obj [("$ref", .str "#/definitions/N")])]), ("required", .arr [.str "a"])]

def nestedSchema : Json :=
  .obj [("$defs", .obj [("P", .obj [("properties", .obj [("x", nestedNode)])])]),
    ("definitions", .obj [("N", .obj [("type", .str "integer")])])]

/-- Complex shapes for that node, simple ones everywhere else. -/
def nestedClassifier : Classifier :=
  ⟨"Root", false, fun p =>
    if p = ⟨["$defs", "P", "properties", "x"]⟩ then .ofList [.complexType]
    else .ofList [.simpleType]⟩

theorem synthesize_ok_iff_nested :
    ∃ s t, Schema.ofJson? nestedSchema = .ok s ∧ t.IsRead ∧
      (⟨{}, [⟨["$defs", "P"]⟩], .start, []⟩ : Ledger).Clear ⟨["$defs", "P", "properties", "x"]⟩ ∧
      Accepted ⟨s, nestedClassifier, {}⟩ none ⟨["$defs", "P", "properties", "x"]⟩ 2 t := by
  have hrun : ((Schema.ofJson? nestedSchema).toOption.any fun s =>
      (Schema.readAt .root nestedNode).toOption.any fun t =>
        (synthesize ⟨s, nestedClassifier, {}⟩ ⟨["$defs", "P", "properties", "x"]⟩ 2 t
          ⟨{}, [⟨["$defs", "P"]⟩], .start, []⟩).1.toOption.any fun _ => true) = true := by
    decide +kernel
  obtain ⟨s, hs, hnode⟩ := Checks.exists_of_any hrun
  obtain ⟨t, ht, hmade⟩ := Checks.exists_of_any hnode
  have hread : t.IsRead := ⟨_, _, Json.distinct_of_merged (by rfl), ht⟩
  have hclear : (⟨{}, [⟨["$defs", "P"]⟩], .start, []⟩ : Ledger).Clear
      ⟨["$defs", "P", "properties", "x"]⟩ := by
    intro q hq
    cases List.mem_singleton.1 hq
    decide
  obtain ⟨made, hok, _⟩ := Checks.exists_of_any hmade
  exact ⟨s, t, hs, hread, hclear, (synthesize_ok_iff hread hclear).1 ⟨made, _, Prod.ext hok rfl⟩⟩

end Conversion
end XsdSynthesis
