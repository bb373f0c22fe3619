import XsdSynthesis.Proofs.Correspondence

/-!
# XsdSynthesis.Proofs.References

References hold. A type name without namespace, wherever it occurs in a converted document, is the name
of one top-level type, and that type is what became of the definition to which the `$ref` at its
place points (`names_resolve`).
-/

namespace XsdSynthesis

open Xsd Conversion

variable {source : Source} {d : Document} {p : Pointer} {q : QualifiedName} {t : Schema}

/-- A reference stands at a place: it is the `$ref` there, or the one that the root wraps. -/
inductive ReferenceAt (s : Schema) : Pointer → String → Prop where
  | own {p : Pointer} {t : Schema} {r : String} : Position s p t → t.reference? = some r →
      ReferenceAt s p r
  | wrapped {c : Combinator} {r : String} : s.combinators = [(c, [.mk [.ref r]])] →
      ReferenceAt s .root r

/-- A reference points to a definition, and the one top-level type with the definition's name is
what became of the definition. -/
def Resolves (source : Source) (d : Document) (reference name : String) : Prop :=
  ∃ c t item, source.schema.target? reference = some (c, name) ∧
    source.schema.definition? c name = some t ∧
    BecomesItem source (d.namespaceOf? "") c name t item ∧
    d.items.filter (fun i => i.declaredName? = some name) = [item]

theorem NamesType.reference {s : Schema} {ns : Option String}
    (h : NamesType s ns t (some q)) (hq : q.ns = none) :
    ∃ r c, t.reference? = some r ∧ s.target? r = some (c, q.name) := by
  cases h with
  | primitive _ _ _ => cases hq
  | reference hr _ ht _ => exact ⟨_, _, hr, ht⟩

theorem made_of_typeName {required : List String} {part : Part} {e : Element}
    (h : part.element? required = some e) (he : e.typeName = some q) :
    part.made = ⟨.simple (some q), false⟩ := by
  obtain ⟨name, schema, node, flag⟩ := part
  cases node with
  | complex type =>
    cases h
    cases he
  | simple typeName =>
    cases flag with
    | true => cases h
    | false =>
      cases h
      cases he
      rfl

theorem made_of_attribute {required : List String} {part : Part} {a : Attribute}
    (h : part.attribute? required = some a) : part.made = ⟨.simple a.typeName, true⟩ := by
  obtain ⟨name, schema, node, flag⟩ := part
  cases node with
  | complex type => cases h
  | simple typeName =>
    cases flag with
    | true =>
      cases h
      rfl
    | false => cases h

theorem Fills.reference {ns : Option String} {parts : List Part} {type : ComplexType}
    (h : Fills source ns p t parts type) (hreached : Reached source p t) {part : Part} {flag : Bool}
    (hm : part ∈ parts) (hmade : part.made = ⟨.simple (some q), flag⟩) (hq : q.ns = none) :
    ∃ r c, ReferenceAt source.schema (propertyPlace p part.name) r ∧
      source.schema.target? r = some (c, q.name) := by
  obtain ⟨depth, hbecomes⟩ := h.becomes part hm
  rw [hmade] at hbecomes
  obtain ⟨r, c, hr, ht⟩ := NamesType.reference (hbecomes.of_simple rfl).2.2.2 hq
  have hplace := (Reached.property hreached h.opens.shape (h.property hm)).position
  exact ⟨r, c, .own hplace hr, ht⟩

/-- Where a type name without namespace stands, a reference stands that points to a definition of
that name. -/
theorem NameAt.reference (hd : BecomesDocument source d) (h : NameAt source.schema d p q)
    (hq : q.ns = none) :
    ∃ r c, ReferenceAt source.schema p r ∧ source.schema.target? r = some (c, q.name) := by
  cases h with
  | root he hname =>
    have hroot := hd.root_of_element he
    cases hroot with
    | complex _ _ _ _ => cases hname
    | simple _ _ _ hnames =>
      cases hname
      obtain ⟨r, c, hr, ht⟩ := NamesType.reference hnames hq
      exact ⟨r, c, .own .root hr, ht⟩
    | wrapped _ _ hc ht _ =>
      cases hname
      exact ⟨_, _, .wrapped hc, ht⟩
  | @base simple hi =>
    obtain ⟨c, name, t, hm, hitem⟩ := hd.definition_of_item hi rfl
    cases hitem with
    | simple _ hbecomes _ =>
      obtain ⟨r, target, hr, ht⟩ := NamesType.reference (hbecomes.of_simple rfl).2.2.2 hq
      have hplace : Position source.schema (definitionPlace c name) t :=
        (Reached.definition hm).position
      rw [hd.home hm]
      exact ⟨r, target, .own hplace hr, ht⟩
  | onElement htype he hname =>
    obtain ⟨t, parts, hreached, hfills⟩ := TypeAt.fills hd htype
    rw [hfills.elements] at he
    obtain ⟨part, hm, hpart⟩ := List.mem_filterMap.1 he
    have hmade := made_of_typeName hpart hname
    rw [name_of_element? hpart]
    exact hfills.reference hreached hm hmade hq
  | onAttribute htype ha hname =>
    obtain ⟨t, parts, hreached, hfills⟩ := TypeAt.fills hd htype
    rw [hfills.attributes] at ha
    obtain ⟨part, hm, hpart⟩ := List.mem_filterMap.1 ha
    have hmade := made_of_attribute hpart
    rw [hname] at hmade
    rw [name_of_attribute? hpart]
    exact hfills.reference hreached hm hmade hq

theorem definition?_of_target? {s : Schema} {r name : String} {c : Container}
    (h : s.target? r = some (c, name)) : ∃ t, s.definition? c name = some t := by
  unfold Schema.target? at h
  split at h
  · split at h
    · rename_i container other _
      obtain ⟨c', _, h⟩ := Option.bind_eq_some_iff.1 h
      obtain ⟨t, ht, h⟩ := Option.bind_eq_some_iff.1 h
      cases h
      exact ⟨t, ht⟩
    · cases h
  · cases h

theorem resolves_of_target? {r name : String} {c : Container} (hd : BecomesDocument source d)
    (h : source.schema.target? r = some (c, name)) : Resolves source d r name := by
  obtain ⟨t, ht⟩ := definition?_of_target? h
  obtain ⟨item, _, hitem, hone⟩ := hd.item_of_definition (Tables.mem_of_lookup ht)
  exact ⟨c, t, item, h, ht, hitem, hone⟩

/-- **References hold.** The top-level types of a converted document have different names, and a type
name without namespace at any place resolves to the type of the definition that the reference at
that place points to. -/
theorem names_resolve {j : Json} {classifier : Classifier} {options : Options} {d : Document}
    (h : convertJson j classifier options = .ok d) :
    ∃ s, Schema.ofJson? j = .ok s ∧ d.declaredNames.Nodup ∧
      ∀ p q, NameAt s d p q → q.ns = none →
        ∃ r, ReferenceAt s p r ∧ Resolves ⟨s, classifier, options⟩ d r q.name := by
  obtain ⟨s, hs, hd⟩ := convertJson_ok h
  refine ⟨s, hs, hd.names, ?_⟩
  intro p q hname hq
  obtain ⟨r, c, hr, ht⟩ := NameAt.reference hd hname hq
  exact ⟨r, hr, resolves_of_target? hd ht⟩

/-- A root with an attribute of a type that is derived from another one. -/
def attributeSchema : Json :=
  .obj [("properties", .obj [("x", .obj [("$ref", .str "#/$defs/P"),
      ("@xsdAttribute", .bool true)])]),
    ("$defs", .obj [("P", .obj [("$ref", .str "#/$defs/Q")]),
      ("Q", .obj [("type", .str "string")])])]

/-- An inline root of complex shape, and simple shapes everywhere else. -/
def complexRoot : Classifier :=
  ⟨"Root", true, fun p => if p = .root then .ofList [.complexType] else .ofList [.simpleType]⟩

theorem names_resolve_forward :
    ∃ d, convertJson attributeSchema complexRoot {} = .ok d ∧ d.declaredNames = ["P", "Q"] ∧
      ∃ s, Schema.ofJson? attributeSchema = .ok s ∧ d.declaredNames.Nodup ∧
        ∀ p q, NameAt s d p q → q.ns = none →
          ∃ r, ReferenceAt s p r ∧ Resolves ⟨s, complexRoot, {}⟩ d r q.name := by
  have hrun : (convertJson attributeSchema complexRoot {}).toOption.any
      (fun d => d.declaredNames == ["P", "Q"]) = true := by decide +kernel
  obtain ⟨d, hd, hnames⟩ := Checks.exists_of_any hrun
  exact ⟨d, hd, beq_iff_eq.1 hnames, names_resolve hd⟩

end XsdSynthesis
