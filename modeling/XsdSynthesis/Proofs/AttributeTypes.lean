import XsdSynthesis.Proofs.Derivation

/-!
# XsdSynthesis.Proofs.AttributeTypes

Types of attributes. An attribute's own place has a simple shape, but a reference there may point to a
definition of complex shape, and nothing looks at that one. So the attributes of a converted document
have simple types exactly when no such reference is there (`attributes_simple_iff`).
-/

namespace XsdSynthesis

open Xsd Conversion

variable {source : Source} {d : Document} {p : Pointer} {t : Schema} {a : Attribute}

/-- An attribute has no type, a built-in one, or the one declared under its type's name is simple. -/
def HasSimpleType (d : Document) (a : Attribute) : Prop :=
  ∀ q, a.typeName = some q → (∃ b, q = .builtIn b) ∨
    ∃ t, q = .plain t.name ∧ d.items.filter (fun i => i.declaredName? = some q.name) =
      [.simpleType t]

def AttributesSimple (s : Schema) (d : Document) : Prop :=
  ∀ p type a, TypeAt s d p type → a ∈ type.attributes → HasSimpleType d a

/-- No property that asks to be an attribute refers to a definition of complex shape. -/
def AttributesReferToSimple (source : Source) : Prop :=
  ∀ p t r c name, Reached source p t → t.asksAttribute = true → t.reference? = some r →
    source.schema.target? r = some (c, name) →
    (source.classifier.shapes (definitionPlace c name)).isComplex = false

theorem property_of_attribute {type : ComplexType} (hd : BecomesDocument source d)
    (htype : TypeAt source.schema d p type) (ha : a ∈ type.attributes) :
    ∃ u, Reached source (propertyPlace p a.name) u ∧ u.asksAttribute = true ∧
      NamesType source.schema (d.namespaceOf? "") u a.typeName := by
  obtain ⟨t, parts, hreached, hfills⟩ := TypeAt.fills hd htype
  rw [hfills.attributes] at ha
  obtain ⟨part, hm, hpart⟩ := List.mem_filterMap.1 ha
  obtain ⟨depth, hbecomes⟩ := hfills.becomes part hm
  rw [made_of_attribute hpart] at hbecomes
  obtain ⟨_, hflag, _, hname⟩ := hbecomes.of_simple rfl
  rw [name_of_attribute? hpart]
  exact ⟨part.schema, .property hreached hfills.opens.shape (hfills.property hm), hflag.symm, hname⟩

theorem not_mem_rootKinds : .asAttribute ∉ rootKinds source := by
  unfold rootKinds
  split
  · split <;> decide
  · decide

theorem BecomesDocument.asksAttribute_root (hd : BecomesDocument source d) :
    source.schema.asksAttribute = false := by
  rw [Bool.eq_false_iff]
  intro hflag
  rcases hd.kinds _ (Schema.mem_of_asksAttribute hflag) with hm | hdisp | hr
  · exact absurd hm (by decide)
  · cases hdisp
  · exact not_mem_rootKinds hr

/-- A property that asks for it is an attribute in the document. -/
theorem attribute_of_property (hd : BecomesDocument source d) (h : Reached source p t)
    (hflag : t.asksAttribute = true) :
    ∃ q type a, p = propertyPlace q a.name ∧ TypeAt source.schema d q type ∧
      a ∈ type.attributes ∧ NamesType source.schema (d.namespaceOf? "") t a.typeName := by
  rcases h.shown hd with ⟨rfl, rfl, _⟩ | ⟨depth, made, hbecomes, hshown⟩
  · rw [BecomesDocument.asksAttribute_root hd] at hflag
    cases hflag
  · obtain ⟨node, flag⟩ := made
    cases node with
    | complex inner =>
      have hno := (hbecomes.of_complex rfl).2.1
      rw [hflag] at hno
      cases hno
    | simple typeName =>
      obtain ⟨_, hsame, _, hname⟩ := hbecomes.of_simple rfl
      have hask : flag = true := hsame.trans hflag
      subst hask
      cases hshown with
      | onAttribute htype ha => exact ⟨_, _, _, rfl, htype, ha, hname⟩

theorem attributesSimple_of (hd : BecomesDocument source d) (h : AttributesReferToSimple source) :
    AttributesSimple source.schema d := by
  intro p type a htype ha q hq
  obtain ⟨u, hreached, hflag, hname⟩ := property_of_attribute hd htype ha
  rw [hq] at hname
  cases hname with
  | primitive _ _ _ => exact .inl ⟨_, rfl⟩
  | reference hr _ ht _ =>
    have hshape := h _ _ _ _ _ hreached hflag hr ht
    obtain ⟨v, hv⟩ := definition?_of_target? ht
    obtain ⟨base, _, hone⟩ := simpleType_of_definition hd (Tables.mem_of_lookup hv) hshape
    exact .inr ⟨_, rfl, hone⟩

theorem attributesReferToSimple_of (hd : BecomesDocument source d)
    (h : AttributesSimple source.schema d) : AttributesReferToSimple source := by
  intro p t r c name hreached hflag hr ht
  obtain ⟨q, type, a, _, htype, ha, hname⟩ := attribute_of_property hd hreached hflag
  generalize hq : a.typeName = typeName at hname
  cases hname with
  | untyped hno _ =>
    rw [hr] at hno
    cases hno
  | primitive hno _ _ =>
    rw [hr] at hno
    cases hno
  | reference hr' _ ht' _ =>
    cases hr.symm.trans hr'
    cases ht.symm.trans ht'
    obtain ⟨v, hv⟩ := definition?_of_target? ht
    obtain ⟨item, _, hitem, hone⟩ := hd.item_of_definition (Tables.mem_of_lookup hv)
    rcases h q type a htype ha _ hq with ⟨b, hb⟩ | ⟨simple, hb, hsimple⟩
    · cases hb
    · -- the definition's only item is simple, so its place has no complex shape
      have hsame : [item] = [.simpleType simple] := hone.symm.trans hsimple
      cases hsame
      cases hitem with
      | simple _ hbecomes _ => exact (hbecomes.of_simple rfl).1.notComplex

/-- **Attributes have simple types exactly when they refer to none of complex shape.** -/
theorem attributes_simple_iff {j : Json} {classifier : Classifier} {options : Options}
    {d : Document} (h : convertJson j classifier options = .ok d) :
    ∃ s, Schema.ofJson? j = .ok s ∧
      (AttributesSimple s d ↔ AttributesReferToSimple ⟨s, classifier, options⟩) := by
  obtain ⟨s, hs, hd⟩ := convertJson_ok h
  exact ⟨s, hs, attributesReferToSimple_of hd, attributesSimple_of hd⟩

theorem attributes_simple_iff_simple :
    ∃ d, convertJson attributeSchema complexRoot {} = .ok d ∧
      ∃ s, Schema.ofJson? attributeSchema = .ok s ∧
        (AttributesSimple s d ↔ AttributesReferToSimple ⟨s, complexRoot, {}⟩) := by
  have hrun : (convertJson attributeSchema complexRoot {}).toOption.any (fun _ => true) = true := by
    decide +kernel
  obtain ⟨d, hd, _⟩ := Checks.exists_of_any hrun
  exact ⟨d, hd, attributes_simple_iff hd⟩

/-- A root with an attribute that refers to a definition of complex shape. -/
def complexAttributeSchema : Json :=
  .obj [("$defs", .obj [("P", .obj [("properties", .obj [])])]),
    ("properties", .obj [("x", .obj [("$ref", .str "#/$defs/P"), ("@xsdAttribute", .bool true)])])]

/-- Complex shapes for the root and that definition, simple ones everywhere else. -/
def complexDefinition : Classifier :=
  ⟨"Root", true, fun p =>
    if p = .root ∨ p = ⟨["$defs", "P"]⟩ then .ofList [.complexType] else .ofList [.simpleType]⟩

/-- Such a schema is converted, and the attribute has a complex type. -/
theorem attribute_of_complexType :
    ∃ d s, convertJson complexAttributeSchema complexDefinition {} = .ok d ∧
      Schema.ofJson? complexAttributeSchema = .ok s ∧ ¬ AttributesSimple s d := by
  have hrun : (convertJson complexAttributeSchema complexDefinition {}).toOption.any (fun d =>
      (d.complexType? "P").isSome && (d.rootElement?.bind Element.complexType).any fun type =>
        type.attributes.contains ⟨"x", some (.plain "P"), false⟩) = true := by decide +kernel
  obtain ⟨d, hd, hboth⟩ := Checks.exists_of_any hrun
  obtain ⟨hp, hroot⟩ := Bool.and_eq_true_iff.1 hboth
  obtain ⟨s, hs, _⟩ := convertJson_ok hd
  refine ⟨d, s, hd, hs, fun hall => ?_⟩
  obtain ⟨other, hother⟩ := Option.isSome_iff_exists.1 hp
  obtain ⟨hother, hname⟩ := Document.mem_of_complexType? hother
  obtain ⟨type, hbind, hcontains⟩ := (Option.any_eq_true _ _).1 hroot
  obtain ⟨e, hfirst, htype⟩ := Option.bind_eq_some_iff.1 hbind
  have he := Document.mem_of_rootElement? hfirst
  have ha := List.contains_iff_mem.1 hcontains
  rcases hall .root type _ (.root he htype) ha _ rfl with ⟨b, hb⟩ | ⟨t, _, hone⟩
  · cases hb
  · have hm : .complexType other ∈ d.items.filter fun i => i.declaredName? = some "P" :=
      List.mem_filter.2 ⟨hother, decide_eq_true hname⟩
    rw [show (QualifiedName.plain "P").name = "P" from rfl] at hone
    rw [hone] at hm
    cases List.mem_singleton.1 hm

end XsdSynthesis
