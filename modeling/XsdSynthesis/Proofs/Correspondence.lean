import XsdSynthesis.Proofs.Content
import XsdSynthesis.Proofs.Members

/-!
# XsdSynthesis.Proofs.Correspondence

Places of the schema against the types and names of the document. Every complex type stands for a place
that synthesis reached, with the members that the properties there become (`TypeAt.fills`), and
whatever synthesis reached is shown in the document (`Reached.shown`).
-/

namespace XsdSynthesis

open Xsd Conversion

variable {source : Source} {ns : Option String} {p : Pointer} {depth : Nat} {t : Schema}
  {parts : List Part} {type : ComplexType} {d : Document}

/-- A complex type has the members that the properties of a schema become. -/
structure Fills (source : Source) (ns : Option String) (p : Pointer) (t : Schema)
    (parts : List Part) (type : ComplexType) : Prop where
  opens : OpensComplex source p t
  entries : parts.map Part.entry = t.properties
  becomes : ∀ part ∈ parts,
    ∃ depth, Becomes source ns (propertyPlace p part.name) depth part.schema part.made
  elements : type.elements = parts.filterMap (Part.element? t.requiredNames)
  attributes : type.attributes = parts.filterMap (Part.attribute? t.requiredNames)

theorem fills_of_parts (ho : OpensComplex source p t) (hparts : parts.map Part.entry = t.properties)
    (hbecomes : ∀ part ∈ parts,
      ∃ depth, Becomes source ns (propertyPlace p part.name) depth part.schema part.made) :
    Fills source ns p t parts (Members.ofParts t.requiredNames parts).type := by
  refine ⟨ho, hparts, hbecomes, ?_, ?_⟩
  · rw [elements_type, elements_ofParts]
  · rw [attributes_type, attributes_ofParts]

theorem fills_of_members {members : Members} (ho : OpensComplex source p t)
    (h : BecomesMembers source ns p depth t.requiredNames t.properties members) :
    ∃ parts, Fills source ns p t parts members.type := by
  obtain ⟨parts, hparts, _, hbecomes, rfl⟩ := h
  exact ⟨parts, fills_of_parts ho hparts fun part hm => ⟨_, hbecomes part hm⟩⟩

theorem fills_of_becomes {flag : Bool} (h : Becomes source ns p depth t ⟨.complex type, flag⟩) :
    ∃ parts, Fills source ns p t parts type := by
  obtain ⟨ho, _, _, members, hmembers, rfl⟩ := h.of_complex rfl
  exact fills_of_members ho hmembers

theorem elements_withName (type : ComplexType) (name : String) :
    (type.withName name).elements = type.elements := by
  cases type
  rfl

theorem attributes_withName (type : ComplexType) (name : String) :
    (type.withName name).attributes = type.attributes := by
  cases type
  rfl

theorem Fills.withName (h : Fills source ns p t parts type) (name : String) :
    Fills source ns p t parts (type.withName name) := by
  refine ⟨h.opens, h.entries, h.becomes, ?_, ?_⟩
  · rw [elements_withName]
    exact h.elements
  · rw [attributes_withName]
    exact h.attributes

theorem node_of_complexType {required : List String} {part : Part} {e : Element}
    (h : part.element? required = some e) (he : e.complexType = some type) :
    part.made.node = .complex type := by
  obtain ⟨name, schema, node, flag⟩ := part
  cases node with
  | complex other =>
    cases h
    cases he
    rfl
  | simple typeName =>
    cases flag with
    | true => cases h
    | false =>
      cases h
      cases he

theorem Fills.property (h : Fills source ns p t parts type) {part : Part} (hm : part ∈ parts) :
    (part.name, part.schema) ∈ t.properties := by
  rw [← h.entries]
  exact List.mem_map.2 ⟨part, hm, rfl⟩

/-- **A complex type stands for a place that synthesis reached**, by induction on where it stands in
the document. -/
theorem TypeAt.fills (hd : BecomesDocument source d) (h : TypeAt source.schema d p type) :
    ∃ t parts, Reached source p t ∧ Fills source (d.namespaceOf? "") p t parts type := by
  induction h with
  | root he htype =>
    have hroot := hd.root_of_element he
    cases hroot with
    | complex hi _ ho hmembers =>
      cases htype
      obtain ⟨parts, hfills⟩ := fills_of_members ho hmembers
      exact ⟨_, parts, .root hi, hfills⟩
    | simple _ _ _ _ => cases htype
    | wrapped _ _ _ _ _ => cases htype
  | named hi =>
    obtain ⟨c, name, t, hm, hitem⟩ := hd.definition_of_item hi rfl
    cases hitem with
    | complex _ hbecomes =>
      obtain ⟨parts, hfills⟩ := fills_of_becomes hbecomes
      rw [name_withName, Option.getD_some, hd.home hm]
      exact ⟨t, parts, .definition hm, hfills.withName name⟩
  | nested _ he htype ih =>
    obtain ⟨t, parts, hreached, hfills⟩ := ih
    rw [hfills.elements] at he
    obtain ⟨part, hm, hpart⟩ := List.mem_filterMap.1 he
    obtain ⟨depth, hbecomes⟩ := hfills.becomes part hm
    have hnode := node_of_complexType hpart htype
    have hprop := hfills.property hm
    rw [name_of_element? hpart]
    obtain ⟨name, schema, node, flag⟩ := part
    subst hnode
    obtain ⟨inner, hinner⟩ := fills_of_becomes hbecomes
    exact ⟨schema, inner, .property hreached hfills.opens.shape hprop, hinner⟩

/-! ## What was reached is shown -/

/-- What a subschema became is in the document, where its place is. -/
inductive Shown (s : Schema) (d : Document) : Pointer → Synthesized → Prop where
  | complex {p : Pointer} {type shown : ComplexType} {flag : Bool} : TypeAt s d p shown →
      shown.elements = type.elements → shown.attributes = type.attributes →
      Shown s d p ⟨.complex type, flag⟩
  | base {t : SimpleType} {p : Pointer} : .simpleType t ∈ d.items → p = s.home t.name →
      Shown s d p ⟨.simple (some t.base), false⟩
  | onElement {p : Pointer} {parent : ComplexType} {e : Element} : TypeAt s d p parent →
      e ∈ parent.elements → e.complexType = none →
      Shown s d (propertyPlace p e.name) ⟨.simple e.typeName, false⟩
  | onAttribute {p : Pointer} {parent : ComplexType} {a : Attribute} : TypeAt s d p parent →
      a ∈ parent.attributes → Shown s d (propertyPlace p a.name) ⟨.simple a.typeName, true⟩

theorem Fills.congr {other : ComplexType} (h : Fills source ns p t parts type)
    (he : other.elements = type.elements) (ha : other.attributes = type.attributes) :
    Fills source ns p t parts other :=
  ⟨h.opens, h.entries, h.becomes, he.trans h.elements, ha.trans h.attributes⟩

/-- What is known of a subschema that synthesis came to. -/
def Accounted (source : Source) (d : Document) (p : Pointer) (t : Schema) : Prop :=
  (p = .root ∧ t = source.schema ∧ source.classifier.inlineRoot = true) ∨
    ∃ depth made, Becomes source (d.namespaceOf? "") p depth t made ∧
      Shown source.schema d p made

theorem Accounted.typeAt (hd : BecomesDocument source d) (h : Accounted source d p t)
    (hc : (source.classifier.shapes p).isComplex = true) :
    ∃ parts type, TypeAt source.schema d p type ∧
      Fills source (d.namespaceOf? "") p t parts type := by
  rcases h with ⟨rfl, rfl, hi⟩ | ⟨depth, made, hbecomes, hshown⟩
  · obtain ⟨e, he, hroot⟩ := hd.rootElement
    cases hroot with
    | complex _ _ ho hmembers =>
      obtain ⟨parts, hfills⟩ := fills_of_members ho hmembers
      exact ⟨parts, _, .root he rfl, hfills⟩
    | simple _ _ ho _ =>
      rw [ho.notComplex] at hc
      cases hc
    | wrapped hn _ _ _ _ =>
      rw [hi] at hn
      cases hn
  · obtain ⟨node, flag⟩ := made
    cases node with
    | complex type =>
      obtain ⟨parts, hfills⟩ := fills_of_becomes hbecomes
      cases hshown with
      | complex htype he ha => exact ⟨parts, _, htype, hfills.congr he ha⟩
    | simple typeName =>
      have hs := (hbecomes.of_simple rfl).1.notComplex
      rw [hs] at hc
      cases hc

theorem Fills.shown (h : Fills source ns p t parts type) (htype : TypeAt source.schema d p type)
    {part : Part} (hm : part ∈ parts) :
    Shown source.schema d (propertyPlace p part.name) part.made := by
  rcases element?_or_attribute? t.requiredNames part with ⟨e, he, _⟩ | ⟨a, ha, _⟩
  · have hmem : e ∈ type.elements := by
      rw [h.elements]
      exact List.mem_filterMap.2 ⟨part, hm, he⟩
    obtain ⟨name, schema, node, flag⟩ := part
    cases node with
    | complex inner =>
      cases he
      exact .complex (.nested htype hmem rfl) rfl rfl
    | simple typeName =>
      cases flag with
      | true => cases he
      | false =>
        cases he
        exact .onElement htype hmem rfl
  · have hmem : a ∈ type.attributes := by
      rw [h.attributes]
      exact List.mem_filterMap.2 ⟨part, hm, ha⟩
    obtain ⟨name, schema, node, flag⟩ := part
    cases node with
    | complex inner => cases ha
    | simple typeName =>
      cases flag with
      | true =>
        cases ha
        exact .onAttribute htype hmem
      | false => cases ha

/-- **What synthesis came to is in the document**, by induction on how it came there. -/
theorem Reached.shown (hd : BecomesDocument source d) (h : Reached source p t) :
    Accounted source d p t := by
  induction h with
  | root hi => exact .inl ⟨rfl, rfl, hi⟩
  | definition hm =>
    right
    obtain ⟨item, hi, hitem, _⟩ := hd.item_of_definition hm
    have hhome := hd.home hm
    cases hitem with
    | @complex type _ hbecomes =>
      refine ⟨_, _, hbecomes, ?_⟩
      have htype := TypeAt.named (s := source.schema) hi
      rw [name_withName, Option.getD_some, hhome] at htype
      exact .complex htype (elements_withName _ _) (attributes_withName _ _)
    | simple _ hbecomes _ => exact ⟨_, _, hbecomes, .base hi hhome.symm⟩
  | @property p t u name _ hc hu ih =>
    right
    obtain ⟨parts, type, htype, hfills⟩ := Accounted.typeAt hd ih hc
    rw [← hfills.entries] at hu
    obtain ⟨part, hm, heq⟩ := List.mem_map.1 hu
    cases heq
    obtain ⟨depth, hbecomes⟩ := hfills.becomes part hm
    exact ⟨depth, part.made, hbecomes, hfills.shown htype hm⟩

/-- **A place of complex shape has its type.** -/
theorem Reached.typeAt (hd : BecomesDocument source d) (h : Reached source p t)
    (hc : (source.classifier.shapes p).isComplex = true) :
    ∃ parts type, TypeAt source.schema d p type ∧
      Fills source (d.namespaceOf? "") p t parts type :=
  Accounted.typeAt hd (h.shown hd) hc

end XsdSynthesis
