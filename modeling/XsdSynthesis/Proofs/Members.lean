import XsdSynthesis.Proofs.Places

/-!
# XsdSynthesis.Proofs.Members

The members of a complex type, part by part. Each part gives one member under its own name, an element
or an attribute (`memberNames_perm`), and no member comes from elsewhere.
-/

namespace XsdSynthesis
namespace Conversion

open Xsd

namespace Part

/-- The element that a part gives. -/
def element? (required : List String) (p : Part) : Option Element :=
  let minOccurs := if required.contains p.name then none else some 0
  match p.made.node with
  | .complex type => some (.mk p.name minOccurs none (some type))
  | .simple typeName =>
    if p.made.asAttribute then none else some (.mk p.name minOccurs typeName none)

def attribute? (required : List String) (p : Part) : Option Attribute :=
  match p.made.node with
  | .complex _ => none
  | .simple typeName =>
    if p.made.asAttribute then some ⟨p.name, typeName, required.contains p.name⟩ else none

end Part

variable {required : List String} {parts : List Part} {p : Part}

theorem elements_ofParts :
    (Members.ofParts required parts).elements = parts.filterMap (Part.element? required) := by
  induction parts with
  | nil => rfl
  | cons p rest ih =>
    obtain ⟨name, schema, node, flag⟩ := p
    simp only [Members.ofParts, Members.add, List.filterMap_cons, Part.element?]
    cases node with
    | complex type => simp [ih]
    | simple typeName => cases flag <;> simp [ih]

theorem attributes_ofParts :
    (Members.ofParts required parts).attributes = parts.filterMap (Part.attribute? required) := by
  induction parts with
  | nil => rfl
  | cons p rest ih =>
    obtain ⟨name, schema, node, flag⟩ := p
    simp only [Members.ofParts, Members.add, List.filterMap_cons, Part.attribute?]
    cases node with
    | complex type => simp [ih]
    | simple typeName => cases flag <;> simp [ih]

theorem elements_type (m : Members) : m.type.elements = m.elements := by
  obtain ⟨elements, attributes⟩ := m
  cases elements with
  | nil => rfl
  | cons e rest => rfl

theorem attributes_type (m : Members) : m.type.attributes = m.attributes := rfl

theorem name_of_element? {e : Element} (h : p.element? required = some e) : e.name = p.name := by
  obtain ⟨name, schema, node, flag⟩ := p
  cases node with
  | complex type =>
    cases h
    rfl
  | simple typeName =>
    cases flag with
    | true => cases h
    | false =>
      cases h
      rfl

theorem name_of_attribute? {a : Attribute} (h : p.attribute? required = some a) :
    a.name = p.name := by
  obtain ⟨name, schema, node, flag⟩ := p
  cases node with
  | complex type => cases h
  | simple typeName =>
    cases flag with
    | true =>
      cases h
      rfl
    | false => cases h

theorem minOccurs_of_element? {e : Element} (h : p.element? required = some e) :
    e.minOccurs = if p.name ∈ required then none else some 0 := by
  obtain ⟨name, schema, node, flag⟩ := p
  cases node with
  | complex type =>
    cases h
    simp only [Element.minOccurs, List.contains_iff_mem]
  | simple typeName =>
    cases flag with
    | true => cases h
    | false =>
      cases h
      simp only [Element.minOccurs, List.contains_iff_mem]

theorem isRequired_of_attribute? {a : Attribute} (h : p.attribute? required = some a) :
    a.isRequired = true ↔ p.name ∈ required := by
  obtain ⟨name, schema, node, flag⟩ := p
  cases node with
  | complex type => cases h
  | simple typeName =>
    cases flag with
    | true =>
      cases h
      exact List.contains_iff_mem
    | false => cases h

/-- A part gives an element or an attribute, and not both. -/
theorem element?_or_attribute? (required : List String) (p : Part) :
    (∃ e, p.element? required = some e ∧ p.attribute? required = none) ∨
      ∃ a, p.attribute? required = some a ∧ p.element? required = none := by
  obtain ⟨name, schema, node, flag⟩ := p
  cases node with
  | complex type => exact .inl ⟨_, rfl, rfl⟩
  | simple typeName =>
    cases flag with
    | false => exact .inl ⟨_, rfl, rfl⟩
    | true => exact .inr ⟨_, rfl, rfl⟩

/-- **Every part gives one member**, under its own name. -/
theorem memberNames_perm (required : List String) (parts : List Part) :
    ((parts.filterMap (Part.element? required)).map Element.name ++
      (parts.filterMap (Part.attribute? required)).map Attribute.name).Perm
        (parts.map Part.name) := by
  induction parts with
  | nil => exact .refl _
  | cons p rest ih =>
    rw [List.map_cons]
    rcases element?_or_attribute? required p with ⟨e, he, ha⟩ | ⟨a, ha, he⟩
    · rw [List.filterMap_cons_some he, List.filterMap_cons_none ha, List.map_cons,
        name_of_element? he]
      exact ih.cons p.name
    · rw [List.filterMap_cons_none he, List.filterMap_cons_some ha, List.map_cons,
        name_of_attribute? ha]
      exact List.perm_middle.trans (ih.cons p.name)

end Conversion
end XsdSynthesis
