import XsdSynthesis.Proofs.Rules

/-!
# XsdSynthesis.Proofs.Places

Places of a schema document, and what stands for them in an XML Schema document. A `Position` is a
place where a subschema stands; it is `Reached` if synthesis comes there. In the other document
`TypeAt` finds the complex type of a place, and `NameAt` the type name: the root element stands
for the root, a top-level type for its definition, and an element or attribute for the property
of its name. Every complex type and every type name of a document stands for some place.
-/

namespace XsdSynthesis

open Xsd Conversion

namespace Xsd

/-- The name of the type that an item declares. -/
def Item.declaredName? : Item → Option String
  | .complexType t => t.name
  | .simpleType t => some t.name
  | _ => none

def Item.isType : Item → Bool
  | .complexType _ | .simpleType _ => true
  | _ => false

def Item.element? : Item → Option Element
  | .element e => some e
  | _ => none

namespace Document

def declaredNames (d : Document) : List String := d.items.filterMap Item.declaredName?

def addItems (d : Document) (items : List Item) : Document := { d with items := d.items ++ items }

@[simp] theorem addItems_nil (d : Document) : d.addItems [] = d := by
  simp [addItems]

@[simp] theorem addItems_addItems (d : Document) (items more : List Item) :
    (d.addItems items).addItems more = d.addItems (items ++ more) := by
  simp [addItems, List.append_assoc]

@[simp] theorem items_addItems (d : Document) (items : List Item) :
    (d.addItems items).items = d.items ++ items := rfl

@[simp] theorem namespaceOf?_addItems (d : Document) (items : List Item) (p : String) :
    (d.addItems items).namespaceOf? p = d.namespaceOf? p := rfl

@[simp] theorem declaredNames_addItems (d : Document) (items : List Item) :
    (d.addItems items).declaredNames = d.declaredNames ++ items.filterMap Item.declaredName? := by
  simp [declaredNames]

theorem mem_of_rootElement? {d : Document} {e : Element} (h : d.rootElement? = some e) :
    .element e ∈ d.items := by
  obtain ⟨item, hi, he⟩ := List.exists_of_findSome?_eq_some h
  cases item with
  | element e' =>
    cases he
    exact hi
  | _ => cases he

theorem mem_of_complexType? {d : Document} {name : String} {t : ComplexType}
    (h : d.complexType? name = some t) : .complexType t ∈ d.items ∧ t.name = some name := by
  obtain ⟨item, hi, ht⟩ := List.exists_of_findSome?_eq_some h
  cases item with
  | complexType t' =>
    obtain ⟨hname, ht⟩ := Option.ite_none_right_eq_some.1 ht
    cases ht
    exact ⟨hi, hname⟩
  | _ => cases ht

theorem mem_of_simpleType? {d : Document} {name : String} {t : SimpleType}
    (h : d.simpleType? name = some t) : .simpleType t ∈ d.items ∧ t.name = name := by
  obtain ⟨item, hi, ht⟩ := List.exists_of_findSome?_eq_some h
  cases item with
  | simpleType t' =>
    obtain ⟨hname, ht⟩ := Option.ite_none_right_eq_some.1 ht
    cases ht
    exact ⟨hi, hname⟩
  | _ => cases ht

theorem declaredNames_addItem {d : Document} {item : Item} (h : item.declaredName? = none) :
    (d.addItems [item]).declaredNames = d.declaredNames := by
  rw [declaredNames_addItems, List.filterMap_cons_none h, List.filterMap_nil, List.append_nil]

end Document

def ComplexType.memberNames (t : ComplexType) : List String :=
  t.elements.map Element.name ++ t.attributes.map Attribute.name

end Xsd

namespace Schema

/-- The place of the definition of the given name. -/
def home (s : Schema) (name : String) : Pointer :=
  match s.findDefinition? name with
  | some (c, _) => definitionPlace c name
  | none => .root

end Schema

/-! ## Places apart -/

theorem definitionPlace_ne_root (c : Container) (name : String) :
    definitionPlace c name ≠ .root := by
  intro h
  have := congrArg Pointer.segments h
  simp [definitionPlace, Pointer.append, Pointer.root] at this

theorem propertyPlace_ne_root (p : Pointer) (name : String) : propertyPlace p name ≠ .root := by
  intro h
  have := congrArg Pointer.segments h
  simp [propertyPlace, Pointer.append, Pointer.root] at this

theorem definitionPlace_inj {c c' : Container} {name name' : String}
    (h : definitionPlace c name = definitionPlace c' name') : c = c' ∧ name = name' := by
  have := congrArg Pointer.segments h
  simp only [definitionPlace, Pointer.append, Pointer.root, List.nil_append, List.cons.injEq,
    and_true] at this
  obtain ⟨hc, hn⟩ := this
  have hsome := congrArg Container.ofName? hc
  rw [Container.ofName?_name, Container.ofName?_name] at hsome
  exact ⟨Option.some.inj hsome, hn⟩

theorem propertyPlace_inj {p p' : Pointer} {name name' : String}
    (h : propertyPlace p name = propertyPlace p' name') : p = p' ∧ name = name' := by
  have := congrArg Pointer.segments h
  obtain ⟨hp, hn⟩ := List.append_inj' this rfl
  cases p
  cases p'
  simp only [List.cons.injEq, true_and, and_true] at hn
  exact ⟨congrArg Pointer.mk hp, hn⟩

theorem definitionPlace_ne_propertyPlace (c : Container) (p : Pointer) (name name' : String) :
    definitionPlace c name ≠ propertyPlace p name' := by
  intro h
  have hs : [] ++ [c.name, name] = p.segments ++ ["properties", name'] :=
    congrArg Pointer.segments h
  obtain ⟨_, hl⟩ := List.append_inj' hs rfl
  simp only [List.cons.injEq, and_true] at hl
  cases c <;> exact absurd hl.1 (by decide)

/-! ## Positions and what stands for them -/

/-- A subschema stands at a place: the root, a definition, or a property of a subschema. -/
inductive Position (s : Schema) : Pointer → Schema → Prop where
  | root : Position s .root s
  | definition {c : Container} {entries : List (String × Schema)} {name : String} {t : Schema} :
      .definitions c entries ∈ s.keywords → (name, t) ∈ entries →
      Position s (definitionPlace c name) t
  | property {p : Pointer} {t u : Schema} {entries : List (String × Schema)} {name : String} :
      Position s p t → .properties entries ∈ t.keywords → (name, u) ∈ entries →
      Position s (propertyPlace p name) u

/-- Synthesis comes to a subschema: an inline root, a definition, or a property of a complex
subschema that it came to. -/
inductive Reached (source : Source) : Pointer → Schema → Prop where
  | root : source.classifier.inlineRoot = true → Reached source .root source.schema
  | definition {c : Container} {name : String} {t : Schema} :
      (name, t) ∈ source.schema.definitions c → Reached source (definitionPlace c name) t
  | property {p : Pointer} {t u : Schema} {name : String} : Reached source p t →
      (source.classifier.shapes p).isComplex = true → (name, u) ∈ t.properties →
      Reached source (propertyPlace p name) u

/-! ### Keywords behind the accessors -/

theorem mem_of_get? {s : Schema} {kind : Kind} {k : Keyword} (h : s.get? kind = some k) :
    k ∈ s.keywords ∧ k.kind = kind := by
  have hk := List.find?_some h
  exact ⟨List.mem_of_find?_eq_some h, by simpa using hk⟩

theorem Schema.mem_properties {s : Schema} {e : String × Schema} (h : e ∈ s.properties) :
    ∃ entries, .properties entries ∈ s.keywords ∧ e ∈ entries := by
  unfold Schema.properties at h
  split at h
  · rename_i entries hg
    exact ⟨entries, (mem_of_get? hg).1, h⟩
  · cases h

theorem Schema.mem_of_types? {s : Schema} {types : List ValueType} (h : s.types? = some types) :
    .type types ∈ s.keywords := by
  unfold Schema.types? at h
  split at h
  · rename_i types' hg
    cases h
    exact (mem_of_get? hg).1
  · cases h

theorem Schema.mem_of_reference? {s : Schema} {r : String} (h : s.reference? = some r) :
    .ref r ∈ s.keywords := by
  unfold Schema.reference? at h
  split at h
  · rename_i r' hg
    cases h
    exact (mem_of_get? hg).1
  · cases h

theorem Schema.mem_requiredNames {s : Schema} {name : String} (h : name ∈ s.requiredNames) :
    ∃ names, .required names ∈ s.keywords ∧ name ∈ names := by
  unfold Schema.requiredNames at h
  split at h
  · rename_i names hg
    exact ⟨names, (mem_of_get? hg).1, h⟩
  · cases h

theorem Schema.mem_of_asksAttribute {s : Schema} (h : s.asksAttribute = true) :
    .asAttribute true ∈ s.keywords := by
  unfold Schema.asksAttribute at h
  split at h
  · rename_i flag hg
    cases h
    exact (mem_of_get? hg).1
  · cases h

theorem Schema.mem_definitions {s : Schema} {c : Container} {e : String × Schema}
    (h : e ∈ s.definitions c) : ∃ entries, .definitions c entries ∈ s.keywords ∧ e ∈ entries := by
  unfold Schema.definitions at h
  split at h
  · rename_i c' entries hg
    obtain ⟨hm, hk⟩ := mem_of_get? hg
    cases hk
    exact ⟨entries, hm, h⟩
  · cases h

theorem Reached.position {source : Source} {p : Pointer} {t : Schema} (h : Reached source p t) :
    Position source.schema p t := by
  induction h with
  | root _ => exact .root
  | definition hm =>
    obtain ⟨entries, hk, he⟩ := Schema.mem_definitions hm
    exact .definition hk he
  | property _ _ hm ih =>
    obtain ⟨entries, hk, he⟩ := Schema.mem_properties hm
    exact .property ih hk he

/-! ### Types and names in the document -/

/-- The complex types of a document, at any depth, by the places they stand for. -/
inductive TypeAt (s : Schema) (d : Document) : Pointer → ComplexType → Prop where
  | root {e : Element} {type : ComplexType} : .element e ∈ d.items → e.complexType = some type →
      TypeAt s d .root type
  | named {type : ComplexType} : .complexType type ∈ d.items →
      TypeAt s d (s.home (type.name.getD "")) type
  | nested {p : Pointer} {parent type : ComplexType} {e : Element} : TypeAt s d p parent →
      e ∈ parent.elements → e.complexType = some type → TypeAt s d (propertyPlace p e.name) type

/-- The type names of a document, at any depth, by the places they stand for. -/
inductive NameAt (s : Schema) (d : Document) : Pointer → QualifiedName → Prop where
  | root {e : Element} {q : QualifiedName} : .element e ∈ d.items → e.typeName = some q →
      NameAt s d .root q
  | base {t : SimpleType} : .simpleType t ∈ d.items → NameAt s d (s.home t.name) t.base
  | onElement {p : Pointer} {parent : ComplexType} {e : Element} {q : QualifiedName} :
      TypeAt s d p parent → e ∈ parent.elements → e.typeName = some q →
      NameAt s d (propertyPlace p e.name) q
  | onAttribute {p : Pointer} {parent : ComplexType} {a : Attribute} {q : QualifiedName} :
      TypeAt s d p parent → a ∈ parent.attributes → a.typeName = some q →
      NameAt s d (propertyPlace p a.name) q

end XsdSynthesis
