import XsdSynthesis.Proofs.QualifiedNames

/-!
# XsdSynthesis.Proofs.StartTags

The start tags that a document is written with. All but the outermost bear a tag and attributes of a
small vocabulary, and their values are the texts of the document, its type names as they are
written, and numbers (`fits_itemXml`).
-/

namespace XsdSynthesis
namespace Xsd

/-! ## The texts of a document -/

mutual

/-- The names of an element and of all that it contains. -/
def Element.texts : Element → List String
  | .mk name _ _ complexType =>
    name :: match complexType with
      | some t => t.texts
      | none => []

def ComplexType.texts : ComplexType → List String
  | .mk name sequence attributes =>
    name.toList ++ (match sequence with
      | some elements => textsOf elements
      | none => []) ++ attributes.map Attribute.name

def textsOf : List Element → List String
  | [] => []
  | e :: rest => e.texts ++ textsOf rest

end

theorem mem_textsOf {s : String} {elements : List Element} :
    s ∈ textsOf elements ↔ ∃ e ∈ elements, s ∈ e.texts := by
  induction elements with
  | nil => simp [textsOf]
  | cons e rest ih => simp [textsOf, ih]

theorem ComplexType.mem_texts {s : String} {t : ComplexType} :
    s ∈ t.texts ↔ t.name = some s ∨ (∃ e ∈ t.elements, s ∈ e.texts) ∨
      ∃ a ∈ t.attributes, a.name = s := by
  obtain ⟨name, sequence, attributes⟩ := t
  cases sequence <;>
    simp [texts, mem_textsOf, ComplexType.name, elements, ComplexType.sequence,
      ComplexType.attributes, Option.mem_toList]

def Documentation.texts (a : Documentation) : List String :=
  a.parts.flatten.flatMap fun entry => [entry.name, entry.fixed]

def Item.texts : Item → List String
  | .documentation a => a.texts
  | .element e => e.texts
  | .complexType t => t.texts
  | .simpleType t => [t.name]

namespace Document

/-- The texts that are written as they are, below the outermost tag. -/
def texts (d : Document) : List String := d.items.flatMap Item.texts

/-! ## Start tags -/

/-- The names of XML Schema that the tags of a document stand for. -/
def tagNames : List String :=
  ["schema", "annotation", "documentation", "attribute", "element", "complexType", "sequence",
    "simpleType", "restriction"]

/-- The attributes of the tags below the outermost one. -/
def innerAttributes : List String := ["name", "minOccurs", "type", "use", "fixed", "base"]

/-- A start tag has a tag and attributes of the vocabulary, and values of some kind. -/
structure Fits (d : Document) (V : String → Prop) (x : String × List (String × String)) :
    Prop where
  tag : ∃ name ∈ tagNames, x.1 = d.tag name
  distinct : (x.2.map Prod.fst).Nodup
  names : ∀ n ∈ x.2.map Prod.fst, n ∈ innerAttributes
  values : ∀ v ∈ x.2.map Prod.snd, V v

/-- The values are of some kind: texts, type names as they are written, and what is fixed. -/
structure Values (d : Document) (V : String → Prop) (texts : List String)
    (typeNames : List QualifiedName) : Prop where
  number : ∀ n : Nat, V (toString n)
  required : V "required"
  text : ∀ s ∈ texts, V s
  typeName : ∀ q ∈ typeNames, V (d.lexical q)

variable {d : Document} {V : String → Prop} {texts : List String}
  {typeNames : List QualifiedName}

theorem Values.any (d : Document) (texts : List String) (typeNames : List QualifiedName) :
    Values d (fun _ => True) texts typeNames :=
  ⟨fun _ => trivial, trivial, fun _ _ => trivial, fun _ _ => trivial⟩

theorem Values.mono {texts' : List String} {typeNames' : List QualifiedName}
    (h : Values d V texts typeNames) (ht : texts' ⊆ texts) (hn : typeNames' ⊆ typeNames) :
    Values d V texts' typeNames' :=
  ⟨h.number, h.required, fun s hs => h.text s (ht hs), fun q hq => h.typeName q (hn hq)⟩

theorem Values.head {s : String} (h : Values d V (s :: texts) typeNames) : V s :=
  h.text s List.mem_cons_self

theorem fits_of {name : String} {attributes : List (String × String)} (h : name ∈ tagNames)
    (hn : (attributes.map Prod.fst).Sublist innerAttributes)
    (hv : ∀ v ∈ attributes.map Prod.snd, V v) : d.Fits V (d.tag name, attributes) :=
  ⟨⟨name, h, rfl⟩, hn.nodup (by decide), fun _ hm => hn.subset hm, hv⟩

/-- Every start tag of an element fits. -/
def AllFit (d : Document) (V : String → Prop) (e : Xml.Element) : Prop :=
  ∀ x ∈ e.starts, d.Fits V x

theorem allFit_leaf {name : String} {attributes : List (String × String)} (h : name ∈ tagNames)
    (hn : (attributes.map Prod.fst).Sublist innerAttributes)
    (hv : ∀ v ∈ attributes.map Prod.snd, V v) :
    d.AllFit V (.mk (d.tag name) attributes none) := by
  intro x hx
  rw [List.mem_singleton.1 hx]
  exact fits_of h hn hv

theorem allFit_content {name : String} {attributes : List (String × String)}
    {content : List Xml.Element} (h : name ∈ tagNames)
    (hn : (attributes.map Prod.fst).Sublist innerAttributes)
    (hv : ∀ v ∈ attributes.map Prod.snd, V v) (hc : ∀ e ∈ content, d.AllFit V e) :
    d.AllFit V (.mk (d.tag name) attributes (some content)) := by
  intro x hx
  rcases List.mem_cons.1 hx with rfl | hx
  · exact fits_of h hn hv
  · obtain ⟨e, he, hx⟩ := Xml.Element.mem_startsOf.1 hx
    exact hc e he x hx

theorem allFit_attributeXml {a : Attribute}
    (h : Values d V [a.name] a.typeName.toList) : d.AllFit V (d.attributeXml a) := by
  obtain ⟨name, typeName, isRequired⟩ := a
  refine allFit_leaf (by decide) ?_ ?_
  · cases typeName <;> cases isRequired <;> simp [typeAttribute] <;> decide
  · intro v hv
    simp only [List.map_append, List.map_cons, List.mem_append, List.mem_cons] at hv
    rcases hv with (rfl | hv) | hv
    · exact h.head
    · obtain ⟨_, hm, rfl⟩ := List.mem_map.1 hv
      obtain ⟨q, hq, rfl⟩ := List.mem_map.1 hm
      exact h.typeName q hq
    · split at hv
      · cases List.mem_singleton.1 hv
        exact h.required
      · cases hv

theorem allFit_attributes {attributes : List Attribute}
    (h : Values d V (attributes.map Attribute.name) (attributes.flatMap (·.typeName.toList))) :
    ∀ x ∈ attributes.map d.attributeXml, d.AllFit V x := by
  intro x hx
  obtain ⟨a, ha, rfl⟩ := List.mem_map.1 hx
  refine allFit_attributeXml (h.mono ?_ ?_)
  · intro s hs
    exact List.mem_map.2 ⟨a, ha, (List.mem_singleton.1 hs).symm⟩
  · intro q hq
    exact List.mem_flatMap.2 ⟨a, ha, hq⟩

/-- The attributes of an element. -/
def elementAttributes (d : Document) (name : String) (minOccurs : Option Nat)
    (typeName : Option QualifiedName) : List (String × String) :=
  ("name", name) :: (minOccurs.toList.map fun n => ("minOccurs", toString n)) ++
    d.typeAttribute typeName

theorem names_elementAttributes (d : Document) (name : String) (minOccurs : Option Nat)
    (typeName : Option QualifiedName) :
    ((d.elementAttributes name minOccurs typeName).map Prod.fst).Sublist innerAttributes := by
  cases minOccurs <;> cases typeName <;> simp [elementAttributes, typeAttribute] <;> decide

theorem values_elementAttributes {name : String} {minOccurs : Option Nat}
    {typeName : Option QualifiedName} (h : Values d V [name] typeName.toList) :
    ∀ v ∈ (d.elementAttributes name minOccurs typeName).map Prod.snd, V v := by
  intro v hv
  simp only [elementAttributes, List.map_append, List.map_cons, List.mem_append,
    List.mem_cons] at hv
  rcases hv with (rfl | hv) | hv
  · exact h.head
  · obtain ⟨_, hm, rfl⟩ := List.mem_map.1 hv
    obtain ⟨n, _, rfl⟩ := List.mem_map.1 hm
    exact h.number n
  · obtain ⟨_, hm, rfl⟩ := List.mem_map.1 hv
    obtain ⟨q, hq, rfl⟩ := List.mem_map.1 hm
    exact h.typeName q hq

theorem names_nameAttribute (name : Option String) :
    ((name.toList.map fun n => ("name", n)).map Prod.fst).Sublist innerAttributes := by
  cases name with
  | none => simp
  | some n => exact (by decide : ["name"].Sublist innerAttributes)

theorem values_nameAttribute {name : Option String} (h : Values d V name.toList typeNames) :
    ∀ v ∈ (name.toList.map fun n => ("name", n)).map Prod.snd, V v := by
  intro v hv
  obtain ⟨_, hm, rfl⟩ := List.mem_map.1 hv
  obtain ⟨n, hn, rfl⟩ := List.mem_map.1 hm
  exact h.text n hn

mutual

theorem allFit_elementXml : ∀ e : Element, Values d V e.texts e.typeNames →
    d.AllFit V (d.elementXml e)
  | .mk name minOccurs typeName none, h => by
    have hown : Values d V [name] typeName.toList :=
      h.mono (List.subset_append_left [name] _) (List.subset_append_left _ _)
    rw [elementXml]
    exact allFit_leaf (by decide) (names_elementAttributes d name minOccurs typeName)
      (values_elementAttributes hown)
  | .mk name minOccurs typeName (some t), h => by
    have hown : Values d V [name] typeName.toList :=
      h.mono (List.subset_append_left [name] _) (List.subset_append_left _ _)
    have htype : Values d V t.texts t.typeNames :=
      h.mono (List.subset_append_right [name] _) (List.subset_append_right _ _)
    rw [elementXml]
    exact allFit_content (by decide) (names_elementAttributes d name minOccurs typeName)
      (values_elementAttributes hown) (List.forall_mem_singleton.2 (allFit_complexTypeXml t htype))

theorem allFit_complexTypeXml : ∀ t : ComplexType, Values d V t.texts t.typeNames →
    d.AllFit V (d.complexTypeXml t)
  | .mk name none attributes, h => by
    have hown : Values d V name.toList _ := h.mono (by simp [ComplexType.texts]) (List.Subset.refl _)
    have hattributes : Values d V (attributes.map Attribute.name)
        (attributes.flatMap (·.typeName.toList)) :=
      h.mono (List.subset_append_right _ _) (List.subset_append_right _ _)
    rw [complexTypeXml]
    split
    · exact allFit_leaf (by decide) (names_nameAttribute name) (values_nameAttribute hown)
    · exact allFit_content (by decide) (names_nameAttribute name) (values_nameAttribute hown)
        (allFit_attributes hattributes)
  | .mk name (some elements) attributes, h => by
    have hown : Values d V name.toList _ := h.mono (by simp [ComplexType.texts]) (List.Subset.refl _)
    have hattributes : Values d V (attributes.map Attribute.name)
        (attributes.flatMap (·.typeName.toList)) :=
      h.mono (List.subset_append_right _ _) (List.subset_append_right _ _)
    have helements : Values d V (textsOf elements) (typeNamesOf elements) :=
      h.mono (by simp [ComplexType.texts]) (List.subset_append_left _ _)
    rw [complexTypeXml]
    refine allFit_content (by decide) (names_nameAttribute name) (values_nameAttribute hown)
      (List.forall_mem_cons.2 ⟨?_, allFit_attributes hattributes⟩)
    exact allFit_content (by decide) (by decide) nofun (allFit_elementsXml elements helements)

theorem allFit_elementsXml : ∀ es : List Element, Values d V (textsOf es) (typeNamesOf es) →
    ∀ x ∈ d.elementsXml es, d.AllFit V x
  | [], _, x, hx => by cases hx
  | e :: rest, h, x, hx => by
    rcases List.mem_cons.1 hx with rfl | hx
    · exact allFit_elementXml e (h.mono (List.subset_append_left _ _) (List.subset_append_left _ _))
    · exact allFit_elementsXml rest
        (h.mono (List.subset_append_right _ _) (List.subset_append_right _ _)) x hx

end

theorem allFit_documentationXml {a : Documentation} (h : ∀ s ∈ a.texts, V s) :
    d.AllFit V (d.documentationXml a) := by
  refine allFit_content (by decide) (by decide) nofun (List.forall_mem_map.2 fun part hp => ?_)
  refine allFit_content (by decide) (by decide) nofun (List.forall_mem_map.2 fun entry he => ?_)
  have hnames : ["name", "fixed"].Sublist innerAttributes := by decide
  refine allFit_leaf (by decide) hnames fun v hv => h v ?_
  exact List.mem_flatMap.2 ⟨entry, List.mem_flatten.2 ⟨part, hp, he⟩, hv⟩

/-- **The start tags of an item fit.** -/
theorem allFit_itemXml : ∀ item : Item, Values d V item.texts item.typeNames →
    d.AllFit V (d.itemXml item)
  | .documentation a, h => allFit_documentationXml h.text
  | .element e, h => allFit_elementXml e h
  | .complexType t, h => allFit_complexTypeXml t h
  | .simpleType t, h => by
    have hname : ["name"].Sublist innerAttributes := by decide
    have hbase : ["base"].Sublist innerAttributes := by decide
    refine allFit_content (by decide) hname ?_ (List.forall_mem_singleton.2 ?_)
    · exact List.forall_mem_singleton.2 h.head
    · refine allFit_leaf (by decide) hbase (List.forall_mem_singleton.2 ?_)
      exact h.typeName _ List.mem_cons_self

/-- The start tags of a document: the outermost one, and those of its items. -/
theorem mem_starts_toXml {x : String × List (String × String)} :
    x ∈ d.toXml.starts ↔
      x = (d.tag "schema", d.attributesXml) ∨ ∃ item ∈ d.items, x ∈ (d.itemXml item).starts := by
  unfold toXml
  split
  · rename_i hnil
    simp [Xml.Element.starts, List.isEmpty_iff.1 hnil]
  · simp [Xml.Element.starts, Xml.Element.mem_startsOf]

/-- **Every start tag is the outermost one, or fits.** -/
theorem fits_toXml (h : Values d V d.texts d.typeNames) {x : String × List (String × String)}
    (hx : x ∈ d.toXml.starts) : x = (d.tag "schema", d.attributesXml) ∨ d.Fits V x := by
  rcases mem_starts_toXml.1 hx with rfl | ⟨item, hi, hx⟩
  · exact .inl rfl
  · refine .inr (allFit_itemXml item (h.mono ?_ ?_) x hx)
    · exact fun s hs => List.mem_flatMap.2 ⟨item, hi, hs⟩
    · exact fun q hq => List.mem_flatMap.2 ⟨item, hi, hq⟩

/-- Every tag stands for a name of the vocabulary. -/
theorem mem_tags_toXml {tag : String} (h : tag ∈ d.toXml.tags) :
    ∃ name ∈ tagNames, tag = d.tag name := by
  obtain ⟨x, hx, rfl⟩ := List.mem_map.1 h
  rcases fits_toXml (.any d d.texts d.typeNames) hx with rfl | hfits
  · exact ⟨"schema", by decide, rfl⟩
  · exact hfits.tag

end Document
end Xsd
end XsdSynthesis
