import XsdSynthesis.Proofs.AttributeTypes
import XsdSynthesis.Proofs.Reading

/-!
# XsdSynthesis.Proofs.Kept

What it means that a keyword is kept: `Kept` says for each keyword what of the document stands for it, and
`MayIgnore` which keywords need not be kept where. Each rule keeps what it consumes: that of complex
types (`Fills.kept`), that of simple types (`NamesType.kept`), and the flag of attributes
(`kept_asAttribute`).
-/

namespace XsdSynthesis

open Xsd Conversion

variable {source : Source} {ns : Option String} {d : Document} {p : Pointer} {s t : Schema}
  {k : Keyword} {parts : List Part} {type : ComplexType}

/-! ## Keywords and what stands for them -/

def Requires (type : ComplexType) (name : String) : Prop :=
  (∃ e ∈ type.elements, e.name = name ∧ e.minOccurs = none) ∨
    ∃ a ∈ type.attributes, a.name = name ∧ a.isRequired = true

/-- The place has one complex type, and each entry is one member of it. -/
def Represented (s : Schema) (d : Document) (p : Pointer) (entries : List (String × Schema)) :
    Prop :=
  ∃ type, (∀ other, TypeAt s d p other ↔ other = type) ∧
    ∀ e ∈ entries, type.memberNames.count e.1 = 1

/-- What of the document stands for a keyword at a place. An attribute of the document that has an
unknown name is left out, but only if the options are not strict. -/
def Kept (source : Source) (d : Document) (p : Pointer) : Keyword → Prop
  | .type types => (types = [.object] ∧ ∃ type, TypeAt source.schema d p type) ∨
      ∃ v b, types = [v] ∧ v.primitive? = some b ∧ NameAt source.schema d p (.builtIn b)
  | .ref r => ∃ c name, source.schema.target? r = some (c, name) ∧
      NameAt source.schema d p (.plain name)
  | .combinator _ branches => ∃ r c name, branches = [.mk [.ref r]] ∧
      source.schema.target? r = some (c, name) ∧ NameAt source.schema d p (.plain name)
  | .properties entries => Represented source.schema d p entries
  | .required names => ∃ type, TypeAt source.schema d p type ∧ ∀ n ∈ names, Requires type n
  | .asAttribute flag => flag = true ↔ ∃ q type a, p = propertyPlace q a.name ∧
      TypeAt source.schema d q type ∧ a ∈ type.attributes
  | .definitions _ entries => ∀ e ∈ entries, e.1 ∈ d.declaredNames
  | .info entries => ∃ a, documentationOf entries = .ok a ∧ .documentation a ∈ d.items
  | .namespaces bindings => bindings <+: d.namespaces
  | .documentAttributes attributes => ∀ a ∈ attributes,
      (∃ v, attributeValue? a.1 a.2 = some v ∧ d.attribute? a.1 = some v) ∨
        a.1 ∉ attributeNames ∧ source.options.strictAttributes = false
  | .schema _ | .id _ | .unknown .. => False

/-- Whether a keyword at a place may be ignored. -/
def MayIgnore (source : Source) (p : Pointer) : Keyword → Prop
  | .schema _ | .id _ => True
  | .namespaces _ | .documentAttributes _ => p ≠ .root
  | .type _ => p = .root ∧ source.classifier.inlineRoot = false
  | _ => False

/-! ## Types of places -/

theorem Fills.memberNames (h : Fills source ns p t parts type) :
    type.memberNames.Perm (t.properties.map Prod.fst) := by
  have hnames : t.properties.map Prod.fst = parts.map Part.name := by
    rw [← h.entries, List.map_map]
    rfl
  rw [ComplexType.memberNames, h.elements, h.attributes, hnames]
  exact memberNames_perm _ _

theorem element_unique (hn : type.memberNames.Nodup) {e e' : Element} (he : e ∈ type.elements)
    (he' : e' ∈ type.elements) (h : e.name = e'.name) : e = e' :=
  List.inj_on_of_nodup_map (List.nodup_append.1 hn).1 he he' h

theorem TypeAt.memberNames_nodup (hd : BecomesDocument source d) (hs : source.schema.IsRead)
    (h : TypeAt source.schema d p type) : type.memberNames.Nodup := by
  obtain ⟨t, parts, hreached, hfills⟩ := TypeAt.fills hd h
  exact hfills.memberNames.nodup_iff.2 (hreached.position.isRead hs).properties_nodup

/-- **A place has one complex type**, by induction on where it stands in the document. -/
theorem TypeAt.unique (hd : BecomesDocument source d) (hs : source.schema.IsRead)
    {other : ComplexType} (h : TypeAt source.schema d p type) (h' : TypeAt source.schema d p other) :
    type = other := by
  induction h generalizing other with
  | root he htype =>
    generalize hp : Pointer.root = q at h'
    cases h' with
    | root he' htype' =>
      rw [hd.element_unique he he', htype'] at htype
      exact (Option.some.inj htype).symm
    | named hi =>
      obtain ⟨c, name, _, hhome⟩ := hd.home_of_complexType hi
      exact absurd (hhome.symm.trans hp.symm) (definitionPlace_ne_root _ _)
    | nested _ _ _ => exact absurd hp.symm (propertyPlace_ne_root _ _)
  | named hi =>
    obtain ⟨c, name, hname, hhome⟩ := hd.home_of_complexType hi
    rw [hhome] at h'
    generalize hp : definitionPlace c name = q at h'
    cases h' with
    | root _ _ => exact absurd hp (definitionPlace_ne_root _ _)
    | named hi' =>
      obtain ⟨c', name', hname', hhome'⟩ := hd.home_of_complexType hi'
      obtain ⟨_, rfl⟩ := definitionPlace_inj (hp.trans hhome')
      cases hd.eq_of_declaredName hi hi' hname hname'
      rfl
    | nested _ _ _ => exact absurd hp (definitionPlace_ne_propertyPlace _ _ _ _)
  | @nested p parent type e hparent he htype ih =>
    generalize hp : propertyPlace p e.name = q at h'
    cases h' with
    | root _ _ => exact absurd hp (propertyPlace_ne_root _ _)
    | named hi =>
      obtain ⟨c, name, _, hhome⟩ := hd.home_of_complexType hi
      exact absurd (hhome.symm.trans hp.symm) (definitionPlace_ne_propertyPlace _ _ _ _)
    | nested hparent' he' htype' =>
      obtain ⟨rfl, hname⟩ := propertyPlace_inj hp
      cases ih hparent'
      have hn := TypeAt.memberNames_nodup hd hs hparent
      rw [element_unique hn he he' hname, htype'] at htype
      exact (Option.some.inj htype).symm

/-! ## What the rules keep -/

theorem Fills.exists_part (h : Fills source ns p t parts type) {name : String}
    (hn : name ∈ t.properties.map Prod.fst) : ∃ part ∈ parts, part.name = name := by
  rw [← h.entries, List.map_map] at hn
  exact List.mem_map.1 hn

theorem Fills.requires (h : Fills source ns p t parts type) {name : String}
    (hn : name ∈ t.requiredNames) : Requires type name := by
  obtain ⟨part, hm, rfl⟩ := h.exists_part (h.opens.required name hn)
  rcases element?_or_attribute? t.requiredNames part with ⟨e, he, _⟩ | ⟨a, ha, _⟩
  · left
    rw [h.elements]
    exact ⟨e, List.mem_filterMap.2 ⟨part, hm, he⟩, name_of_element? he,
      (minOccurs_of_element? he).trans (if_pos hn)⟩
  · right
    rw [h.attributes]
    exact ⟨a, List.mem_filterMap.2 ⟨part, hm, ha⟩, name_of_attribute? ha,
      (isRequired_of_attribute? ha).2 hn⟩

/-- **The rule of complex types keeps what it consumes.** -/
theorem Fills.kept (hd : BecomesDocument source d) (hs : source.schema.IsRead) (ht : t.IsRead)
    (htype : TypeAt source.schema d p type) (hfills : Fills source ns p t parts type)
    (hk : k ∈ t.keywords) (hkind : k.kind ∈ [.type, .required, .properties]) :
    Kept source d p k := by
  cases k with
  | type types =>
    have htypes := ht.types?_eq hk
    rcases hfills.opens.types with hnone | hobject
    · cases hnone.symm.trans htypes
    · cases hobject.symm.trans htypes
      exact .inl ⟨rfl, type, htype⟩
  | required names =>
    exact ⟨type, htype, fun n hn => hfills.requires (ht.requiredNames_eq hk ▸ hn)⟩
  | properties entries =>
    refine ⟨type, fun other => ⟨fun ho => TypeAt.unique hd hs ho htype, ?_⟩, fun e he => ?_⟩
    · rintro rfl
      exact htype
    · have hn := TypeAt.memberNames_nodup hd hs htype
      refine List.count_eq_one_of_mem hn (hfills.memberNames.mem_iff.2 ?_)
      rw [ht.properties_eq hk]
      exact List.mem_map.2 ⟨e, he, rfl⟩
  | _ => exact absurd hkind (by simp [Keyword.kind])

/-- **The rule of simple types keeps what it consumes.** -/
theorem NamesType.kept {typeName : Option QualifiedName} (ht : t.IsRead)
    (hname : NamesType source.schema ns t typeName)
    (hat : ∀ q, typeName = some q → NameAt source.schema d p q) (hk : k ∈ t.keywords)
    (hkind : k.kind ∈ [.ref, .type]) : Kept source d p k := by
  cases k with
  | type types =>
    have htypes := ht.types?_eq hk
    cases hname with
    | untyped _ hno =>
      rw [hno] at htypes
      cases htypes
    | primitive _ hv hb =>
      cases hv.symm.trans htypes
      exact .inr ⟨_, _, rfl, hb, hat _ rfl⟩
    | reference _ hno _ _ =>
      rw [hno] at htypes
      cases htypes
  | ref r =>
    have href := ht.reference?_eq hk
    cases hname with
    | untyped hno _ =>
      rw [hno] at href
      cases href
    | primitive hno _ _ =>
      rw [hno] at href
      cases href
    | reference hr _ htarget _ =>
      cases hr.symm.trans href
      exact ⟨_, _, htarget, hat _ rfl⟩
  | _ => exact absurd hkind (by simp [Keyword.kind])

/-- A property is an attribute in the document exactly if it asks for it. -/
theorem kept_asAttribute {flag : Bool} (hd : BecomesDocument source d)
    (hs : source.schema.IsRead) (h : Reached source p t) (hk : .asAttribute flag ∈ t.keywords) :
    Kept source d p (.asAttribute flag) := by
  have hflag := (h.position.isRead hs).asksAttribute_eq hk
  constructor
  · rintro rfl
    obtain ⟨q, type, a, hp, htype, ha, _⟩ := attribute_of_property hd h hflag
    exact ⟨q, type, a, hp, htype, ha⟩
  · rintro ⟨q, type, a, rfl, htype, ha⟩
    obtain ⟨u, hu, hask, _⟩ := property_of_attribute hd htype ha
    rw [Position.unique hs h.position hu.position] at hflag
    exact hflag.symm.trans hask

theorem Shown.nameAt {flag : Bool} {q : QualifiedName}
    (h : Shown s d p ⟨.simple (some q), flag⟩) : NameAt s d p q := by
  generalize hmade : (⟨.simple (some q), flag⟩ : Synthesized) = made at h
  cases h with
  | complex _ _ _ => cases hmade
  | base hi hp =>
    cases hmade
    rw [hp]
    exact .base hi
  | onElement htype he _ =>
    simp only [Synthesized.mk.injEq, Node.simple.injEq] at hmade
    exact .onElement htype he hmade.1.symm
  | onAttribute htype ha =>
    simp only [Synthesized.mk.injEq, Node.simple.injEq] at hmade
    exact .onAttribute htype ha hmade.1.symm

end XsdSynthesis
