import XsdSynthesis.Proofs.Kept

/-!
# XsdSynthesis.Proofs.Depiction

Complex types against the subschemas they stand for, at any depth. `Depicts` says for a complex type
what its members are: which properties are elements and which attributes, in which order, what is
optional, and what each member holds. It determines the type up to its name (`Depicts.unique`), and
every complex subschema that synthesis comes to is depicted by the one type at its place, and by no
type with other members (`reached_depicts`).
-/

namespace XsdSynthesis

open Xsd Conversion

/-- The names of the properties that ask to be attributes, or of those that do not, in source order. -/
def Schema.memberNames (t : Schema) (asAttribute : Bool) : List String :=
  (t.properties.filter fun e => e.2.asksAttribute == asAttribute).map Prod.fst

/-- What an element holds that stands for a subschema at a place: a nameless complex type if the place
has a complex shape, and a type name otherwise. -/
def Holds (source : Source) (ns : Option String) (p : Pointer) (t : Schema) (e : Element) : Prop :=
  if (source.classifier.shapes p).isComplex then
    e.typeName = none ∧ ∃ inner, e.complexType = some inner ∧ inner.name = none
  else e.complexType = none ∧ NamesType source.schema ns t e.typeName

/-- A complex type has the members that a subschema at a place asks for. -/
structure Outlines (source : Source) (ns : Option String) (p : Pointer) (t : Schema)
    (type : ComplexType) : Prop where
  elements : type.elements.map Element.name = t.memberNames false
  attributes : type.attributes.map Attribute.name = t.memberNames true
  sequence : type.sequence = none ↔ type.elements = []
  minOccurs : ∀ e ∈ type.elements, e.minOccurs = if e.name ∈ t.requiredNames then none else some 0
  isRequired : ∀ a ∈ type.attributes, a.isRequired = true ↔ a.name ∈ t.requiredNames
  holds : ∀ e ∈ type.elements, ∀ u, (e.name, u) ∈ t.properties →
    Holds source ns (propertyPlace p e.name) u e
  typed : ∀ a ∈ type.attributes, ∀ u, (a.name, u) ∈ t.properties →
    NamesType source.schema ns u a.typeName

/-- A complex type depicts a subschema at a place: it has the members that this asks for, and the
complex types inside its elements depict the properties. -/
inductive Depicts (source : Source) (ns : Option String) : Pointer → Schema → ComplexType → Prop where
  | mk {p : Pointer} {t : Schema} {type : ComplexType} : Outlines source ns p t type →
      (∀ e ∈ type.elements, ∀ u inner, (e.name, u) ∈ t.properties → e.complexType = some inner →
        Depicts source ns (propertyPlace p e.name) u inner) →
      Depicts source ns p t type

variable {source : Source} {ns : Option String} {p : Pointer} {depth : Nat} {t : Schema}
  {part : Part} {parts : List Part} {required : List String} {type : ComplexType}
  {made : Synthesized} {d : Document}

/-! ## What is depicted determines the type -/

theorem namesType_unique {s : Schema} {q q' : Option QualifiedName} (h : NamesType s ns t q)
    (h' : NamesType s ns t q') : q = q' := by
  cases h with
  | untyped hr ht =>
    cases h' with
    | untyped _ _ => rfl
    | primitive _ ht' _ => cases ht.symm.trans ht'
    | reference hr' _ _ _ => cases hr.symm.trans hr'
  | primitive hr ht hb =>
    cases h' with
    | untyped _ ht' => cases ht.symm.trans ht'
    | primitive _ ht' hb' =>
      cases ht.symm.trans ht'
      cases hb.symm.trans hb'
      rfl
    | reference hr' _ _ _ => cases hr.symm.trans hr'
  | reference hr _ htarget _ =>
    cases h' with
    | untyped hr' _ => cases hr.symm.trans hr'
    | primitive hr' _ _ => cases hr.symm.trans hr'
    | reference hr' _ htarget' _ =>
      cases hr.symm.trans hr'
      cases htarget.symm.trans htarget'
      rfl

theorem exists_property {name : String} {flag : Bool} (h : name ∈ t.memberNames flag) :
    ∃ u, (name, u) ∈ t.properties := by
  obtain ⟨e, he, rfl⟩ := List.mem_map.1 h
  exact ⟨e.2, (List.mem_filter.1 he).1⟩

theorem holds_unique {e e' : Element} (h : Holds source ns p t e) (h' : Holds source ns p t e')
    (hinner : ∀ i i', e.complexType = some i → e'.complexType = some i' →
      i.name = i'.name → i = i') :
    e.typeName = e'.typeName ∧ e.complexType = e'.complexType := by
  unfold Holds at h h'
  split at h
  · rename_i hc
    rw [if_pos hc] at h'
    obtain ⟨hnone, i, hi, hname⟩ := h
    obtain ⟨hnone', i', hi', hname'⟩ := h'
    rw [hinner i i' hi hi' (hname.trans hname'.symm)] at hi
    exact ⟨hnone.trans hnone'.symm, hi.trans hi'.symm⟩
  · rename_i hc
    rw [if_neg hc] at h'
    exact ⟨namesType_unique h.2 h'.2, h.1.trans h'.1.symm⟩

theorem element_ext {e e' : Element} (hname : e.name = e'.name) (hmin : e.minOccurs = e'.minOccurs)
    (htype : e.typeName = e'.typeName) (hcomplex : e.complexType = e'.complexType) : e = e' := by
  cases e
  cases e'
  cases hname
  cases hmin
  cases htype
  cases hcomplex
  rfl

theorem complexType_ext {other : ComplexType} (hname : type.name = other.name)
    (hsequence : type.sequence = other.sequence) (hattributes : type.attributes = other.attributes) :
    type = other := by
  cases type
  cases other
  cases hname
  cases hsequence
  cases hattributes
  rfl

theorem sequence_eq {other : ComplexType} (h : type.sequence = none ↔ type.elements = [])
    (h' : other.sequence = none ↔ other.elements = []) (he : type.elements = other.elements) :
    type.sequence = other.sequence := by
  obtain ⟨_, seq, _⟩ := type
  obtain ⟨_, seq', _⟩ := other
  simp only [ComplexType.sequence, ComplexType.elements] at h h' he ⊢
  cases seq with
  | none =>
    cases seq' with
    | none => rfl
    | some es' => exact (h'.2 he.symm).symm
  | some es =>
    cases seq' with
    | none => exact h.2 he
    | some es' => exact congrArg some he

/-- A subschema is depicted by one type, up to its name, by induction on the types inside. -/
theorem Depicts.unique {other : ComplexType} (h : Depicts source ns p t type)
    (h' : Depicts source ns p t other) :
    type.sequence = other.sequence ∧ type.attributes = other.attributes := by
  induction h generalizing other with
  | @mk p t type ho _ ih =>
    obtain ⟨ho', hinner'⟩ := h'
    have helements : type.elements = other.elements := by
      refine Tables.eq_of_map_eq (ho.elements.trans ho'.elements.symm) fun e he e' he' hname => ?_
      obtain ⟨u, hu⟩ := exists_property (ho.elements ▸ List.mem_map_of_mem he)
      have hu' : (e'.name, u) ∈ t.properties := hname ▸ hu
      have hholds' : Holds source ns (propertyPlace p e.name) u e' := hname ▸ ho'.holds e' he' u hu'
      obtain ⟨htypeName, hcomplex⟩ := holds_unique (ho.holds e he u hu) hholds' fun i i' hi hi' hn => by
        have hdepicts' := hinner' e' he' u i' hu' hi'
        rw [← hname] at hdepicts'
        obtain ⟨hseq, hattrs⟩ := ih e he u i hu hi hdepicts'
        exact complexType_ext hn hseq hattrs
      have hmin : e.minOccurs = e'.minOccurs := by
        rw [ho.minOccurs e he, ho'.minOccurs e' he', hname]
      exact element_ext hname hmin htypeName hcomplex
    refine ⟨sequence_eq ho.sequence ho'.sequence helements, ?_⟩
    refine Tables.eq_of_map_eq (ho.attributes.trans ho'.attributes.symm) fun a ha a' ha' hname => ?_
    obtain ⟨u, hu⟩ := exists_property (ho.attributes ▸ List.mem_map_of_mem ha)
    have htype := namesType_unique (ho.typed a ha u hu) (ho'.typed a' ha' u (hname ▸ hu))
    have hrequired : a.isRequired = a'.isRequired := by
      rw [Bool.eq_iff_iff, ho.isRequired a ha, ho'.isRequired a' ha', hname]
    cases a
    cases a'
    cases hname
    cases htype
    cases hrequired
    rfl

/-! ## One property -/

theorem asAttribute_of_becomes (h : Becomes source ns p depth t made) :
    made.asAttribute = t.asksAttribute := by
  cases h with
  | complex _ _ hflag _ _ _ _ => exact hflag.symm
  | simple _ _ _ _ => rfl

/-- A property that does not ask to be an attribute is an element. -/
theorem name_element? (h : Becomes source ns p depth part.schema part.made) :
    (part.element? required).map Element.name =
      if part.schema.asksAttribute == false then some part.name else none := by
  obtain ⟨name, schema, node, flag⟩ := part
  cases node with
  | complex inner =>
    rw [(h.of_complex rfl).2.1]
    rfl
  | simple typeName =>
    rw [← asAttribute_of_becomes h]
    cases flag <;> rfl

theorem name_attribute? (h : Becomes source ns p depth part.schema part.made) :
    (part.attribute? required).map Attribute.name =
      if part.schema.asksAttribute == true then some part.name else none := by
  obtain ⟨name, schema, node, flag⟩ := part
  cases node with
  | complex inner =>
    rw [(h.of_complex rfl).2.1]
    rfl
  | simple typeName =>
    rw [← asAttribute_of_becomes h]
    cases flag <;> rfl

theorem holds_of_becomes {e : Element} (h : Becomes source ns p depth part.schema part.made)
    (he : part.element? required = some e) : Holds source ns p part.schema e := by
  obtain ⟨name, schema, node, flag⟩ := part
  cases node with
  | complex inner =>
    cases he
    obtain ⟨ho, _, _, members, _, rfl⟩ := h.of_complex rfl
    rw [Holds, if_pos ho.shape]
    exact ⟨rfl, _, rfl, rfl⟩
  | simple typeName =>
    cases flag with
    | true => cases he
    | false =>
      cases he
      obtain ⟨ho, _, _, hname⟩ := h.of_simple rfl
      rw [Holds, if_neg (by simp [ho.notComplex])]
      exact ⟨rfl, hname⟩

/-! ## All properties -/

/-- The names of the properties with a flag, when each gives its name exactly if it has the flag. -/
theorem names_filterMap {α : Type} {member? : Part → Option α} {name : α → String} {flag : Bool}
    (hentries : parts.map Part.entry = t.properties)
    (h : ∀ part ∈ parts, (member? part).map name =
      if part.schema.asksAttribute == flag then some part.name else none) :
    (parts.filterMap member?).map name = t.memberNames flag := by
  rw [List.map_filterMap, List.filterMap_congr h, Schema.memberNames, ← hentries]
  clear h hentries
  induction parts with
  | nil => rfl
  | cons part rest ih =>
    simp only [List.filterMap_cons, List.map_cons, List.filter_cons, Part.entry]
    by_cases hflag : part.schema.asksAttribute == flag
    · simp only [hflag, if_true, List.map_cons, ih]
    · simp only [hflag]
      exact ih

theorem Fills.outlines (h : Fills source ns p t parts type) (hnodup : (t.properties.map Prod.fst).Nodup)
    (hsequence : type.sequence = none ↔ type.elements = []) : Outlines source ns p t type where
  elements := by
    rw [h.elements]
    refine names_filterMap h.entries fun part hm => ?_
    obtain ⟨depth, hbecomes⟩ := h.becomes part hm
    exact name_element? hbecomes
  attributes := by
    rw [h.attributes]
    refine names_filterMap h.entries fun part hm => ?_
    obtain ⟨depth, hbecomes⟩ := h.becomes part hm
    exact name_attribute? hbecomes
  sequence := hsequence
  minOccurs := by
    intro e he
    rw [h.elements] at he
    obtain ⟨part, hm, hpart⟩ := List.mem_filterMap.1 he
    rw [name_of_element? hpart, minOccurs_of_element? hpart]
  isRequired := by
    intro a ha
    rw [h.attributes] at ha
    obtain ⟨part, hm, hpart⟩ := List.mem_filterMap.1 ha
    rw [name_of_attribute? hpart, isRequired_of_attribute? hpart]
  holds := by
    intro e he u hu
    rw [h.elements] at he
    obtain ⟨part, hm, hpart⟩ := List.mem_filterMap.1 he
    rw [name_of_element? hpart] at hu ⊢
    cases Tables.eq_of_mem hnodup hu (h.property hm)
    obtain ⟨depth, hbecomes⟩ := h.becomes part hm
    exact holds_of_becomes hbecomes hpart
  typed := by
    intro a ha u hu
    rw [h.attributes] at ha
    obtain ⟨part, hm, hpart⟩ := List.mem_filterMap.1 ha
    rw [name_of_attribute? hpart] at hu
    cases Tables.eq_of_mem hnodup hu (h.property hm)
    obtain ⟨depth, hbecomes⟩ := h.becomes part hm
    rw [made_of_attribute hpart] at hbecomes
    exact (hbecomes.of_simple rfl).2.2.2

theorem Fills.depicts (h : Fills source ns p t parts type) (ht : t.IsRead)
    (hsequence : type.sequence = none ↔ type.elements = [])
    (hinner : ∀ part ∈ parts, ∀ inner, part.made.node = .complex inner →
      Depicts source ns (propertyPlace p part.name) part.schema inner) :
    Depicts source ns p t type := by
  refine .mk (h.outlines ht.properties_nodup hsequence) fun e he u inner hu htype => ?_
  rw [h.elements] at he
  obtain ⟨part, hm, hpart⟩ := List.mem_filterMap.1 he
  rw [name_of_element? hpart] at hu ⊢
  cases Tables.eq_of_mem ht.properties_nodup hu (h.property hm)
  exact hinner part hm inner (node_of_complexType hpart htype)

/-! ## Every depth -/

/-- Without elements there is no sequence. -/
theorem sequence_type (m : Members) : m.type.sequence = none ↔ m.type.elements = [] := by
  obtain ⟨elements, attributes⟩ := m
  cases elements with
  | nil => exact ⟨fun _ => rfl, fun _ => rfl⟩
  | cons e rest => exact ⟨nofun, nofun⟩

theorem sequence_withName (type : ComplexType) (name : String) :
    (type.withName name).sequence = type.sequence := by
  cases type
  rfl

theorem sequence_of_becomes {flag : Bool} (h : Becomes source ns p depth t ⟨.complex type, flag⟩) :
    type.sequence = none ↔ type.elements = [] := by
  obtain ⟨_, _, _, members, _, rfl⟩ := h.of_complex rfl
  exact sequence_type members

/-- A subschema that becomes a complex type is depicted by it, by induction on the rules. -/
theorem depicts_of_becomes (h : Becomes source ns p depth t made) (ht : t.IsRead) :
    ∀ type, made.node = .complex type → Depicts source ns p t type := by
  induction h with
  | @complex p depth t parts hd ho hflag hkinds hparts hnames hbecomes ih =>
    intro type hnode
    cases hnode
    have hfills : Fills source ns p t parts (Members.ofParts t.requiredNames parts).type :=
      fills_of_parts ho hparts fun part hm => ⟨_, hbecomes part hm⟩
    refine hfills.depicts ht (sequence_type _) fun part hm inner hn => ?_
    exact ih part hm (isRead_property ht (hfills.property hm)) inner hn
  | simple _ _ _ _ =>
    intro type hnode
    cases hnode

theorem sequence_of_typeAt (hd : BecomesDocument source d) (h : TypeAt source.schema d p type) :
    type.sequence = none ↔ type.elements = [] := by
  cases h with
  | root he htype =>
    cases hd.root_of_element he with
    | @complex members _ _ _ _ =>
      cases htype
      exact sequence_type members
    | simple _ _ _ _ => cases htype
    | wrapped _ _ _ _ _ => cases htype
  | named hi =>
    obtain ⟨c, name, t, hm, hitem⟩ := hd.definition_of_item hi rfl
    cases hitem with
    | @complex inner _ hbecomes =>
      rw [elements_withName, ← sequence_of_becomes hbecomes, sequence_withName]
  | nested hparent he htype =>
    obtain ⟨t, parts, _, hfills⟩ := TypeAt.fills hd hparent
    rw [hfills.elements] at he
    obtain ⟨part, hm, hpart⟩ := List.mem_filterMap.1 he
    obtain ⟨depth, hbecomes⟩ := hfills.becomes part hm
    have hnode := node_of_complexType hpart htype
    obtain ⟨name, schema, node, flag⟩ := part
    subst hnode
    exact sequence_of_becomes hbecomes

/-- **A complex type depicts what stands at its place.** -/
theorem TypeAt.depicts (hd : BecomesDocument source d) (hs : source.schema.IsRead)
    (hreached : Reached source p t) (h : TypeAt source.schema d p type) :
    Depicts source (d.namespaceOf? "") p t type := by
  obtain ⟨u, parts, hu, hfills⟩ := TypeAt.fills hd h
  cases Position.unique hs hreached.position hu.position
  refine hfills.depicts (hreached.position.isRead hs) (sequence_of_typeAt hd h) fun part hm inner hn => ?_
  obtain ⟨depth, hbecomes⟩ := hfills.becomes part hm
  have hproperty := Reached.property hreached hfills.opens.shape (hfills.property hm)
  exact depicts_of_becomes hbecomes (hproperty.position.isRead hs) inner hn

/-- **Complex subschemas are depicted at every depth.** Wherever a conversion comes to a subschema of
complex shape, the document has one type at that place, and this type depicts the subschema. A type
that differs from it in more than the name does not. -/
theorem reached_depicts {j : Json} (hj : j.Distinct) {classifier : Classifier} {options : Options}
    (h : convertJson j classifier options = .ok d) :
    ∃ s, Schema.ofJson? j = .ok s ∧
      ∀ p t, Reached ⟨s, classifier, options⟩ p t → (classifier.shapes p).isComplex = true →
        ∃ type, (∀ other, TypeAt s d p other ↔ other = type) ∧
          Depicts ⟨s, classifier, options⟩ (d.namespaceOf? "") p t type ∧
          ∀ other, Depicts ⟨s, classifier, options⟩ (d.namespaceOf? "") p t other →
            other.sequence = type.sequence ∧ other.attributes = type.attributes := by
  obtain ⟨s, hs, hd⟩ := convertJson_ok h
  refine ⟨s, hs, fun p t hreached hc => ?_⟩
  have hread : s.IsRead := ⟨_, _, hj, hs⟩
  obtain ⟨_, type, htype, _⟩ := hreached.typeAt hd hc
  have hdepicts := TypeAt.depicts hd hread hreached htype
  refine ⟨type, fun other => ⟨fun ho => TypeAt.unique hd hread ho htype, ?_⟩, hdepicts,
    fun other ho => ho.unique hdepicts⟩
  rintro rfl
  exact htype

/-- A root with an attribute, and an element that has elements of its own. -/
def twoLevels : Json :=
  .obj [("properties", .obj [("a", .obj [("type", .str "string"), ("@xsdAttribute", .bool true)]),
      ("b", .obj [("properties", .obj [("c", .obj [("$ref", .str "#/$defs/N")]), ("d", .obj [])]),
        ("required", .arr [.str "d"])])]),
    ("required", .arr [.str "a"]), ("$defs", .obj [("N", .obj [("type", .str "integer")])])]

/-- Complex shapes for the root and that element, simple ones everywhere else. -/
def twoComplex : Classifier :=
  ⟨"Root", true, fun p =>
    if p = .root ∨ p = ⟨["properties", "b"]⟩ then .ofList [.complexType] else .ofList [.simpleType]⟩

theorem reached_depicts_inner :
    ∃ s d t type, Schema.ofJson? twoLevels = .ok s ∧ convertJson twoLevels twoComplex {} = .ok d ∧
      Reached ⟨s, twoComplex, {}⟩ ⟨["properties", "b"]⟩ t ∧
      TypeAt s d ⟨["properties", "b"]⟩ type ∧
      Depicts ⟨s, twoComplex, {}⟩ (d.namespaceOf? "") ⟨["properties", "b"]⟩ t type ∧
      ∀ other, Depicts ⟨s, twoComplex, {}⟩ (d.namespaceOf? "") ⟨["properties", "b"]⟩ t other →
        other.sequence = type.sequence ∧ other.attributes = type.attributes := by
  have hrun : (convertJson twoLevels twoComplex {}).toOption.any (fun _ => true) = true := by
    decide +kernel
  have hread : (Schema.ofJson? twoLevels).toOption.any
      (fun s => (s.properties.lookup "b").isSome) = true := by decide +kernel
  obtain ⟨d, hd, _⟩ := Checks.exists_of_any hrun
  obtain ⟨s, hs, hb⟩ := Checks.exists_of_any hread
  obtain ⟨t, ht⟩ := Option.isSome_iff_exists.1 hb
  have hroot : (twoComplex.shapes .root).isComplex = true := by decide
  have hreached : Reached ⟨s, twoComplex, {}⟩ ⟨["properties", "b"]⟩ t :=
    .property (.root rfl) hroot (Tables.mem_of_lookup ht)
  obtain ⟨s', hs', hall⟩ := reached_depicts (Json.distinct_of_merged (by rfl)) hd
  cases hs.symm.trans hs'
  obtain ⟨type, htype, hdepicts, hsole⟩ := hall _ _ hreached (by decide)
  exact ⟨s, d, t, type, hs, hd, hreached, (htype type).2 rfl, hdepicts, hsole⟩

end XsdSynthesis
