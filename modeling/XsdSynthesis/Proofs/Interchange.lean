import XsdSynthesis.Proofs.Exchange

/-!
# XsdSynthesis.Proofs.Interchange

The two containers of definitions are interchangeable. In a schema with exchanged containers every
look-up finds in the other container what it found before, so the rules apply as before at exchanged
places, and what they give has no trace of the container: the document is the same
(`containers_interchangeable`).
-/

namespace XsdSynthesis

open Xsd Conversion

/-! ## Look-ups -/

namespace Schema

variable {f : String → String} {s t t' : Schema} {c : Container} {name r : String}

/-- A schema has the keywords of another one with mapped references, but for definitions. -/
def Maps (f : String → String) (t t' : Schema) : Prop :=
  ∀ kind, (∀ c, kind ≠ .definitions c) → t'.get? kind = (t.get? kind).map (Keyword.mapReferences f)

theorem maps_mapReferences (f : String → String) (t : Schema) : Maps f t (t.mapReferences f) :=
  fun kind _ => get?_mapReferences kind

theorem get?_exchangedContainers (kind : Kind) :
    s.exchangedContainers.get? kind.exchanged = (s.get? kind).map Keyword.exchangedContainer :=
  get?_map Kind.exchanged_injective Keyword.kind_exchangedContainer s kind

theorem maps_exchanged (s : Schema) : Maps s.exchangedReference s s.exchanged := by
  intro kind hkind
  have hget := get?_exchangedContainers (s := s.mapReferences s.exchangedReference) kind
  rw [Kind.exchanged_of_ne hkind, get?_mapReferences] at hget
  rw [exchanged, hget]
  cases hk : s.get? kind with
  | none => rfl
  | some k =>
    have hne : ∀ c, (k.mapReferences s.exchangedReference).kind ≠ .definitions c := by
      rw [kind_mapReferences, (mem_of_get? hk).2]
      exact hkind
    rw [Option.map_some, Option.map_some, Keyword.exchangedContainer_of_ne hne]

namespace Maps

theorem types? (h : Maps f t t') : t'.types? = t.types? := by
  rw [Schema.types?, Schema.types?, h .type (by simp)]
  cases t.get? .type with
  | none => rfl
  | some k => cases k <;> rfl

theorem reference? (h : Maps f t t') : t'.reference? = t.reference?.map f := by
  rw [Schema.reference?, Schema.reference?, h .ref (by simp)]
  cases t.get? .ref with
  | none => rfl
  | some k => cases k <;> rfl

theorem requiredNames (h : Maps f t t') : t'.requiredNames = t.requiredNames := by
  rw [Schema.requiredNames, Schema.requiredNames, h .required (by simp)]
  cases t.get? .required with
  | none => rfl
  | some k => cases k <;> rfl

theorem asksAttribute (h : Maps f t t') : t'.asksAttribute = t.asksAttribute := by
  rw [Schema.asksAttribute, Schema.asksAttribute, h .asAttribute (by simp)]
  cases t.get? .asAttribute with
  | none => rfl
  | some k => cases k <;> rfl

theorem properties (h : Maps f t t') :
    t'.properties = t.properties.map fun e => (e.1, e.2.mapReferences f) := by
  rw [Schema.properties, Schema.properties, h .properties (by simp)]
  cases t.get? .properties with
  | none => rfl
  | some k =>
    cases k with
    | properties entries => exact mapEntries_eq entries
    | _ => rfl

theorem declaredAttributes (h : Maps f t t') :
    Conversion.declaredAttributes t' = Conversion.declaredAttributes t := by
  rw [Conversion.declaredAttributes, Conversion.declaredAttributes, h .documentAttributes (by simp)]
  cases t.get? .documentAttributes with
  | none => rfl
  | some k => cases k <;> rfl

theorem declaredNamespaces (h : Maps f t t') :
    Conversion.declaredNamespaces t' = Conversion.declaredNamespaces t := by
  rw [Conversion.declaredNamespaces, Conversion.declaredNamespaces, h .namespaces (by simp)]
  cases t.get? .namespaces with
  | none => rfl
  | some k => cases k <;> rfl

end Maps

theorem combinators_exchanged (s : Schema) : s.exchanged.combinators =
    s.combinators.map fun c => (c.1, c.2.map (mapReferences s.exchangedReference)) := by
  rw [combinators, combinators, exchanged, exchangedContainers, mapReferences_eq, keywords_mk,
    keywords_mk, List.map_map, List.filterMap_map, List.map_filterMap]
  congr 1
  funext k
  cases k with
  | combinator c branches => exact congrArg (fun bs => some (c, bs)) (mapBranches_eq branches)
  | _ => rfl

/-- The other container has the definitions. -/
theorem definitions_exchanged (s : Schema) (c : Container) : s.exchanged.definitions c.other =
    (s.definitions c).map fun e => (e.1, e.2.mapReferences s.exchangedReference) := by
  have hget := get?_exchangedContainers (s := s.mapReferences s.exchangedReference) (.definitions c)
  rw [get?_mapReferences] at hget
  rw [definitions, definitions, exchanged,
    show Kind.definitions c.other = (Kind.definitions c).exchanged from rfl, hget]
  cases hk : s.get? (.definitions c) with
  | none => rfl
  | some k =>
    have hkind := (mem_of_get? hk).2
    cases k with
    | definitions c' entries => exact mapEntries_eq entries
    | _ => cases hkind

theorem definition?_exchanged (s : Schema) (c : Container) (name : String) :
    s.exchanged.definition? c.other name =
      (s.definition? c name).map (mapReferences s.exchangedReference) := by
  rw [definition?, definition?, definitions_exchanged, Tables.lookup_map]

/-- **A reference that points to a definition points to it in the other container.** -/
theorem target?_exchanged (h : s.target? r = some (c, name)) :
    s.exchanged.target? (s.exchangedReference r) = some (c.other, name) := by
  have hr : s.exchangedReference r = Pointer.exchangedText r := by
    rw [exchangedReference, h]
    rfl
  rw [hr]
  unfold target? at h ⊢
  split at h
  · rename_i hhead
    obtain ⟨hhead', htext⟩ := Pointer.ofText?_exchangedText hhead
    rw [if_pos hhead', htext]
    split at h
    · rename_i container n hp
      obtain ⟨c', hc', h⟩ := Option.bind_eq_some_iff.1 h
      obtain ⟨t, ht, h⟩ := Option.bind_eq_some_iff.1 h
      cases h
      cases Container.eq_name_of_ofName? hc'
      rw [hp, Option.map_some]
      simp only [Pointer.exchanged, exchangedName_name, Container.ofName?_name,
        definition?_exchanged, ht, Option.map_some, Option.bind_eq_bind, Option.bind_some]
      rfl
    · cases h
  · cases h

/-- Every name is defined once, and every reference at a definition points to a definition. -/
structure Linked (s : Schema) : Prop where
  once : ∀ {c : Container} {name : String} {t : Schema}, (name, t) ∈ s.definitions c →
    s.findDefinition? name = some (c, t)
  resolved : ∀ {c : Container} {name r : String} {t : Schema}, (name, t) ∈ s.definitions c →
    t.reference? = some r → ∃ c' n, s.target? r = some (c', n)

theorem findDefinition?_of_other (h : s.definition? c name = some t)
    (hother : s.definition? c.other name = none) : s.findDefinition? name = some (c, t) := by
  cases c with
  | defs => rw [findDefinition?, h]
  | definitions =>
    rw [findDefinition?, show s.definition? .defs name = none from hother, h]
    rfl

theorem findDefinition?_eq_none :
    s.findDefinition? name = none ↔ ∀ c, s.definition? c name = none := by
  constructor
  · intro h c
    rw [Option.eq_none_iff_forall_ne_some]
    intro t ht
    unfold findDefinition? at h
    cases c with
    | defs =>
      rw [ht] at h
      cases h
    | definitions =>
      rw [ht] at h
      split at h <;> cases h
  · intro h
    rw [findDefinition?, h .defs, h .definitions]
    rfl

/-- A name is defined by what defined it before, in the other container. -/
theorem Linked.findDefinition?_exchanged (h : s.Linked) (name : String) :
    s.exchanged.findDefinition? name = (s.findDefinition? name).map fun found =>
      (found.1.other, found.2.mapReferences s.exchangedReference) := by
  cases hf : s.findDefinition? name with
  | none =>
    refine findDefinition?_eq_none.2 fun c => ?_
    rw [← c.other_other, definition?_exchanged, findDefinition?_eq_none.1 hf]
    rfl
  | some found =>
    obtain ⟨c, t⟩ := found
    have hnone : s.definition? c.other name = none := by
      rw [Option.eq_none_iff_forall_ne_some]
      intro u hu
      have hc := (Prod.mk.inj (Option.some.inj (hf.symm.trans (h.once (Tables.mem_of_lookup hu))))).1
      cases c <;> cases hc
    refine findDefinition?_of_other ?_ ?_
    · rw [definition?_exchanged, definition?_of_findDefinition? hf]
      rfl
    · rw [definition?_exchanged, hnone]
      rfl

end Schema

/-! ## What subschemas become -/

/-- A source with exchanged containers. -/
def Source.exchanged (source : Source) : Source :=
  ⟨source.schema.exchanged, source.classifier.exchanged, source.options⟩

namespace Conversion

open Schema

variable {source : Source} {ns : Option String} {place : Pointer} {depth : Nat} {t t' : Schema}
  {made : Synthesized} {c : Container} {name : String}

theorem shapes_exchanged (source : Source) (place : Pointer) :
    source.exchanged.classifier.shapes place.exchanged = source.classifier.shapes place := by
  change source.classifier.shapes place.exchanged.exchanged = _
  rw [Pointer.exchanged_exchanged]

theorem OpensComplex.exchanged (h : OpensComplex source place t)
    (ht : Maps source.schema.exchangedReference t t') :
    OpensComplex source.exchanged place.exchanged t' := by
  have hshapes := shapes_exchanged source place
  refine ⟨hshapes ▸ h.shape, hshapes ▸ h.plain, ht.types? ▸ h.types, ?_⟩
  rw [ht.requiredNames, ht.properties, List.map_map]
  exact h.required

theorem OpensSimple.exchanged (h : OpensSimple source place) :
    OpensSimple source.exchanged place.exchanged := by
  have hshapes := shapes_exchanged source place
  exact ⟨hshapes ▸ h.notComplex, hshapes ▸ h.shape, hshapes ▸ h.plain⟩

theorem NamesType.exchanged {s : Schema} {typeName : Option QualifiedName}
    (h : NamesType s ns t typeName) (ht : Maps s.exchangedReference t t') :
    NamesType s.exchanged ns t' typeName := by
  have href := ht.reference?
  have htypes := ht.types?
  cases h with
  | untyped hr hno => exact .untyped (by rw [href, hr]; rfl) (htypes.trans hno)
  | primitive hr hv hb => exact .primitive (by rw [href, hr]; rfl) (htypes.trans hv) hb
  | reference hr hno htarget hns =>
    exact .reference (by rw [href, hr]; rfl) (htypes.trans hno) (target?_exchanged htarget) hns

/-- A part whose schema has mapped references. -/
def Part.mapReferences (f : String → String) (p : Part) : Part :=
  { p with schema := p.schema.mapReferences f }

theorem ofParts_mapReferences (f : String → String) (required : List String) (parts : List Part) :
    Members.ofParts required (parts.map (Part.mapReferences f)) = Members.ofParts required parts := by
  induction parts with
  | nil => rfl
  | cons p rest ih =>
    rw [List.map_cons, Members.ofParts, Members.ofParts, ih]
    rfl

theorem entries_mapReferences {f : String → String} {parts : List Part}
    (hparts : parts.map Part.entry = t.properties) (ht : Maps f t t') :
    (parts.map (Part.mapReferences f)).map Part.entry = t'.properties := by
  rw [ht.properties, ← hparts, List.map_map, List.map_map]
  rfl

theorem kinds_mapReferences {f : String → String} {kinds : List Kind}
    (h : ∀ k ∈ t.keywords, k.kind ∈ kinds) :
    ∀ k ∈ (t.mapReferences f).keywords, k.kind ∈ kinds := by
  rw [mapReferences_eq, keywords_mk]
  intro k hk
  obtain ⟨k', hk', rfl⟩ := List.mem_map.1 hk
  rw [kind_mapReferences]
  exact h k' hk'

/-- **A subschema becomes at the exchanged place what it became**, by induction on the rules. -/
theorem Becomes.exchanged (h : Becomes source ns place depth t made) :
    Becomes source.exchanged ns place.exchanged depth
      (t.mapReferences source.schema.exchangedReference) made := by
  induction h with
  | @complex place depth t parts hd ho hflag hkinds hparts hnames _ ih =>
    have ht := maps_mapReferences source.schema.exchangedReference t
    rw [← ofParts_mapReferences source.schema.exchangedReference, ← ht.requiredNames]
    refine .complex hd (ho.exchanged ht) (ht.asksAttribute.trans hflag) (kinds_mapReferences hkinds)
      (entries_mapReferences hparts ht) (fun p hp => ?_) fun p hp => ?_
    · obtain ⟨p', hp', rfl⟩ := List.mem_map.1 hp
      exact hnames p' hp'
    · obtain ⟨p', hp', rfl⟩ := List.mem_map.1 hp
      have hpart := ih p' hp'
      rwa [Pointer.exchanged_propertyPlace] at hpart
  | @simple place depth t typeName hd ho hkinds hname =>
    have ht := maps_mapReferences source.schema.exchangedReference t
    rw [← ht.asksAttribute]
    exact .simple hd ho.exchanged (kinds_mapReferences hkinds) (hname.exchanged ht)

/-! ## Chains of bases -/

theorem nextBase?_exchanged {s : Schema} (h : s.Linked) (hm : (name, t) ∈ s.definitions c)
    (place place' : Pointer) :
    nextBase? s.exchanged ns place' (t.mapReferences s.exchangedReference) =
      nextBase? s ns place t := by
  rw [nextBase?, nextBase?, (maps_mapReferences s.exchangedReference t).reference?]
  cases hr : t.reference? with
  | none => rfl
  | some r =>
    obtain ⟨c', n, htarget⟩ := h.resolved hm hr
    rw [Option.map_some, Option.bind_some, Option.bind_some, resolve, resolve,
      target?_exchanged htarget, htarget]
    cases ns <;> rfl

theorem link?_exchanged (h : source.schema.Linked) (current : String) :
    link? source.exchanged ns current = link? source ns current := by
  have hfind : source.exchanged.schema.findDefinition? current = _ :=
    h.findDefinition?_exchanged current
  rw [link?, link?, hfind]
  cases hf : source.schema.findDefinition? current with
  | none => rfl
  | some found =>
    obtain ⟨c, t⟩ := found
    have hshapes := shapes_exchanged source (definitionPlace c current)
    have hnext : nextBase? source.exchanged.schema ns _ _ = _ :=
      nextBase?_exchanged h (mem_of_findDefinition? hf) (definitionPlace c current)
        (definitionPlace c.other current)
    rw [Pointer.exchanged_definitionPlace] at hshapes
    simp only [Option.map_some, hshapes, hnext]

theorem checkBase_exchanged {item : String} {base : QualifiedName} {place' : Pointer}
    (h : source.schema.Linked) (hbase : checkBase source ns place item base = .ok ()) :
    checkBase source.exchanged ns place' item base = .ok () := by
  have hchain : checkChain source.exchanged ns item [item] base.name =
      checkChain source ns item [item] base.name := checkChain_of_links (link?_exchanged h) _ _
  unfold checkBase at hbase ⊢
  cases hns : base.ns with
  | some uri => rfl
  | none =>
    rw [hns] at hbase
    dsimp only at hbase ⊢
    rw [hchain]
    generalize checkChain source ns item [item] base.name = x at hbase
    cases x with
    | ok _ => rfl
    | error _ => cases hbase

/-! ## The root and its keywords -/

theorem BecomesItem.exchanged {item : Item} (hlinked : source.schema.Linked)
    (h : BecomesItem source ns c name t item) :
    BecomesItem source.exchanged ns c.other name
      (t.mapReferences source.schema.exchangedReference) item := by
  have hplace := Pointer.exchanged_definitionPlace c name
  cases h with
  | complex hname hbecomes => exact .complex hname (hplace ▸ hbecomes.exchanged)
  | simple hname hbecomes hbase =>
    exact .simple hname (hplace ▸ hbecomes.exchanged) (checkBase_exchanged hlinked hbase)

theorem BecomesMembers.exchanged {required : List String} {members : Members}
    (h : BecomesMembers source ns place depth required t.properties members)
    (ht : Maps source.schema.exchangedReference t t') :
    BecomesMembers source.exchanged ns place.exchanged depth required t'.properties members := by
  obtain ⟨parts, hparts, hnames, hbecomes, rfl⟩ := h
  refine ⟨_, entries_mapReferences hparts ht, fun p hp => ?_, fun p hp => ?_,
    (ofParts_mapReferences _ _ _).symm⟩
  · obtain ⟨p', hp', rfl⟩ := List.mem_map.1 hp
    exact hnames p' hp'
  · obtain ⟨p', hp', rfl⟩ := List.mem_map.1 hp
    have hpart := (hbecomes p' hp').exchanged
    rwa [Pointer.exchanged_propertyPlace] at hpart

theorem BecomesRoot.exchanged {e : Element} (h : BecomesRoot source ns e) :
    BecomesRoot source.exchanged ns e := by
  have hmaps := maps_exchanged source.schema
  have hcombinators := combinators_exchanged source.schema
  cases h with
  | complex hi hc ho hmembers =>
    refine .complex hi (hcombinators.trans (by rw [hc]; rfl)) (ho.exchanged hmaps) ?_
    have hsame := hmembers.exchanged hmaps
    rwa [← hmaps.requiredNames] at hsame
  | simple hi hc ho hname =>
    exact .simple hi (hcombinators.trans (by rw [hc]; rfl)) ho.exchanged (hname.exchanged hmaps)
  | @wrapped combinator r target n hi hp hc htarget hns =>
    have hp' : source.exchanged.schema.get? .properties = none := by
      rw [show source.exchanged.schema = source.schema.exchanged from rfl,
        hmaps .properties (by simp), hp]
      rfl
    exact .wrapped hi hp' (hcombinators.trans (by rw [hc]; rfl)) (target?_exchanged htarget) hns

/-- What the keyword of the root is in the exchanged schema. -/
def exchangedKeyword (s : Schema) (k : Keyword) : Keyword :=
  (k.mapReferences s.exchangedReference).exchangedContainer

theorem keywords_exchanged (s : Schema) :
    s.exchanged.keywords = s.keywords.map (exchangedKeyword s) := by
  rw [Schema.exchanged, exchangedContainers, mapReferences_eq, keywords_mk, keywords_mk, List.map_map]
  rfl

theorem kind_exchangedKeyword (s : Schema) (k : Keyword) :
    (exchangedKeyword s k).kind = k.kind.exchanged := by
  rw [exchangedKeyword, Keyword.kind_exchangedContainer, kind_mapReferences]

theorem isDispatched_exchanged (kind : Kind) : kind.exchanged.isDispatched = kind.isDispatched := by
  cases kind <;> rfl

theorem describesRoot_exchanged (kind : Kind) :
    kind.exchanged.describesRoot = kind.describesRoot := by
  cases kind <;> rfl

theorem notMem_exchanged {kind : Kind} {marked : List Kind} (h : kind ∉ marked) :
    kind.exchanged ∉ marked.map Kind.exchanged := by
  intro hm
  obtain ⟨other, ho, heq⟩ := List.mem_map.1 hm
  exact h (Kind.exchanged_injective heq ▸ ho)

theorem becomeItems_exchanged {entries : List (String × Schema)} {made : List Item}
    (hlinked : source.schema.Linked)
    (h : List.Forall₂ (fun e item => BecomesItem source ns c e.1 e.2 item) entries made) :
    List.Forall₂ (fun e item => BecomesItem source.exchanged ns c.other e.1 e.2 item)
      (mapEntries source.schema.exchangedReference entries) made := by
  rw [mapEntries_eq, List.forall₂_map_left_iff]
  exact h.imp fun e item => BecomesItem.exchanged hlinked

/-- **The keywords of the root become the same items**, by induction on the rules for them. -/
theorem BecomesItems.exchanged {marked : List Kind} {built final : Bool} {keywords : List Keyword}
    {items : List Item} (hlinked : source.schema.Linked)
    (h : BecomesItems source ns marked built keywords items final) :
    BecomesItems source.exchanged ns (marked.map Kind.exchanged) built
      (keywords.map (exchangedKeyword source.schema)) items final := by
  induction h with
  | nil => exact .nil
  | @pass marked built final k rest items hpass _ ih =>
    refine .pass ?_ ih
    rw [kind_exchangedKeyword, isDispatched_exchanged]
    exact hpass.imp_left List.mem_map_of_mem
  | info hm ha _ ih => exact .info (notMem_exchanged hm) ha ih
  | definitions hm hmade _ ih =>
    exact .definitions (notMem_exchanged hm) (becomeItems_exchanged hlinked hmade) ih
  | @root marked final k e rest items hm hd he _ ih =>
    have hkind := kind_exchangedKeyword source.schema k
    exact .root (hkind ▸ notMem_exchanged hm) (hkind ▸ (describesRoot_exchanged k.kind).trans hd)
      he.exchanged (hkind ▸ ih)
  | @again marked final k rest items hm hd _ ih =>
    have hkind := kind_exchangedKeyword source.schema k
    exact .again (hkind ▸ notMem_exchanged hm) (hkind ▸ (describesRoot_exchanged k.kind).trans hd)
      (hkind ▸ ih)

/-! ## The document -/

/-- What is converted is linked: no name is defined twice, and what refers at a definition is
resolved there. -/
theorem BecomesDocument.linked {d : Document} (hd : BecomesDocument source d) :
    source.schema.Linked := by
  refine ⟨hd.findDefinition?, fun {c name r t} hm hr => ?_⟩
  obtain ⟨item, _, hitem, _⟩ := hd.item_of_definition hm
  cases hitem with
  | complex _ hbecomes =>
    obtain ⟨_, _, hkinds, _⟩ := hbecomes.of_complex rfl
    exact absurd (hkinds _ (mem_of_reference? hr)) (show Kind.ref ∉ _ by decide)
  | simple _ hbecomes _ =>
    cases (hbecomes.of_simple rfl).2.2.2 with
    | primitive hno _ _ => cases hno.symm.trans hr
    | reference hr' _ htarget _ =>
      cases hr.symm.trans hr'
      exact ⟨_, _, htarget⟩

theorem rootKinds_exchanged (source : Source) : rootKinds source.exchanged = rootKinds source := by
  have hroot := shapes_exchanged source .root
  rw [Pointer.exchanged_root] at hroot
  rw [rootKinds, rootKinds, hroot]
  rfl

theorem BecomesAll.exchanged {all : List Item} (hlinked : source.schema.Linked)
    (h : BecomesAll source ns all) : BecomesAll source.exchanged ns all := by
  obtain ⟨items, built, hitems, hall⟩ := h
  have hitems' := hitems.exchanged hlinked
  rw [← keywords_exchanged] at hitems'
  refine ⟨items, built, hitems', ?_⟩
  rcases hall with hdone | ⟨hb, hi, e, he, hd⟩
  · exact .inl hdone
  · exact .inr ⟨hb, hi, e, he.exchanged, hd⟩

/-- **The exchanged source yields the same document.** -/
theorem Yields.exchanged {d : Document} (hlinked : source.schema.Linked) (h : Yields source d) :
    Yields source.exchanged d := by
  have hmaps := maps_exchanged source.schema
  refine ⟨hmaps.declaredAttributes ▸ h.accepted, hmaps.declaredAttributes ▸ h.attributes,
    hmaps.declaredNamespaces ▸ h.table, h.named, h.names, ?_, h.items.exchanged hlinked⟩
  rw [rootKinds_exchanged, show source.exchanged.schema = source.schema.exchanged from rfl,
    keywords_exchanged]
  intro k hk
  obtain ⟨k', hk', rfl⟩ := List.mem_map.1 hk
  rw [kind_exchangedKeyword, isDispatched_exchanged]
  by_cases hc : ∃ c, k'.kind = .definitions c
  · obtain ⟨c, hc⟩ := hc
    rw [hc]
    exact .inr (.inl rfl)
  · rw [Kind.exchanged_of_ne (not_exists.1 hc)]
    exact h.kinds k' hk'

end Conversion

/-- **The containers are interchangeable.** If a document converts, then it does so with the two
containers exchanged throughout: in the names of the root's members, in the references that point to
definitions, and in the pointers of the classification. The results are the same. -/
theorem containers_interchangeable {j : Json} (hj : j.Distinct) {c : Classification}
    {options : Options} {d : Document} (h : convertJson j c.classifier options = .ok d) :
    ∃ s, Schema.ofJson? j = .ok s ∧
      convertJson (j.exchanged s) c.exchanged.classifier options = .ok d := by
  obtain ⟨s, hs, hd⟩ := convertJson_ok h
  obtain ⟨s₁, hs₁, hyields⟩ := (convertJson_ok_iff hj).1 h
  cases hs.symm.trans hs₁
  have hexchanged := hyields.exchanged hd.linked
  refine ⟨s, hs, (convertJson_ok_iff (Json.distinct_exchanged hj s)).2
    ⟨s.exchanged, Schema.ofJson?_exchanged hs, ?_⟩⟩
  rw [c.classifier_exchanged]
  exact hexchanged

/-- Definitions in both containers, each of which is referred to from the other one. -/
def bothContainers : Json :=
  .obj [("$defs", .obj [("A", .obj [("$ref", .str "#/definitions/B")]),
      ("C", .obj [("properties", .obj [("x", .obj [("$ref", .str "#/$defs/A")])])])]),
    ("definitions", .obj [("B", .obj [("type", .str "string")])]),
    ("oneOf", .arr [.obj [("$ref", .str "#/$defs/C")]])]

def bothShapes : Classification :=
  { messageName := "Root", inlineRoot := false, table := .ofList
      [(⟨["$defs", "A"]⟩, .ofList [.simpleType]), (⟨["$defs", "C"]⟩, .ofList [.complexType]),
        (⟨["$defs", "C", "properties", "x"]⟩, .ofList [.simpleType]),
        (⟨["definitions", "B"]⟩, .ofList [.simpleType])] compare }

theorem containers_interchangeable_both :
    ∃ d, convertJson bothContainers bothShapes.classifier {} = .ok d ∧
      convertJson (.obj [("definitions", .obj [("A", .obj [("$ref", .str "#/$defs/B")]),
          ("C", .obj [("properties", .obj [("x", .obj [("$ref", .str "#/definitions/A")])])])]),
        ("$defs", .obj [("B", .obj [("type", .str "string")])]),
        ("oneOf", .arr [.obj [("$ref", .str "#/definitions/C")]])])
        bothShapes.exchanged.classifier {} = .ok d := by
  have hrun : (convertJson bothContainers bothShapes.classifier {}).toOption.any
      (fun _ => true) = true := by decide +kernel
  obtain ⟨d, hd, _⟩ := Checks.exists_of_any hrun
  have hs : Schema.ofJson? bothContainers = .ok (.mk [
      .definitions .defs [("A", .mk [.ref "#/definitions/B"]),
        ("C", .mk [.properties [("x", .mk [.ref "#/$defs/A"])]])],
      .definitions .definitions [("B", .mk [.type [.string]])],
      .combinator .oneOf [.mk [.ref "#/$defs/C"]]]) := by
    rfl
  obtain ⟨s, hs', hexchanged⟩ :=
    containers_interchangeable (Json.distinct_of_merged (by rfl)) hd
  cases hs.symm.trans hs'
  exact ⟨d, hd, hexchanged⟩

end XsdSynthesis
