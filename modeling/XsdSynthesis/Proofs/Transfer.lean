import XsdSynthesis.Proofs.Decision
import XsdSynthesis.Proofs.Likeness
import XsdSynthesis.Proofs.Members

/-!
# XsdSynthesis.Proofs.Transfer

What alike schemas become. `Xsd.Document.Alike` relates two documents that differ at most in orders;
if a subschema becomes a node, an alike one becomes a node that is alike (`Becomes.transfer`), and so
do definitions and the root. The checks on chains of bases come to the same end.
-/

namespace XsdSynthesis

open Json (Role)

/-! ## Documents -/

namespace Xsd

mutual

/-- Two elements are equal but for the order of members of complex types, if that is `free`. -/
inductive Element.Alike (free : Prop) : Element → Element → Prop where
  | simple {name : String} {minOccurs : Option Nat} {typeName : Option QualifiedName} :
      Element.Alike free (.mk name minOccurs typeName none) (.mk name minOccurs typeName none)
  | complex {name : String} {minOccurs : Option Nat} {typeName : Option QualifiedName}
      {t t' : ComplexType} : ComplexType.Alike free t t' →
      Element.Alike free (.mk name minOccurs typeName (some t))
        (.mk name minOccurs typeName (some t'))

/-- Two complex types have alike elements and the same attributes, in another order only if that
is `free`. -/
inductive ComplexType.Alike (free : Prop) : ComplexType → ComplexType → Prop where
  | plain {name : Option String} {attributes attributes' : List Attribute} :
      Rearranged free attributes attributes' →
      ComplexType.Alike free (.mk name none attributes) (.mk name none attributes')
  | sequence {name : Option String} {elements middle elements' : List Element}
      {attributes attributes' : List Attribute} :
      List.Forall₂ (Element.Alike free) elements middle → Rearranged free middle elements' →
      Rearranged free attributes attributes' →
      ComplexType.Alike free (.mk name (some elements) attributes)
        (.mk name (some elements') attributes')

end

/-- Two items are equal but for orders that follow free orders of the schema: that of properties for
members of complex types, and that of entries of documentation. -/
inductive Item.Alike (free : Role → Prop) : Item → Item → Prop where
  | documentation {parts parts' : List (List FixedAttribute)} :
      List.Forall₂ (Rearranged (free .plain)) parts parts' →
      Item.Alike free (.documentation ⟨parts⟩) (.documentation ⟨parts'⟩)
  | element {e e' : Element} : e.Alike (free .nodes) e' → Item.Alike free (.element e) (.element e')
  | complexType {t t' : ComplexType} : t.Alike (free .nodes) t' →
      Item.Alike free (.complexType t) (.complexType t')
  | simpleType {t : SimpleType} : Item.Alike free (.simpleType t) (.simpleType t)

/-- Two documents are equal but for orders that follow free orders of the schema. -/
structure Document.Alike (free : Role → Prop) (d d' : Document) : Prop where
  attributeForm : d'.attributeForm = d.attributeForm
  elementForm : d'.elementForm = d.elementForm
  blockDefault : d'.blockDefault = d.blockDefault
  finalDefault : d'.finalDefault = d.finalDefault
  namespaces : Rearranged (free .plain) d.namespaces d'.namespaces
  items : Matches (free .root ∨ free .nodes) (Item.Alike free) d.items d'.items

section Kept

variable {free : Prop}

mutual

theorem Element.Alike.eq (hf : ¬ free) : ∀ {e e' : Element}, e.Alike free e' → e' = e
  | .mk _ _ _ none, _, h => by
    cases h
    rfl
  | .mk _ _ _ (some t), _, h => by
    cases h with
    | complex ht => rw [ComplexType.Alike.eq hf ht]

theorem ComplexType.Alike.eq (hf : ¬ free) : ∀ {t t' : ComplexType}, t.Alike free t' → t' = t
  | .mk _ none _, _, h => by
    cases h with
    | plain ha => rw [ha.kept hf]
  | .mk _ (some elements) _, _, h => by
    cases h with
    | sequence hall hm ha => rw [ha.kept hf, ← hm.kept hf, elements_eq hf hall]

theorem elements_eq (hf : ¬ free) :
    ∀ {elements elements' : List Element}, List.Forall₂ (Element.Alike free) elements elements' →
      elements' = elements
  | [], _, h => by
    cases h
    rfl
  | e :: rest, _, h => by
    cases h with
    | cons he hrest => rw [Element.Alike.eq hf he, elements_eq hf hrest]

end

end Kept

theorem Item.Alike.eq {free : Role → Prop} (hn : ¬ free .nodes) (hp : ¬ free .plain)
    {item item' : Item} (h : item.Alike free item') : item' = item := by
  cases h with
  | documentation hparts =>
    have hm : Matches False (Rearranged (free .plain)) _ _ := .of_forall₂ hparts
    rw [hm.eq not_false fun _ _ _ h => (h.kept hp).symm]
  | element he => rw [he.eq hn]
  | complexType ht => rw [ht.eq hn]
  | simpleType => rfl

theorem Item.Alike.declaredName? {free : Role → Prop} {item item' : Item}
    (h : item.Alike free item') : item'.declaredName? = item.declaredName? := by
  cases h with
  | complexType ht => cases ht <;> rfl
  | _ => rfl

namespace Document.Alike

variable {free : Role → Prop} {d d' : Document}

/-- Alike documents declare the same names. -/
theorem declaredNames (h : d.Alike free d') : d.declaredNames.Perm d'.declaredNames := by
  have hm : Matches (free .root ∨ free .nodes) (fun a b => b = a) d.declaredNames
      d'.declaredNames := by
    refine h.items.filterMap fun a b hab => ?_
    rw [hab.declaredName?]
    cases a.declaredName? with
    | none => exact .none
    | some name => exact .some rfl
  exact hm.of_eq.perm

/-- If only keywords of schemas may be put into another order, only the items are. -/
theorem items_perm (h : d.Alike free d') (hn : ¬ free .nodes) (hp : ¬ free .plain) :
    ∃ items, items.Perm d.items ∧ d' = { d with items := items } := by
  refine ⟨d'.items, ?_, ?_⟩
  · have hm := h.items.imp fun a b hab => hab.eq hn hp
    exact hm.of_eq.perm.symm
  · have hkept := h.namespaces.kept hp
    obtain ⟨namespaces, attributeForm, elementForm, blockDefault, finalDefault, items⟩ := d'
    obtain ⟨rfl, rfl, rfl, rfl, _, _⟩ := h
    obtain rfl : d.namespaces = namespaces := hkept
    rfl

/-- If only the keywords of schemas below the root may be put into another order, nothing is. -/
theorem eq (h : d.Alike free d') (hr : ¬ free .root) (hn : ¬ free .nodes) (hp : ¬ free .plain) :
    d' = d := by
  obtain ⟨items, _, rfl⟩ := h.items_perm hn hp
  have hitems : items = d.items :=
    h.items.eq (by simp [hr, hn]) fun _ _ _ hab => hab.eq hn hp
  rw [hitems]

end Document.Alike
end Xsd

open Xsd Conversion

namespace Conversion

variable {free : Role → Prop} {source source' : Source} {ns : Option String} {place : Pointer}
  {depth : Nat} {r : Role} {s s' t t' : Schema} {made : Synthesized} {c : Container}
  {name : String}

/-! ## Members -/

/-- What two subschemas become is alike. -/
inductive Synthesized.Alike (free : Prop) : Synthesized → Synthesized → Prop where
  | complex {t t' : ComplexType} {flag : Bool} : t.Alike free t' →
      Synthesized.Alike free ⟨.complex t, flag⟩ ⟨.complex t', flag⟩
  | simple {typeName : Option QualifiedName} {flag : Bool} :
      Synthesized.Alike free ⟨.simple typeName, flag⟩ ⟨.simple typeName, flag⟩

def PartAlike (free : Prop) (p p' : Part) : Prop :=
  p'.name = p.name ∧ p.made.Alike free p'.made

theorem PartAlike.element? {free : Prop} {p p' : Part} (h : PartAlike free p p')
    (required : List String) :
    Option.Rel (Element.Alike free) (p.element? required) (p'.element? required) := by
  obtain ⟨name, schema, made⟩ := p
  obtain ⟨name', schema', made'⟩ := p'
  obtain ⟨rfl, hmade⟩ := h
  cases hmade with
  | complex ht => exact .some (.complex ht)
  | @simple typeName flag =>
    cases flag with
    | true => exact .none
    | false => exact .some .simple

theorem PartAlike.attribute? {free : Prop} {p p' : Part} (h : PartAlike free p p')
    (required : List String) :
    Option.Rel (fun a b => b = a) (p.attribute? required) (p'.attribute? required) := by
  obtain ⟨name, schema, made⟩ := p
  obtain ⟨name', schema', made'⟩ := p'
  obtain ⟨rfl, hmade⟩ := h
  cases hmade with
  | complex ht => exact .none
  | @simple typeName flag =>
    cases flag with
    | true => exact .some rfl
    | false => exact .none

theorem alike_type {free : Prop} {m m' : Members}
    (he : Matches free (Element.Alike free) m.elements m'.elements)
    (ha : Rearranged free m.attributes m'.attributes) : m.type.Alike free m'.type := by
  obtain ⟨elements, attributes⟩ := m
  obtain ⟨elements', attributes'⟩ := m'
  obtain ⟨middle, hall, hm⟩ := he
  cases elements with
  | nil =>
    cases hall
    obtain rfl : elements' = [] := hm.perm.symm.eq_nil
    exact .plain ha
  | cons e rest =>
    cases hall with
    | cons hhead htail =>
      cases elements' with
      | nil => exact absurd hm.perm.eq_nil (List.cons_ne_nil _ _)
      | cons e' rest' => exact .sequence (.cons hhead htail) hm ha

/-- Alike parts give alike members. -/
theorem alike_ofParts {free : Prop} {parts parts' : List Part}
    (h : Matches free (PartAlike free) parts parts') (required : List String) :
    (Members.ofParts required parts).type.Alike free (Members.ofParts required parts').type := by
  refine alike_type ?_ ?_
  · rw [elements_ofParts, elements_ofParts]
    exact h.filterMap fun _ _ hp => hp.element? required
  · rw [attributes_ofParts, attributes_ofParts]
    exact (h.filterMap fun _ _ hp => hp.attribute? required).of_eq

/-! ## Subschemas -/

/-- Two sources with alike schemas, both of them read, and the same answers and options. -/
structure SourcesAlike (free : Role → Prop) (source source' : Source) : Prop where
  schema : source.schema.Alike free .root source'.schema
  read : source.schema.IsRead
  read' : source'.schema.IsRead
  classifier : source'.classifier = source.classifier
  options : source'.options = source.options

theorem kinds_transfer {P : Kind → Prop} (h : t.Alike free r t')
    (hk : ∀ k ∈ t.keywords, P k.kind) : ∀ k ∈ t'.keywords, P k.kind := by
  intro k' hm
  obtain ⟨k, hmem, halike⟩ := h.keywords.mem_right hm
  rw [halike.kind]
  exact hk k hmem

theorem OpensComplex.transfer (hs : SourcesAlike free source source') (ht : t.Alike free r t')
    (hread : t'.IsRead) (h : OpensComplex source place t) : OpensComplex source' place t' := by
  refine ⟨hs.classifier ▸ h.shape, hs.classifier ▸ h.plain, ht.types? hread ▸ h.types, ?_⟩
  intro n hn
  rw [ht.requiredNames hread] at hn
  have hnames := (ht.properties hread).map_eq fun _ _ h => h.1.symm
  exact hnames.mem_iff.1 (h.required n hn)

theorem OpensSimple.transfer (hs : SourcesAlike free source source')
    (h : OpensSimple source place) : OpensSimple source' place :=
  ⟨hs.classifier ▸ h.notComplex, hs.classifier ▸ h.shape, hs.classifier ▸ h.plain⟩

theorem NamesType.transfer {typeName : Option QualifiedName} (hs : s.Alike free .root s')
    (hread : s'.IsRead) (ht : t.Alike free r t') (hread' : t'.IsRead)
    (h : NamesType s ns t typeName) : NamesType s' ns t' typeName := by
  have href := ht.reference? hread'
  have htypes := ht.types? hread'
  cases h with
  | untyped hr ht => exact .untyped (href.trans hr) (htypes.trans ht)
  | primitive hr ht hv => exact .primitive (href.trans hr) (htypes.trans ht) hv
  | reference hr ht htarget hns =>
    exact .reference (href.trans hr) (htypes.trans ht) (hs.target? hread ▸ htarget) hns

/-- What the subschema of a part becomes, every alike one becomes in likeness. -/
def Followed (free : Role → Prop) (source' : Source) (ns : Option String) (place : Pointer)
    (depth : Nat) (t : Schema) (made : Synthesized) : Prop :=
  ∀ t', t.Alike free .node t' → t'.IsRead →
    ∃ made', Becomes source' ns place depth t' made' ∧ made.Alike (free .nodes) made'

/-- Alike properties become alike members, if what each becomes can be followed. -/
theorem parts_transfer {parts : List Part} (ht : t.Alike free r t') (hread : t'.IsRead)
    (hparts : parts.map Part.entry = t.properties)
    (hnames : ∀ p ∈ parts, Xml.isName p.name = true)
    (hbecomes : ∀ p ∈ parts,
      Followed free source' ns (propertyPlace place p.name) (depth + 1) p.schema p.made) :
    ∃ parts', parts'.map Part.entry = t'.properties ∧
      (∀ p ∈ parts', Xml.isName p.name = true) ∧
      (∀ p ∈ parts', Becomes source' ns (propertyPlace place p.name) (depth + 1) p.schema p.made) ∧
      ∀ required, (Members.ofParts required parts).type.Alike (free .nodes)
        (Members.ofParts required parts').type := by
  have hentries := ht.properties hread
  rw [← hparts] at hentries
  have hself : List.Forall₂ (fun e p => p.entry = e ∧ p ∈ parts) (parts.map Part.entry) parts :=
    List.forall₂_map_left_iff.2 (List.forall₂_same.2 fun _ hp => ⟨rfl, hp⟩)
  obtain ⟨parts', hmade, halike⟩ : ∃ parts', List.Forall₂ (fun e p => p.entry = e ∧
      Xml.isName p.name = true ∧
      Becomes source' ns (propertyPlace place p.name) (depth + 1) p.schema p.made)
        t'.properties parts' ∧ Matches (free .nodes) (PartAlike (free .nodes)) parts parts' := by
    refine hentries.follow hself ?_
    rintro _ ⟨name, u⟩ hmem p ⟨hname, hu⟩ ⟨rfl, hp⟩
    obtain rfl : p.name = name := hname
    obtain ⟨made', hmade, hsame⟩ := hbecomes p hp u hu (isRead_property hread hmem)
    exact ⟨⟨p.name, u, made'⟩, ⟨rfl, hnames p hp, hmade⟩, rfl, hsame⟩
  refine ⟨parts', ?_, fun p hp => ?_, fun p hp => ?_, alike_ofParts halike⟩
  · have hmap := Tables.map_eq_map (f := id) hmade fun _ _ h => h.1
    rwa [List.map_id] at hmap
  · obtain ⟨_, _, _, hname, _⟩ := Tables.exists_of_mem_right hmade hp
    exact hname
  · obtain ⟨_, _, _, _, hp⟩ := Tables.exists_of_mem_right hmade hp
    exact hp

/-- **Alike subschemas become alike nodes**, by induction on the rules. -/
theorem Becomes.transfer (hs : SourcesAlike free source source')
    (h : Becomes source ns place depth t made) : Followed free source' ns place depth t made := by
  induction h with
  | complex hd ho hflag hkinds hparts hnames _ ih =>
    intro t' ht hread
    obtain ⟨parts', hparts', hnames', hbecomes', halike⟩ :=
      parts_transfer ht hread hparts hnames ih
    refine ⟨_, .complex (hs.options ▸ hd) (ho.transfer hs ht hread)
      ((ht.asksAttribute hread).trans hflag) (kinds_transfer (P := (· ∈ _)) ht hkinds) hparts'
      hnames' hbecomes', ?_⟩
    rw [ht.requiredNames hread]
    exact .complex (halike _)
  | simple hd ho hkinds hname =>
    intro t' ht hread
    refine ⟨_, .simple (hs.options ▸ hd) (ho.transfer hs) (kinds_transfer (P := (· ∈ _)) ht hkinds)
      (hname.transfer hs.schema hs.read' ht hread), ?_⟩
    rw [ht.asksAttribute hread]
    exact .simple

/-! ## Chains of bases -/

/-- What a chain finds under a name, if a definition has it: whether that definition is simple, and
the name that its reference stands for. -/
def link? (source : Source) (ns : Option String) (current : String) :
    Option (Bool × Option String) :=
  (source.schema.findDefinition? current).map fun (c, t) =>
    let shapes := source.classifier.shapes (definitionPlace c current)
    (!(shapes.isComplex || !shapes.isSimple),
      nextBase? source.schema ns (definitionPlace c current) t)

/-- One step of the check, without what makes it end. -/
theorem checkChain_eq (source : Source) (ns : Option String) (name : String) (chain : List String)
    (current : String) :
    checkChain source ns name chain current =
      if chain.contains current then .error (.derivationCycle (chain ++ [current]))
      else match link? source ns current with
        | none => .ok ()
        | some (false, _) => .error (.baseNotSimple name current)
        | some (true, none) => .ok ()
        | some (true, some next) => checkChain source ns name (chain ++ [current]) next := by
  rw [checkChain, link?]
  split
  · rfl
  · split
    · rename_i hf
      rewrite [hf]
      rfl
    · rename_i c t hf
      rewrite [hf]
      dsimp only [Option.map_some]
      split
      · rename_i hshape
        rw [hshape]
        rfl
      · rename_i hshape
        rw [Bool.not_eq_true] at hshape
        rw [hshape]
        split <;> rename_i hnext <;> rw [hnext] <;> rfl

/-- **Chains that find the same under every name end alike**, by induction on the check. `P` holds of
the names that a chain can come to. -/
theorem checkChain_congr {P : String → Prop}
    (hlink : ∀ current, P current → link? source' ns current = link? source ns current)
    (hnext : ∀ current next, P current → link? source ns current = some (true, some next) → P next)
    (chain : List String) {current : String} (h : P current) :
    checkChain source' ns name chain current = checkChain source ns name chain current := by
  have hopen : ∀ {chain : List String} {current : String}, P current →
      (∀ next, ¬ chain.contains current = true → link? source ns current = some (true, some next) →
        checkChain source' ns name (chain ++ [current]) next =
          checkChain source ns name (chain ++ [current]) next) →
      checkChain source' ns name chain current = checkChain source ns name chain current := by
    intro chain current h hgo
    rw [checkChain_eq, checkChain_eq source, hlink current h]
    split
    · rfl
    · rename_i hmet
      split
      · rfl
      · rfl
      · rfl
      · rename_i next hfound
        exact hgo next hmet hfound
  induction chain, current using checkChain.induct source ns with
  | case1 chain current hmet => exact hopen h fun _ hnot => absurd hmet hnot
  | case2 chain current hmet hnone =>
    refine hopen h fun next _ hfound => ?_
    rw [link?, hnone] at hfound
    cases hfound
  | case3 chain current hmet c t hf place shapes hshape =>
    refine hopen h fun next _ hfound => ?_
    rw [link?, hf] at hfound
    obtain ⟨hfine, _⟩ := Prod.mk.inj (Option.some.inj hfound)
    rw [show (shapes.isComplex || !shapes.isSimple) = true from hshape] at hfine
    cases hfine
  | case4 chain current hmet c t hf place shapes hshape hstop =>
    refine hopen h fun next _ hfound => ?_
    rw [link?, hf] at hfound
    obtain ⟨_, hsome⟩ := Prod.mk.inj (Option.some.inj hfound)
    cases hstop.symm.trans hsome
  | case5 chain current hmet c t hf place shapes hshape next hsome ih =>
    refine hopen h fun other _ hfound => ?_
    have hcontinues := hnext current other h hfound
    rw [link?, hf] at hfound
    obtain ⟨_, hother⟩ := Prod.mk.inj (Option.some.inj hfound)
    cases hsome.symm.trans hother
    exact ih hcontinues

theorem checkChain_of_links (h : ∀ current, link? source' ns current = link? source ns current)
    (chain : List String) (current : String) :
    checkChain source' ns name chain current = checkChain source ns name chain current :=
  checkChain_congr (P := fun _ => True) (fun current _ => h current) (fun _ _ _ _ => trivial) chain
    trivial

theorem definitionItem_of_links
    (h : ∀ current, link? source' ns current = link? source ns current) (place : Pointer)
    (node : Node) :
    definitionItem source' ns place name node = definitionItem source ns place name node := by
  have hchain : ∀ chain current, checkChain source' ns name chain current =
      checkChain source ns name chain current := checkChain_of_links h
  unfold definitionItem checkBase
  cases node with
  | complex type => rfl
  | simple base =>
    cases base with
    | none => rfl
    | some base => simp only [hchain]

theorem definition?_of_findDefinition? (h : s.findDefinition? name = some (c, t)) :
    s.definition? c name = some t := by
  unfold Schema.findDefinition? at h
  split at h
  · rename_i hd
    cases h
    exact hd
  · obtain ⟨u, hd, hpair⟩ := Option.map_eq_some_iff.1 h
    cases hpair
    exact hd

theorem mem_of_findDefinition? (h : s.findDefinition? name = some (c, t)) :
    (name, t) ∈ s.definitions c :=
  Tables.mem_of_lookup (definition?_of_findDefinition? h)

/-! ## Definitions -/

theorem nextBase?_transfer (hs : SourcesAlike free source source') (ht : t.Alike free r t')
    (hread : t'.IsRead) (ns : Option String) (place : Pointer) :
    nextBase? source'.schema ns place t' = nextBase? source.schema ns place t := by
  rw [nextBase?, nextBase?, ht.reference? hread, hs.schema.resolve hs.read']

/-- Chains find under a name what is alike there. -/
theorem link?_transfer (hs : SourcesAlike free source source') (ns : Option String)
    (current : String) : link? source' ns current = link? source ns current := by
  have hfind := hs.schema.findDefinition? hs.read' current
  rw [link?, link?]
  cases hf' : source'.schema.findDefinition? current with
  | none =>
    rw [hf'] at hfind
    generalize source.schema.findDefinition? current = x at hfind
    cases hfind
    rfl
  | some found =>
    obtain ⟨c, t'⟩ := found
    rw [hf'] at hfind
    generalize source.schema.findDefinition? current = x at hfind
    cases hfind with
    | some hfound =>
      obtain ⟨rfl, ht⟩ := hfound
      have hread : t'.IsRead := isRead_definition hs.read' (mem_of_findDefinition? hf')
      simp only [Option.map_some, hs.classifier, nextBase?_transfer hs ht hread]

theorem checkBase_transfer (hs : SourcesAlike free source source') (place : Pointer)
    (base : QualifiedName) :
    checkBase source' ns place name base = checkBase source ns place name base := by
  unfold checkBase
  rw [checkChain_of_links (link?_transfer hs ns)]

theorem alike_withName {free : Prop} {type type' : ComplexType} (h : type.Alike free type')
    (name : String) : (type.withName name).Alike free (type'.withName name) := by
  cases h with
  | plain ha => exact .plain ha
  | sequence hall hm ha => exact .sequence hall hm ha

theorem BecomesItem.transfer {item : Item} (hs : SourcesAlike free source source')
    (ht : t.Alike free .node t') (hread : t'.IsRead) (h : BecomesItem source ns c name t item) :
    ∃ item', BecomesItem source' ns c name t' item' ∧ item.Alike free item' := by
  cases h with
  | complex hname hbecomes =>
    obtain ⟨made', hmade, halike⟩ := hbecomes.transfer hs t' ht hread
    cases halike with
    | complex htype =>
      exact ⟨_, .complex hname hmade, .complexType (alike_withName htype name)⟩
  | simple hname hbecomes hbase =>
    obtain ⟨made', hmade, halike⟩ := hbecomes.transfer hs t' ht hread
    cases halike with
    | simple =>
      exact ⟨_, .simple hname hmade ((checkBase_transfer hs _ _).trans hbase), .simpleType⟩

/-- Alike definitions become alike types. -/
theorem BecomeItems.transfer {entries entries' : List (String × Schema)} {items : List Item}
    (hs : SourcesAlike free source source')
    (hm : Matches (free .nodes) (EntryAlike free) entries entries')
    (hread : ∀ e ∈ entries', e.2.IsRead) (h : BecomeItems source ns c entries items) :
    ∃ items', BecomeItems source' ns c entries' items' ∧
      Matches (free .nodes) (Item.Alike free) items items' := by
  refine hm.follow h ?_
  rintro ⟨name, t⟩ ⟨_, t'⟩ hmem item ⟨rfl, ht⟩ hitem
  exact hitem.transfer hs ht (hread _ hmem)

/-! ## The root -/

/-- A root that wraps a reference is alike only to roots that wrap it too. -/
theorem combinators_of_wrapped {combinator : Combinator} {reference : String}
    (h : s.Alike free r s') (hc : s.combinators = [(combinator, [.mk [.ref reference]])]) :
    s'.combinators = [(combinator, [.mk [.ref reference]])] := by
  -- one combinator with one branch of one keyword: nothing to put into another order
  obtain ⟨middle, hall, hm⟩ := hc ▸ h.combinators
  cases hall with
  | @cons _ y _ _ hy hnil =>
    cases hnil
    obtain ⟨combinator', branches⟩ := y
    obtain ⟨hsame, hbranches⟩ := hy
    cases hbranches with
    | cons hbranch hnil =>
      cases hnil
      obtain rfl : combinator' = combinator := hsame
      rw [List.perm_singleton.1 hm.perm.symm, Schema.Alike.eq_of_ref hbranch]

theorem BecomesRoot.transfer {e : Element} (hs : SourcesAlike free source source')
    (h : BecomesRoot source ns e) :
    ∃ e', BecomesRoot source' ns e' ∧ e.Alike (free .nodes) e' := by
  have hnone : source.schema.combinators = [] → source'.schema.combinators = [] := by
    intro hc
    obtain ⟨middle, hall, hm⟩ := hc ▸ hs.schema.combinators
    cases hall
    exact hm.perm.symm.eq_nil
  cases h with
  | complex hi hc ho hmembers =>
    obtain ⟨parts, hparts, hnames, hbecomes, rfl⟩ := hmembers
    obtain ⟨parts', hparts', hnames', hbecomes', halike⟩ := parts_transfer hs.schema hs.read'
      hparts hnames fun p hp => (hbecomes p hp).transfer hs
    refine ⟨_, .complex (hs.classifier ▸ hi) (hnone hc) (ho.transfer hs hs.schema hs.read')
      ⟨parts', hparts', hnames', hbecomes', rfl⟩, ?_⟩
    rw [hs.classifier, hs.schema.requiredNames hs.read']
    exact .complex (halike _)
  | simple hi hc ho hname =>
    refine ⟨_, .simple (hs.classifier ▸ hi) (hnone hc) (ho.transfer hs)
      (hname.transfer hs.schema hs.read' hs.schema hs.read'), ?_⟩
    rw [hs.classifier]
    exact .simple
  | @wrapped c reference target name hi hp hc ht hns =>
    have hp' : source'.schema.get? .properties = none := by
      rcases hs.schema.get? hs.read' (by decide : Kind.properties ≠ .unknown) with
        ⟨_, hnone'⟩ | ⟨k, _, hk, _⟩
      · exact hnone'
      · rw [hp] at hk
        cases hk
    refine ⟨_, .wrapped (hs.classifier ▸ hi) hp' (combinators_of_wrapped hs.schema hc)
      (hs.schema.target? hs.read' ▸ ht) hns, ?_⟩
    rw [hs.classifier]
    exact .simple

end Conversion
end XsdSynthesis
