import XsdSynthesis.Proofs.Success

/-!
# XsdSynthesis.Proofs.Rules

What a schema document becomes, as rules. The rules do not mention ledgers, work lists or logs: they
relate a subschema and its place to the node that stands for it, a definition to its item, and
the keywords of the root to the items of the document. `Proofs.Synthesis` and `Proofs.Document` show
that what a conversion ends with follows these rules.

* `Becomes`: a subschema and its node.
* `BecomesItem`: a definition and its named type.
* `BecomesRoot`: the root and the one top-level element.
* `BecomesItems`: the root's keywords and the items of the document.
-/

namespace XsdSynthesis

open Xsd

/-! ## The keywords of one schema -/

namespace Schema

theorem get?_cons_of_ne {k : Keyword} {kind : Kind} (h : k.kind ≠ kind) (rest : List Keyword) :
    (mk (k :: rest)).get? kind = (mk rest).get? kind := by
  have hk : (k.kind == kind) = false := by simpa using h
  rw [get?, get?, keywords_mk, keywords_mk, List.find?_cons, hk]

/-- The keyword of a kind among mapped keywords, if mapping keeps kinds apart. -/
theorem get?_map {g : Keyword → Keyword} {σ : Kind → Kind} (hσ : Function.Injective σ)
    (hg : ∀ k, (g k).kind = σ k.kind) (s : Schema) (kind : Kind) :
    (mk (s.keywords.map g)).get? (σ kind) = (s.get? kind).map g := by
  rw [get?, get?, keywords_mk, List.find?_map]
  congr 2
  funext k
  simp [hg, hσ.eq_iff]

def types? (s : Schema) : Option (List ValueType) :=
  match s.get? .type with
  | some (.type types) => some types
  | _ => none

def requiredNames (s : Schema) : List String :=
  match s.get? .required with
  | some (.required names) => names
  | _ => []

def properties (s : Schema) : List (String × Schema) :=
  match s.get? .properties with
  | some (.properties entries) => entries
  | _ => []

def asksAttribute (s : Schema) : Bool :=
  match s.get? .asAttribute with
  | some (.asAttribute flag) => flag
  | _ => false

end Schema

namespace Conversion

/-- Kinds that the rule of complex types consumes. -/
def complexKinds : List Kind := [.asAttribute, .type, .required, .properties]

def simpleKinds : List Kind := [.asAttribute, .ref, .type]

/-! ## Subschemas -/

/-- The type name that the keywords of a schema give. -/
inductive NamesType (s : Schema) (ns : Option String) (t : Schema) :
    Option QualifiedName → Prop where
  | untyped : t.reference? = none → t.types? = none → NamesType s ns t none
  | primitive {v : ValueType} {name : String} : t.reference? = none → t.types? = some [v] →
      v.primitive? = some name → NamesType s ns t (some (.builtIn name))
  | reference {r : String} {c : Container} {name : String} : t.reference? = some r →
      t.types? = none → s.target? r = some (c, name) → ns = none →
      NamesType s ns t (some (.plain name))

/-- What a place and its schema need for a complex type. -/
structure OpensComplex (source : Source) (place : Pointer) (t : Schema) : Prop where
  shape : (source.classifier.shapes place).isComplex = true
  plain : ∀ d ∈ Shape.complexDerivations, (source.classifier.shapes place).contains d = false
  types : t.types? = none ∨ t.types? = some [.object]
  required : ∀ n ∈ t.requiredNames, n ∈ t.properties.map Prod.fst

structure OpensSimple (source : Source) (place : Pointer) : Prop where
  notComplex : (source.classifier.shapes place).isComplex = false
  shape : (source.classifier.shapes place).isSimple = true
  plain : ∀ d ∈ Shape.simpleDerivations, (source.classifier.shapes place).contains d = false

/-- A property, and what its schema becomes. -/
structure Part where
  name : String
  schema : Schema
  made : Synthesized

def Part.entry (p : Part) : String × Schema := (p.name, p.schema)

/-- The members that parts give, in order. -/
def Members.ofParts (required : List String) : List Part → Members
  | [] => .empty
  | p :: rest => (Members.ofParts required rest).add p.name (required.contains p.name) p.made

def propertyPlace (place : Pointer) (name : String) : Pointer := place.append ["properties", name]

/-- A subschema at a place becomes a node. -/
inductive Becomes (source : Source) (ns : Option String) :
    Pointer → Nat → Schema → Synthesized → Prop where
  | complex {place : Pointer} {depth : Nat} {t : Schema} {parts : List Part} :
      depth ≤ source.options.maxDepth → OpensComplex source place t → t.asksAttribute = false →
      (∀ k ∈ t.keywords, k.kind ∈ documentKinds ++ complexKinds) →
      parts.map Part.entry = t.properties → (∀ p ∈ parts, Xml.isName p.name = true) →
      (∀ p ∈ parts, Becomes source ns (propertyPlace place p.name) (depth + 1) p.schema p.made) →
      Becomes source ns place depth t ⟨.complex (Members.ofParts t.requiredNames parts).type, false⟩
  | simple {place : Pointer} {depth : Nat} {t : Schema} {typeName : Option QualifiedName} :
      depth ≤ source.options.maxDepth → OpensSimple source place →
      (∀ k ∈ t.keywords, k.kind ∈ documentKinds ++ simpleKinds) →
      NamesType source.schema ns t typeName →
      Becomes source ns place depth t ⟨.simple typeName, t.asksAttribute⟩

/-- Properties of a schema at a place become members. -/
def BecomesMembers (source : Source) (ns : Option String) (place : Pointer) (depth : Nat)
    (required : List String) (entries : List (String × Schema)) (members : Members) : Prop :=
  ∃ parts : List Part, parts.map Part.entry = entries ∧
    (∀ p ∈ parts, Xml.isName p.name = true) ∧
    (∀ p ∈ parts, Becomes source ns (propertyPlace place p.name) (depth + 1) p.schema p.made) ∧
    members = Members.ofParts required parts

section Inversion

variable {source : Source} {ns : Option String} {place : Pointer} {depth : Nat} {t : Schema}
  {made : Synthesized}

theorem Becomes.of_complex {type : ComplexType} (h : Becomes source ns place depth t made)
    (hn : made.node = .complex type) :
    OpensComplex source place t ∧ t.asksAttribute = false ∧
      (∀ k ∈ t.keywords, k.kind ∈ documentKinds ++ complexKinds) ∧
      ∃ members, BecomesMembers source ns place depth t.requiredNames t.properties members ∧
        type = members.type := by
  cases h with
  | complex _ ho hflag hkinds hparts hnames hbecomes =>
    cases hn
    exact ⟨ho, hflag, hkinds, _, ⟨_, hparts, hnames, hbecomes, rfl⟩, rfl⟩
  | simple _ _ _ _ => cases hn

theorem Becomes.of_simple {typeName : Option QualifiedName}
    (h : Becomes source ns place depth t made) (hn : made.node = .simple typeName) :
    OpensSimple source place ∧ made.asAttribute = t.asksAttribute ∧
      (∀ k ∈ t.keywords, k.kind ∈ documentKinds ++ simpleKinds) ∧
      NamesType source.schema ns t typeName := by
  cases h with
  | complex _ _ _ _ _ _ _ => cases hn
  | simple _ ho hkinds hname =>
    cases hn
    exact ⟨ho, rfl, hkinds, hname⟩

end Inversion

/-! ## The document -/

/-- A definition becomes a named type. -/
inductive BecomesItem (source : Source) (ns : Option String) (c : Container) (name : String)
    (t : Schema) : Item → Prop where
  | complex {type : ComplexType} : Xml.isName name = true →
      Becomes source ns (definitionPlace c name) 1 t ⟨.complex type, false⟩ →
      BecomesItem source ns c name t (.complexType (type.withName name))
  | simple {base : QualifiedName} : Xml.isName name = true →
      Becomes source ns (definitionPlace c name) 1 t ⟨.simple (some base), false⟩ →
      checkBase source ns (definitionPlace c name) name base = .ok () →
      BecomesItem source ns c name t (.simpleType ⟨name, base⟩)

/-- The root becomes the top-level element. -/
inductive BecomesRoot (source : Source) (ns : Option String) : Element → Prop where
  | complex {members : Members} : source.classifier.inlineRoot = true →
      source.schema.combinators = [] → OpensComplex source .root source.schema →
      BecomesMembers source ns .root 0 source.schema.requiredNames source.schema.properties
        members →
      BecomesRoot source ns (.mk source.classifier.messageName none none (some members.type))
  | simple {typeName : Option QualifiedName} : source.classifier.inlineRoot = true →
      source.schema.combinators = [] → OpensSimple source .root →
      NamesType source.schema ns source.schema typeName →
      BecomesRoot source ns (.mk source.classifier.messageName none typeName none)
  | wrapped {c : Combinator} {r : String} {target : Container} {name : String} :
      source.classifier.inlineRoot = false → source.schema.get? .properties = none →
      source.schema.combinators = [(c, [.mk [.ref r]])] →
      source.schema.target? r = some (target, name) → ns = none →
      BecomesRoot source ns
        (.mk source.classifier.messageName none (some (.plain name)) none)

end Conversion

namespace Kind

/-- Whether a keyword of the root that has the kind brings about the root element. -/
def describesRoot : Kind → Bool
  | .combinator _ | .properties => true
  | _ => false

/-- Whether a keyword of the root that has the kind is taken where it stands. -/
def isDispatched : Kind → Bool
  | .info | .definitions _ => true
  | kind => kind.describesRoot

end Kind

namespace Conversion

/-- Keywords of the root become items. `marked` are the kinds taken before, the flags tell whether
the root element is there before and after. -/
inductive BecomesItems (source : Source) (ns : Option String) :
    List Kind → Bool → List Keyword → List Item → Bool → Prop where
  | nil {marked : List Kind} {built : Bool} : BecomesItems source ns marked built [] [] built
  | pass {marked : List Kind} {built final : Bool} {k : Keyword} {rest : List Keyword}
      {items : List Item} : (k.kind ∈ marked ∨ k.kind.isDispatched = false) →
      BecomesItems source ns marked built rest items final →
      BecomesItems source ns marked built (k :: rest) items final
  | info {marked : List Kind} {built final : Bool} {entries : List (String × Json)}
      {a : Documentation} {rest : List Keyword} {items : List Item} : .info ∉ marked →
      documentationOf entries = .ok a →
      BecomesItems source ns (.info :: marked) built rest items final →
      BecomesItems source ns marked built (.info entries :: rest) (.documentation a :: items) final
  | definitions {marked : List Kind} {built final : Bool} {c : Container}
      {entries : List (String × Schema)} {made items : List Item} {rest : List Keyword} :
      .definitions c ∉ marked →
      List.Forall₂ (fun e item => BecomesItem source ns c e.1 e.2 item) entries made →
      BecomesItems source ns (.definitions c :: marked) built rest items final →
      BecomesItems source ns marked built (.definitions c entries :: rest) (made ++ items) final
  | root {marked : List Kind} {final : Bool} {k : Keyword} {e : Element} {rest : List Keyword}
      {items : List Item} : k.kind ∉ marked → k.kind.describesRoot = true →
      BecomesRoot source ns e →
      BecomesItems source ns (k.kind :: marked) true rest items final →
      BecomesItems source ns marked false (k :: rest) (.element e :: items) final
  | again {marked : List Kind} {final : Bool} {k : Keyword} {rest : List Keyword}
      {items : List Item} : k.kind ∉ marked → k.kind.describesRoot = true →
      BecomesItems source ns (k.kind :: marked) true rest items final →
      BecomesItems source ns marked true (k :: rest) items final

end Conversion
end XsdSynthesis
