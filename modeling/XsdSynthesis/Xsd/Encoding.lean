import XsdSynthesis.Json.Value
import XsdSynthesis.Xsd.Document

/-!
# XsdSynthesis.Xsd.Encoding

Documents as JSON. Every field is always there; one without a value is null.
-/

namespace XsdSynthesis
namespace Xsd

def nullable {α : Type} (encode : α → Json) : Option α → Json
  | some a => encode a
  | none => .null

def QualifiedName.toJson (q : QualifiedName) : Json :=
  .obj [("namespace", nullable .str q.ns), ("name", .str q.name)]

def Attribute.toJson (a : Attribute) : Json :=
  .obj [("name", .str a.name), ("type_name", nullable QualifiedName.toJson a.typeName),
    ("required", .bool a.isRequired)]

mutual

def Element.fields : Element → List (String × Json)
  | .mk name minOccurs typeName complexType =>
    [("name", .str name), ("min_occurs", nullable (fun n : Nat => .num (.int n)) minOccurs),
      ("type_name", nullable QualifiedName.toJson typeName),
      ("complex_type", match complexType with
        | some t => .obj (ComplexType.fields t)
        | none => .null)]

def ComplexType.fields : ComplexType → List (String × Json)
  | .mk name sequence attributes =>
    [("name", nullable .str name),
      ("sequence", match sequence with
        | some elements => .obj [("elements", .arr (elementsJson elements))]
        | none => .null),
      ("attributes", .arr (attributes.map Attribute.toJson))]

def elementsJson : List Element → List Json
  | [] => []
  | e :: rest => .obj (Element.fields e) :: elementsJson rest

end

def SimpleType.fields (t : SimpleType) : List (String × Json) :=
  [("name", .str t.name), ("restriction_base", t.base.toJson)]

def FixedAttribute.toJson (a : FixedAttribute) : Json :=
  .obj [("name", .str a.name), ("fixed", .str a.fixed)]

def Documentation.fields (a : Documentation) : List (String × Json) :=
  [("documentation", .arr (a.parts.map fun entries =>
    .obj [("markup", .arr (entries.map FixedAttribute.toJson))]))]

/-- An item as JSON: the fields of what it holds, behind its kind. -/
def Item.toJson : Item → Json
  | .documentation a => .obj (("kind", .str "annotation") :: a.fields)
  | .element e => .obj (("kind", .str "element") :: e.fields)
  | .complexType t => .obj (("kind", .str "complex_type") :: t.fields)
  | .simpleType t => .obj (("kind", .str "simple_type") :: t.fields)

def Form.toJson (f : Form) : Json := .str f.name

def Derivation.setJson (set : List Derivation) : Json := .arr (set.map fun m => .str m.name)

def Document.toJson (d : Document) : Json :=
  .obj [("namespaces", .arr (d.namespaces.map fun (p, uri) => .arr [.str p, .str uri])),
    ("attribute_form_default", nullable Form.toJson d.attributeForm),
    ("element_form_default", nullable Form.toJson d.elementForm),
    ("block_default", nullable Derivation.setJson d.blockDefault),
    ("final_default", nullable Derivation.setJson d.finalDefault),
    ("items", .arr (d.items.map Item.toJson))]

end Xsd
end XsdSynthesis
