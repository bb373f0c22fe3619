import XsdSynthesis.Xml.Element
import XsdSynthesis.Xsd.Document

/-!
# XsdSynthesis.Xsd.Text

The XML text of a document. Tags bear the prefix that the document binds to the namespace of XML
Schema, and type names the prefix bound to theirs; an empty or missing prefix is not written.
-/

namespace XsdSynthesis
namespace Xsd

namespace Document

/-- A local name behind a prefix, unless the prefix is empty or missing. -/
def prefixed (boundPrefix : Option String) (name : String) : String :=
  match boundPrefix with
  | some p => if p = "" then name else p ++ ":" ++ name
  | none => name

def tag (d : Document) (name : String) : String := prefixed (d.prefixOf? schemaNamespace) name

def lexical (d : Document) (q : QualifiedName) : String := prefixed (q.ns.bind d.prefixOf?) q.name

/-- The attribute `type` of an element or attribute. -/
def typeAttribute (d : Document) (typeName : Option QualifiedName) : List (String × String) :=
  typeName.toList.map fun q => ("type", d.lexical q)

/-- An attribute of a complex type as an XML element. -/
def attributeXml (d : Document) (a : Attribute) : Xml.Element :=
  .mk (d.tag "attribute")
    (("name", a.name) :: d.typeAttribute a.typeName ++
      if a.isRequired then [("use", "required")] else [])
    none

mutual

def elementXml (d : Document) : Element → Xml.Element
  | .mk name minOccurs typeName complexType =>
    .mk (d.tag "element")
      (("name", name) :: (minOccurs.toList.map fun n => ("minOccurs", toString n)) ++
        d.typeAttribute typeName)
      (match complexType with
        | some t => some [complexTypeXml d t]
        | none => none)

def complexTypeXml (d : Document) : ComplexType → Xml.Element
  | .mk name sequence attributes =>
    let heading := name.toList.map fun n => ("name", n)
    match sequence with
    | none =>
      .mk (d.tag "complexType") heading
        (if attributes.isEmpty then none else some (attributes.map d.attributeXml))
    | some elements =>
      .mk (d.tag "complexType") heading
        (some (.mk (d.tag "sequence") [] (some (elementsXml d elements)) ::
          attributes.map d.attributeXml))

def elementsXml (d : Document) : List Element → List Xml.Element
  | [] => []
  | e :: rest => elementXml d e :: elementsXml d rest

end

def simpleTypeXml (d : Document) (t : SimpleType) : Xml.Element :=
  .mk (d.tag "simpleType") [("name", t.name)]
    (some [.mk (d.tag "restriction") [("base", d.lexical t.base)] none])

def documentationXml (d : Document) (a : Documentation) : Xml.Element :=
  .mk (d.tag "annotation") [] (some (a.parts.map fun entries =>
    .mk (d.tag "documentation") [] (some (entries.map fun entry =>
      .mk (d.tag "attribute") [("name", entry.name), ("fixed", entry.fixed)] none))))

def itemXml (d : Document) : Item → Xml.Element
  | .documentation a => d.documentationXml a
  | .element e => d.elementXml e
  | .complexType t => d.complexTypeXml t
  | .simpleType t => d.simpleTypeXml t

/-- The declaration of a prefix, or of the default namespace. -/
def bindingAttribute : String × String → String × String
  | (boundPrefix, uri) => (if boundPrefix = "" then "xmlns" else "xmlns:" ++ boundPrefix, uri)

/-- The attribute that a form default is written as; the form `none` is not written. -/
def formAttribute (name : String) (form : Option Form) : List (String × String) :=
  (form.filter (· != .none)).toList.map fun f => (name, f.name)

/-- The attribute that a derivation default is written as. -/
def derivationAttribute (name : String) (set : Option (List Derivation)) :
    List (String × String) :=
  set.toList.map fun s => (name, Derivation.setText s)

def attributesXml (d : Document) : List (String × String) :=
  d.namespaces.map bindingAttribute ++
    formAttribute "attributeFormDefault" d.attributeForm ++
    formAttribute "elementFormDefault" d.elementForm ++
    derivationAttribute "blockDefault" d.blockDefault ++
    derivationAttribute "finalDefault" d.finalDefault

def toXml (d : Document) : Xml.Element :=
  .mk (d.tag "schema") d.attributesXml
    (if d.items.isEmpty then none else some (d.items.map d.itemXml))

def text (d : Document) : String := Xml.documentText d.toXml

/-- Whether the XML text of a document fits into so many bytes. -/
def fits (d : Document) (limit : Nat) : Bool := d.text.utf8ByteSize ≤ limit

end Document
end Xsd
end XsdSynthesis
