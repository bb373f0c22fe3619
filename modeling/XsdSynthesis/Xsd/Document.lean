import XsdSynthesis.Xsd.Defaults
import XsdSynthesis.Xsd.Name

/-!
# XsdSynthesis.Xsd.Document

XML Schema documents as trees. Types are referred to by name, never shared. The look-ups find the
first namespace binding or item that fits.
-/

namespace XsdSynthesis
namespace Xsd

/-- An attribute of a complex type. -/
structure Attribute where
  name : String
  typeName : Option QualifiedName
  isRequired : Bool
  deriving DecidableEq

mutual

/-- An element. `minOccurs` is written only when it is there. -/
inductive Element where
  | mk (name : String) (minOccurs : Option Nat) (typeName : Option QualifiedName)
      (complexType : Option ComplexType)

/-- A complex type: a sequence of elements, if any, and attributes. A type without a name stands
inside an element. -/
inductive ComplexType where
  | mk (name : Option String) (sequence : Option (List Element)) (attributes : List Attribute)

end

instance : Inhabited Element := ⟨.mk "" none none none⟩

instance : Inhabited ComplexType := ⟨.mk none none []⟩

namespace Element

def name : Element → String
  | mk name .. => name

/-- The least number of times an element occurs, if it is not once. -/
def minOccurs : Element → Option Nat
  | mk _ minOccurs .. => minOccurs

def typeName : Element → Option QualifiedName
  | mk _ _ typeName _ => typeName

def complexType : Element → Option ComplexType
  | mk _ _ _ complexType => complexType

end Element

namespace ComplexType

def name : ComplexType → Option String
  | mk name .. => name

def sequence : ComplexType → Option (List Element)
  | mk _ sequence _ => sequence

def attributes : ComplexType → List Attribute
  | mk _ _ attributes => attributes

def elements (t : ComplexType) : List Element := t.sequence.getD []

/-- The type under another name. -/
def withName (name : String) : ComplexType → ComplexType
  | mk _ sequence attributes => mk (some name) sequence attributes

end ComplexType

/-- A named simple type that restricts another one. -/
structure SimpleType where
  name : String
  base : QualifiedName
  deriving DecidableEq

/-- An entry of documentation: an attribute of fixed value. -/
structure FixedAttribute where
  name : String
  fixed : String
  deriving DecidableEq

/-- The documentation of a document: parts, each a list of entries. -/
structure Documentation where
  parts : List (List FixedAttribute)
  deriving DecidableEq

/-- A top-level item of a document. -/
inductive Item where
  | documentation (documentation : Documentation)
  | element (element : Element)
  | complexType (type : ComplexType)
  | simpleType (type : SimpleType)

/-- An XML Schema document. `namespaces` pairs prefixes with URIs. -/
structure Document where
  namespaces : List (String × String) := []
  attributeForm : Option Form := none
  elementForm : Option Form := none
  blockDefault : Option (List Derivation) := none
  finalDefault : Option (List Derivation) := none
  items : List Item := []

namespace Document

def prefixOf? (d : Document) (uri : String) : Option String :=
  (d.namespaces.find? (·.2 == uri)).map (·.1)

def namespaceOf? (d : Document) (boundPrefix : String) : Option String :=
  d.namespaces.lookup boundPrefix

def rootElement? (d : Document) : Option Element :=
  d.items.findSome? fun
    | .element e => some e
    | _ => none

/-- The first top-level complex type of the given name. -/
def complexType? (d : Document) (name : String) : Option ComplexType :=
  d.items.findSome? fun
    | .complexType t => if t.name = some name then some t else none
    | _ => none

/-- The first top-level simple type of the given name. -/
def simpleType? (d : Document) (name : String) : Option SimpleType :=
  d.items.findSome? fun
    | .simpleType t => if t.name = name then some t else none
    | _ => none

def documentation? (d : Document) : Option Documentation :=
  d.items.findSome? fun
    | .documentation a => some a
    | _ => none

end Document
end Xsd
end XsdSynthesis
