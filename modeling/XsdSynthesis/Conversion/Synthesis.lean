import XsdSynthesis.Conversion.Reference
import XsdSynthesis.Schema.WorkList

/-!
# XsdSynthesis.Conversion.Synthesis

From a subschema to a type. The shapes of its place decide: a complex one is made of its
`properties`, each an element or an attribute; a simple one is named by its `$ref` or its `type`.
Every keyword must be consumed by the rule of the shape, but for those that speak of the document
as a whole.
-/

namespace XsdSynthesis
namespace Conversion

open Xsd

/-- What a subschema becomes: a complex type, or the name of a simple type, if it has one. -/
inductive Node where
  | complex (type : ComplexType)
  | simple (typeName : Option QualifiedName)

/-- A node, and whether its schema asks to be an attribute. -/
structure Synthesized where
  node : Node
  asAttribute : Bool

/-- Kinds that speak of the document and mean nothing at a subschema. -/
def documentKinds : List Kind := [.schema, .id, .namespaces, .documentAttributes]

/-- Refuses a list with keywords that nothing consumed. -/
def checkDrained (place : Pointer) (w : WorkList) : Except Problem Unit :=
  if w.unhandledNames = [] then .ok () else .error (.unhandled place w.unhandledNames)

/-- Refuses shapes that derive a type from another. -/
def checkPlain (place : Pointer) (derivations : List Shape) (shapes : ShapeSet) :
    Except Problem Unit :=
  match derivations.find? shapes.contains with
  | some shape => .error (.unsupported place (.derivedShape shape))
  | none => .ok ()

/-- Refuses types other than `object` alone. -/
def checkObject (place : Pointer) : Option (List ValueType) → Except Problem Unit
  | none => .ok ()
  | some types =>
    if types = [.object] then .ok () else .error (.unsupported place (.complexWithTypes types))

def checkRequired (place : Pointer) (required : List String)
    (properties : List (String × Schema)) : Except Problem Unit :=
  match required.find? fun name => !(properties.map Prod.fst).contains name with
  | some name => .error (.fault (place.child "required") (.undeclaredRequired name))
  | none => .ok ()

/-- Consumes the keywords of a complex type and gives the names of its required properties. -/
def openComplex (place : Pointer) (shapes : ShapeSet) (w : WorkList) :
    Except Problem (List String × WorkList) := do
  checkPlain place Shape.complexDerivations shapes
  let (types, w) := w.pullTypes
  checkObject place types
  let (required, w) := w.pullRequired
  let (properties, w) := w.pullProperties
  let required := required.getD []
  checkRequired place required (properties.getD [])
  return (required, w)

def primitiveOf (place : Pointer) : List ValueType → Except Problem QualifiedName
  | [t] =>
    match t.primitive? with
    | some name => .ok (.builtIn name)
    | none => .error (.unsupported place (.typeWithoutPrimitive t))
  | _ => .error (.unsupported place .severalTypes)

/-- Consumes the keywords of a simple type and gives its name, if it has one. -/
def simpleTypeName (s : Schema) (defaultNamespace : Option String) (place : Pointer)
    (shapes : ShapeSet) (w : WorkList) : Except Problem (Option QualifiedName × WorkList) := do
  checkPlain place Shape.simpleDerivations shapes
  let (reference, w) := w.pullReference
  let (types, w) := w.pullTypes
  match reference, types with
  | some _, some _ => .error (.unsupported place .referenceWithType)
  | some reference, none =>
    let name ← resolve s defaultNamespace place reference
    return (some (.plain name), w)
  | none, some types => return (some (← primitiveOf place types), w)
  | none, none => return (none, w)

/-- The members of a complex type. -/
structure Members where
  elements : List Element
  attributes : List Attribute

namespace Members

def empty : Members := ⟨[], []⟩

/-- The members with one before them that a property gives. -/
def add (m : Members) (name : String) (isRequired : Bool) (s : Synthesized) : Members :=
  let minOccurs := if isRequired then none else some 0
  match s.node with
  | .complex type => { m with elements := .mk name minOccurs none (some type) :: m.elements }
  | .simple typeName =>
    if s.asAttribute then { m with attributes := ⟨name, typeName, isRequired⟩ :: m.attributes }
    else { m with elements := .mk name minOccurs typeName none :: m.elements }

/-- The nameless complex type with the given members. Without elements it has no sequence. -/
def type (m : Members) : ComplexType :=
  .mk none (if m.elements.isEmpty then none else some m.elements) m.attributes

end Members

/-- What the empty prefix of the document is bound to. -/
def defaultNamespace : Conversion (Option String) := do
  return (← ledger).document.namespaceOf? ""

mutual

/-- The type of the subschema at a place. -/
def synthesize (source : Source) (place : Pointer) (depth : Nat) : Schema → Conversion Synthesized
  | .mk keywords => do
    enter source place depth
    let w := (WorkList.mk keywords []).markAll documentKinds
    let (flag, w) := w.pullAsAttribute
    let asAttribute := flag.getD false
    let shapes := source.classifier.shapes place
    if shapes.isComplex then
      if asAttribute then stop (.unsupported place .complexAttribute)
      else
        let (required, w) ← openComplex place shapes w
        let members ← membersOf source place depth required keywords
        checkDrained place w
        return ⟨.complex members.type, asAttribute⟩
    else if shapes.isSimple then
      let (typeName, w) ← simpleTypeName source.schema (← defaultNamespace) place shapes w
      checkDrained place w
      return ⟨.simple typeName, asAttribute⟩
    else stop (.unsupported place .noShape)

/-- The members that the first `properties` among keywords declares. -/
def membersOf (source : Source) (place : Pointer) (depth : Nat) (required : List String) :
    List Keyword → Conversion Members
  | [] => return .empty
  | .properties entries :: _ => entriesOf source place depth required entries
  | _ :: rest => membersOf source place depth required rest

/-- The members that properties give, in order. -/
def entriesOf (source : Source) (place : Pointer) (depth : Nat) (required : List String) :
    List (String × Schema) → Conversion Members
  | [] => return .empty
  | (name, schema) :: rest => do
    let child := place.append ["properties", name]
    checkName child name
    let made ← synthesize source child (depth + 1) schema
    let members ← entriesOf source place depth required rest
    return members.add name (required.contains name) made

end

end Conversion
end XsdSynthesis
