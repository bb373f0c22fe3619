import XsdSynthesis.Json.Value
import XsdSynthesis.Pointer
import XsdSynthesis.Schema.Vocabulary
import XsdSynthesis.Shape

/-!
# XsdSynthesis.Problem

Why a conversion stops. A `Problem` is the cause and the place; a `Report` is what is told of it:
a stable code, the text of the place, and a message. The wording of every cause stands here.
-/

namespace XsdSynthesis

/-- What is wrong with a document at a place. -/
inductive Fault where
  | expectedString
  | expectedBoolean
  | expectedObject
  | expectedSchemas
  | expectedStrings
  | expectedTypes
  | noType
  | typeNotString
  | unknownType (name : String)
  | notSchema
  | invalidName (name : String)
  | invalidForm (value : String)
  | invalidDerivations (value : String)
  | unknownAttribute (name : String)
  | takenPrefix (boundPrefix uri builtIn : String)
  | infoNotString
  | undeclaredRequired (name : String)
  | repeatedType (name : String)
  | visitedTwice
  | capturedReference (reference : String) (origin : Pointer) (uri : String)
  | spentConverter
  deriving DecidableEq

def Fault.message : Fault → String
  | expectedString => "expected a string"
  | expectedBoolean => "expected a boolean"
  | expectedObject => "expected an object"
  | expectedSchemas => "expected an array of schemas"
  | expectedStrings => "expected an array of strings"
  | expectedTypes => "expected a string or array of strings"
  | noType => "type must name at least one value type"
  | typeNotString => "type entries must be strings"
  | unknownType name => s!"unknown type '{name}'"
  | notSchema => "schema must be an object or boolean"
  | invalidName name => s!"'{name}' is not a valid XML name"
  | invalidForm value => s!"'{value}' is not a valid form"
  | invalidDerivations value => s!"'{value}' is not a valid derivation method set"
  | unknownAttribute name => s!"unknown schema attribute '{name}'"
  | takenPrefix boundPrefix uri builtIn =>
    s!"prefix '{boundPrefix}' is bound to '{uri}' and cannot also name '{builtIn}'"
  | infoNotString => "info values must be strings"
  | undeclaredRequired name => s!"required property '{name}' is not declared in properties"
  | repeatedType name => s!"type '{name}' is defined more than once"
  | visitedTwice => "subschema visited more than once"
  | capturedReference reference origin uri =>
    s!"'{reference}' at {origin.text} needs an unprefixed type name, " ++
      s!"but the default namespace is bound to '{uri}'"
  | spentConverter => "converter instances are single-use"

/-- What a document asks for that no XML Schema is made of. -/
inductive Construct where
  | falseSchema
  | complexAttribute
  | noShape
  | derivedShape (shape : Shape)
  | complexWithTypes (types : List ValueType)
  | referenceWithType
  | severalTypes
  | typeWithoutPrimitive (type : ValueType)
  | definitionAsAttribute
  | untypedDefinition
  | derivationCycle (chain : List String)
  | baseNotSimple (name base : String)
  | inlineRootWith (combinator : Combinator)
  deriving DecidableEq

def Construct.message : Construct → String
  | falseSchema => "the \x60false\x60 schema has no XSD equivalent"
  | complexAttribute => "@xsdAttribute on a complex type"
  | noShape => "no compatible XSD type shape"
  | derivedShape shape => s!"{shape.name} is not implemented"
  | complexWithTypes types =>
    "type [" ++ ", ".intercalate (types.map ValueType.name) ++ "] on a complex type"
  | referenceWithType => "$ref combined with type"
  | severalTypes => "type must have exactly one value"
  | typeWithoutPrimitive type => s!"type '{type.name}' has no XSD primitive mapping"
  | definitionAsAttribute => "@xsdAttribute on a definition"
  | untypedDefinition => "simple definition without $ref or type"
  | derivationCycle chain => "simple type derivation cycle " ++ " -> ".intercalate chain
  | baseNotSimple name base =>
    s!"simple type '{name}' cannot restrict '{base}', which is not a simple type"
  | inlineRootWith combinator => s!"{combinator.name} on an inline root"

/-- What is wrong with the root of a document. -/
inductive RootFault where
  | noWrapper
  | propertiesBeside
  | twoCombinators (first second : Combinator)
  | branchCount (combinator : Combinator) (count : Nat)
  | branchNotReference (branch : Pointer)
  | shapelessInline
  deriving DecidableEq

def RootFault.message : RootFault → String
  | noWrapper => "expected an allOf/anyOf/oneOf wrapping a single $ref"
  | propertiesBeside => "a root that wraps a $ref cannot also declare properties"
  | twoCombinators first second =>
    s!"expected one combinator at the root, found both {first.name} and {second.name}"
  | branchCount combinator count =>
    s!"{combinator.name} must have exactly one branch, found {count}"
  | branchNotReference branch => s!"{branch.text} must contain only a $ref"
  | shapelessInline =>
    "schema has an inline root, but it is not defined as a valid SimpleType or ComplexType"

/-- A cause and its place. A text that is no JSON and the shape of a root have no place. -/
inductive Problem where
  | notJson
  | fault (place : Pointer) (fault : Fault)
  | tooDeep (place : Pointer) (limit : Nat)
  | unhandled (place : Pointer) (keywords : List String)
  | unsupported (place : Pointer) (construct : Construct)
  | unresolved (place : Pointer) (reference : String)
  | root (fault : RootFault)
  deriving DecidableEq

def Problem.place? : Problem → Option Pointer
  | notJson | root _ => none
  | fault p _ | tooDeep p _ | unhandled p _ | unsupported p _ | unresolved p _ => some p

/-- Stable names for the kinds of problems. -/
inductive Report.Code where
  | jsonParseError
  | schemaError
  | recursionDepthExceeded
  | unsupportedSchema
  | unsupportedConstruct
  | invalidReference
  | invalidRootShape
  deriving DecidableEq

namespace Report.Code

def all : List Report.Code :=
  [jsonParseError, schemaError, recursionDepthExceeded, unsupportedSchema, unsupportedConstruct,
    invalidReference, invalidRootShape]

def name : Report.Code → String
  | jsonParseError => "json_parse_error"
  | schemaError => "schema_error"
  | recursionDepthExceeded => "recursion_depth_exceeded"
  | unsupportedSchema => "unsupported_schema"
  | unsupportedConstruct => "unsupported_construct"
  | invalidReference => "invalid_reference"
  | invalidRootShape => "invalid_root_shape"

def ofName? (text : String) : Option Report.Code := all.find? (·.name == text)

theorem ofName?_name (c : Report.Code) : ofName? c.name = some c := by
  cases c <;> decide

/-- The code that a JSON value names: its text, or an object whose only member has that name and no
value. -/
def ofJson? : Json → Option Report.Code
  | .str text => ofName? text
  | .obj [(text, .null)] => ofName? text
  | _ => none

end Report.Code

/-- What is told of a problem: its kind, the text of its place, and its particulars. -/
inductive Report where
  | json
  | schema (path message : String)
  | depth (path : String) (limit : Nat)
  | keywords (path : String) (names : List String)
  | construct (path construct : String)
  | reference (path reference : String)
  | rootShape (message : String)
  deriving DecidableEq

namespace Report

def code : Report → Code
  | json => .jsonParseError
  | schema .. => .schemaError
  | depth .. => .recursionDepthExceeded
  | keywords .. => .unsupportedSchema
  | construct .. => .unsupportedConstruct
  | reference .. => .invalidReference
  | rootShape _ => .invalidRootShape

def path? : Report → Option String
  | json | rootShape _ => none
  | schema path _ | depth path _ | keywords path _ | construct path _ | reference path _ =>
    some path

def message : Report → String
  | json => "JSON (de)serialization error"
  | schema path what => s!"Schema error at {path}: {what}"
  | depth path limit => s!"Recursion depth exceeded at {path} (max: {limit})"
  | keywords path names =>
    s!"Unhandled keyword(s) in JSON Schema at {path}: '" ++ "', '".intercalate names ++ "'"
  | construct path what => s!"Unsupported construct at {path}: {what}"
  | reference path target =>
    s!"Invalid reference at {path}: '{target}' must point to a definition in $defs/definitions"
  | rootShape what => s!"Invalid root shape: {what}"

def toJson (r : Report) : Json :=
  .obj [("code", .str r.code.name), ("message", .str r.message),
    ("path", match r.path? with
      | some path => .str path
      | none => .null)]

end Report

def Problem.report : Problem → Report
  | notJson => .json
  | fault p f => .schema p.text f.message
  | tooDeep p limit => .depth p.text limit
  | unhandled p names => .keywords p.text names
  | unsupported p c => .construct p.text c.message
  | unresolved p reference => .reference p.text reference
  | root f => .rootShape f.message

/-- A report tells the place of its problem. -/
theorem Problem.path?_report (p : Problem) : p.report.path? = p.place?.map Pointer.text := by
  cases p <;> rfl

end XsdSynthesis
