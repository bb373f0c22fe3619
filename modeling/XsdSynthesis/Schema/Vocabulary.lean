/-!
# XsdSynthesis.Schema.Vocabulary

The closed vocabularies of schema documents: value types, the two containers of definitions, the
three combinators, and the spelling of the extension keywords.
-/

namespace XsdSynthesis

/-- A type of JSON values, as the keyword `type` names it. -/
inductive ValueType where
  | string
  | integer
  | number
  | boolean
  | object
  | array
  | null
  deriving DecidableEq

namespace ValueType

def all : List ValueType := [string, integer, number, boolean, object, array, null]

def name : ValueType → String
  | string => "string"
  | integer => "integer"
  | number => "number"
  | boolean => "boolean"
  | object => "object"
  | array => "array"
  | null => "null"

def ofName? (text : String) : Option ValueType := all.find? (·.name == text)

/-- The built-in XML Schema type for the values of a type. Objects, arrays and null have none. -/
def primitive? : ValueType → Option String
  | string => some "string"
  | integer => some "integer"
  | number => some "decimal"
  | boolean => some "boolean"
  | _ => none

theorem ofName?_name (t : ValueType) : ofName? t.name = some t := by
  cases t <;> decide

end ValueType

/-- A keyword under which a document keeps its definitions. -/
inductive Container where
  | defs
  | definitions
  deriving DecidableEq

namespace Container

def name : Container → String
  | defs => "$defs"
  | definitions => "definitions"

def ofName? (text : String) : Option Container := [defs, definitions].find? (·.name == text)

theorem ofName?_name (c : Container) : ofName? c.name = some c := by
  cases c <;> decide

end Container

/-- A keyword that combines subschemas. -/
inductive Combinator where
  | oneOf
  | anyOf
  | allOf
  deriving DecidableEq

def Combinator.name : Combinator → String
  | oneOf => "oneOf"
  | anyOf => "anyOf"
  | allOf => "allOf"

namespace Spelling

/-- The keyword that declares XML namespaces by prefix. -/
def namespaces : String := "@xsdNamespaces"

/-- The keyword with the attributes of the XML Schema document. -/
def documentAttributes : String := "@xsdSchemaAttributes"

/-- The keyword that makes a property an XML attribute. -/
def asAttribute : String := "@xsdAttribute"

end Spelling
end XsdSynthesis
