import XsdSynthesis.Problem
import XsdSynthesis.Schema.Keyword

/-!
# XsdSynthesis.Schema.Reader

Reading a schema from JSON. A schema is an object, one keyword per member, or `true`, the schema
without keywords. The first member in source order that is malformed decides the problem.
-/

namespace XsdSynthesis

namespace Keyword

def string? (p : Pointer) : Json → Except Problem String
  | .str s => .ok s
  | _ => .error (.fault p .expectedString)

/-- An array of strings. The place of each item is that of the array. -/
def strings? (p : Pointer) : Json → Except Problem (List String)
  | .arr items => items.mapM (string? p)
  | _ => .error (.fault p .expectedStrings)

def members? (p : Pointer) : Json → Except Problem (List (String × Json))
  | .obj members => .ok members
  | _ => .error (.fault p .expectedObject)

def stringMap? (p : Pointer) (j : Json) : Except Problem (List (String × String)) := do
  (← members? p j).mapM fun (name, value) => do
    return (name, ← string? (p.child name) value)

def boolean? (p : Pointer) : Json → Except Problem Bool
  | .bool b => .ok b
  | _ => .error (.fault p .expectedBoolean)

def valueType? (p : Pointer) (name : String) : Except Problem ValueType :=
  match ValueType.ofName? name with
  | some t => .ok t
  | none => .error (.fault p (.unknownType name))

def typeName? (p : Pointer) : Json → Except Problem String
  | .str s => .ok s
  | _ => .error (.fault p .typeNotString)

/-- The value of `type`: one name, or an array of names that is not empty. All items are seen to
be strings before any name is looked up. -/
def types? (p : Pointer) : Json → Except Problem (List ValueType)
  | .str name => return [← valueType? p name]
  | .arr [] => .error (.fault p .noType)
  | .arr items => do (← items.mapM (typeName? p)).mapM (valueType? p)
  | _ => .error (.fault p .expectedTypes)

/-- How the value of a keyword is read: as an object of subschemas, as an array of them, or as a
value without subschemas. -/
inductive Payload where
  | entries (make : List (String × Schema) → Keyword)
  | branches (make : List Schema → Keyword)
  | leaf (read : Pointer → Json → Except Problem Keyword)

/-- How the value of the keyword with the given spelling is read. -/
def payload (name : String) : Payload :=
  match name with
  | "$schema" => .leaf fun p j => return .schema (← string? p j)
  | "$id" => .leaf fun p j => return .id (← string? p j)
  | "$ref" => .leaf fun p j => return .ref (← string? p j)
  | "type" => .leaf fun p j => return .type (← types? p j)
  | "$defs" => .entries (.definitions .defs)
  | "definitions" => .entries (.definitions .definitions)
  | "properties" => .entries .properties
  | "oneOf" => .branches (.combinator .oneOf)
  | "anyOf" => .branches (.combinator .anyOf)
  | "allOf" => .branches (.combinator .allOf)
  | "required" => .leaf fun p j => return .required (← strings? p j)
  | "info" => .leaf fun p j => return .info (← members? p j)
  | "@xsdNamespaces" => .leaf fun p j => return .namespaces (← stringMap? p j)
  | "@xsdSchemaAttributes" => .leaf fun p j => return .documentAttributes (← stringMap? p j)
  | "@xsdAttribute" => .leaf fun p j => return .asAttribute (← boolean? p j)
  | _ => .leaf fun _ j => return .unknown name j

end Keyword

namespace Schema

mutual

/-- The schema that stands at a place. -/
def readAt (p : Pointer) : Json → Except Problem Schema
  | .obj members => do return .mk (← readKeywords p members)
  | .bool true => .ok (.mk [])
  | .bool false => .error (.unsupported p .falseSchema)
  | _ => .error (.fault p .notSchema)

/-- The keywords of the schema object that stands at a place. -/
def readKeywords (p : Pointer) : List (String × Json) → Except Problem (List Keyword)
  | [] => .ok []
  | (name, j) :: rest => do
    let keyword ← readKeyword (p.child name) name j
    return keyword :: (← readKeywords p rest)

/-- The keyword whose value stands at a place. -/
def readKeyword (p : Pointer) (name : String) (j : Json) : Except Problem Keyword :=
  match Keyword.payload name, j with
  | .entries make, .obj members => do return make (← readEntries p members)
  | .entries _, _ => .error (.fault p .expectedObject)
  | .branches make, .arr items => do return make (← readBranches p 0 items)
  | .branches _, _ => .error (.fault p .expectedSchemas)
  | .leaf read, j => read p j

/-- The subschemas of an object that stands at a place. -/
def readEntries (p : Pointer) : List (String × Json) → Except Problem (List (String × Schema))
  | [] => .ok []
  | (name, j) :: rest => do
    let schema ← readAt (p.child name) j
    return (name, schema) :: (← readEntries p rest)

/-- The subschemas of an array that stands at a place, from an index on. -/
def readBranches (p : Pointer) (index : Nat) : List Json → Except Problem (List Schema)
  | [] => .ok []
  | j :: rest => do
    let schema ← readAt (p.child (toString index)) j
    return schema :: (← readBranches p (index + 1) rest)

end

/-- The schema that a document is. -/
def ofJson? (j : Json) : Except Problem Schema := readAt .root j

end Schema
end XsdSynthesis
