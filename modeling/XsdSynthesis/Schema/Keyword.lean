import XsdSynthesis.Json.Value
import XsdSynthesis.Schema.Vocabulary

/-!
# XsdSynthesis.Schema.Keyword

Schemas as trees of keywords in source order. What is no keyword of the vocabulary is kept under its
name, so that it is noticed if nothing consumes it.
-/

namespace XsdSynthesis

mutual

/-- A keyword with its value. -/
inductive Keyword where
  | schema (uri : String)
  | id (uri : String)
  | type (types : List ValueType)
  | definitions (container : Container) (entries : List (String × Schema))
  | info (entries : List (String × Json))
  | combinator (combinator : Combinator) (branches : List Schema)
  | properties (entries : List (String × Schema))
  | required (names : List String)
  | ref (reference : String)
  | namespaces (bindings : List (String × String))
  | documentAttributes (attributes : List (String × String))
  | asAttribute (flag : Bool)
  | unknown (name : String) (value : Json)

/-- A schema: its keywords in source order. -/
inductive Schema where
  | mk (keywords : List Keyword)

end

instance : Inhabited Schema := ⟨.mk []⟩

/-- A keyword without its value. -/
inductive Kind where
  | schema
  | id
  | type
  | definitions (container : Container)
  | info
  | combinator (combinator : Combinator)
  | properties
  | required
  | ref
  | namespaces
  | documentAttributes
  | asAttribute
  | unknown
  deriving DecidableEq

namespace Keyword

def kind : Keyword → Kind
  | schema _ => .schema
  | id _ => .id
  | type _ => .type
  | definitions c _ => .definitions c
  | info _ => .info
  | combinator c _ => .combinator c
  | properties _ => .properties
  | required _ => .required
  | ref _ => .ref
  | namespaces _ => .namespaces
  | documentAttributes _ => .documentAttributes
  | asAttribute _ => .asAttribute
  | unknown .. => .unknown

def name : Keyword → String
  | schema _ => "$schema"
  | id _ => "$id"
  | type _ => "type"
  | definitions c _ => c.name
  | info _ => "info"
  | combinator c _ => c.name
  | properties _ => "properties"
  | required _ => "required"
  | ref _ => "$ref"
  | namespaces _ => Spelling.namespaces
  | documentAttributes _ => Spelling.documentAttributes
  | asAttribute _ => Spelling.asAttribute
  | unknown name _ => name

end Keyword

namespace Schema

def keywords : Schema → List Keyword
  | mk keywords => keywords

@[simp] theorem keywords_mk (ks : List Keyword) : (mk ks).keywords = ks := rfl

/-- The first keyword of a kind. -/
def get? (s : Schema) (kind : Kind) : Option Keyword := s.keywords.find? (·.kind == kind)

/-- The entries of a container of definitions. -/
def definitions (s : Schema) (c : Container) : List (String × Schema) :=
  match s.get? (.definitions c) with
  | some (.definitions _ entries) => entries
  | _ => []

/-- The definition of the given name in a container. -/
def definition? (s : Schema) (c : Container) (name : String) : Option Schema :=
  (s.definitions c).lookup name

/-- The reference of a schema that has one. -/
def reference? (s : Schema) : Option String :=
  match s.get? .ref with
  | some (.ref reference) => some reference
  | _ => none

end Schema
end XsdSynthesis
