/-!
# XsdSynthesis.Xsd.Name

Qualified names, and the two namespaces of XML Schema.
-/

namespace XsdSynthesis
namespace Xsd

def schemaNamespace : String := "http://www.w3.org/2001/XMLSchema"

/-- The namespace of XML Schema's vocabulary for instances. -/
def instanceNamespace : String := "http://www.w3.org/2001/XMLSchema-instance"

/-- A name in a namespace, or in none. -/
structure QualifiedName where
  ns : Option String
  name : String
  deriving DecidableEq

namespace QualifiedName

/-- A name in no namespace, as generated types have. -/
def plain (name : String) : QualifiedName := ⟨none, name⟩

def builtIn (name : String) : QualifiedName := ⟨some schemaNamespace, name⟩

/-- The name with its namespace in braces. -/
def text (q : QualifiedName) : String :=
  match q.ns with
  | some ns => "\x7b" ++ ns ++ "\x7d" ++ q.name
  | none => q.name

end QualifiedName
end Xsd
end XsdSynthesis
