import XsdSynthesis.Conversion.Ledger

/-!
# XsdSynthesis.Conversion.Namespaces

The namespace table of a document: what `@xsdNamespaces` declares, in order, and then the two
built-in namespaces as far as they are not declared under a prefix of their own. A built-in
prefix that is declared for another namespace, while its own is missing, is an error.
-/

namespace XsdSynthesis
namespace Conversion

open Xsd

def builtInNamespaces : List (String × String) :=
  [("xsd", schemaNamespace), ("xsi", instanceNamespace)]

/-- The place of the declarations. -/
def namespacesPlace : Pointer := Pointer.root.append [Spelling.namespaces]

/-- The namespaces that a schema declares. -/
def declaredNamespaces (s : Schema) : List (String × String) :=
  match s.get? .namespaces with
  | some (.namespaces bindings) => bindings
  | _ => []

/-- Refuses a prefix that is neither empty nor a name. -/
def checkPrefix (boundPrefix : String) : Except Problem Unit :=
  if boundPrefix = "" then .ok () else checkName (namespacesPlace.child boundPrefix) boundPrefix

/-- A table with a built-in namespace added, unless it is bound already. -/
def addBuiltIn (table : List (String × String)) :
    String × String → Except Problem (List (String × String))
  | (boundPrefix, uri) =>
    if table.any (·.2 == uri) then .ok table
    else match table.lookup boundPrefix with
      | some bound => .error (.fault namespacesPlace (.takenPrefix boundPrefix bound uri))
      | none => .ok (table ++ [(boundPrefix, uri)])

/-- The table of a document with the given declarations. -/
def namespaceTable (declared : List (String × String)) : Except Problem (List (String × String)) := do
  declared.forM fun (boundPrefix, _) => checkPrefix boundPrefix
  builtInNamespaces.foldlM addBuiltIn declared

def applyNamespaces (source : Source) : Conversion Unit := do
  let table ← namespaceTable (declaredNamespaces source.schema)
  emit (.namespacesBound table.length)
  amend fun d => { d with namespaces := table }

end Conversion
end XsdSynthesis
