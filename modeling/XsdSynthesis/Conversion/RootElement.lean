import XsdSynthesis.Conversion.Synthesis

/-!
# XsdSynthesis.Conversion.RootElement

The one top-level element of a document, named by the message name. An inline root gives it a type
as a subschema gets one; any other root wraps a single reference in a combinator, and the element
has the type that the reference stands for.
-/

namespace XsdSynthesis

namespace Schema

/-- The combinators of a schema with their branches, in source order. -/
def combinators (s : Schema) : List (Combinator × List Schema) :=
  s.keywords.filterMap fun
    | .combinator c branches => some (c, branches)
    | _ => none

/-- The reference of a schema that holds nothing else. -/
def soleReference? (s : Schema) : Option String :=
  match s.keywords with
  | [.ref reference] => some reference
  | _ => none

end Schema

namespace Conversion

open Xsd

/-- The single branch of the combinator that the root wraps a reference in, and its place. -/
def wrappedBranch (s : Schema) : Except Problem (Pointer × Schema) :=
  if (s.get? .properties).isSome then .error (.root .propertiesBeside)
  else
    match s.combinators with
    | [] => .error (.root .noWrapper)
    | [(c, [branch])] => .ok (Pointer.root.append [c.name, "0"], branch)
    | [(c, branches)] => .error (.root (.branchCount c branches.length))
    | (first, _) :: (second, _) :: _ => .error (.root (.twoCombinators first second))

/-- The type name of a root that wraps a reference. -/
def wrappedTypeName (s : Schema) (defaultNamespace : Option String) :
    Except Problem QualifiedName := do
  let (place, branch) ← wrappedBranch s
  match branch.soleReference? with
  | some reference => return .plain (← resolve s defaultNamespace place reference)
  | none => .error (.root (.branchNotReference place))

/-- The element of an inline root, and the keywords it leaves. -/
def inlineRoot (source : Source) (w : WorkList) : Conversion (Element × WorkList) := do
  let name := source.classifier.messageName
  match source.schema.combinators with
  | (c, _) :: _ => stop (.unsupported .root (.inlineRootWith c))
  | [] =>
    enter source .root 0
    let shapes := source.classifier.shapes .root
    if shapes.isComplex then
      let (required, w) ← openComplex .root shapes w
      let members ← membersOf source .root 0 required source.schema.keywords
      return (.mk name none none (some members.type), w)
    else if shapes.isSimple then
      let (typeName, w) ← simpleTypeName source.schema (← defaultNamespace) .root shapes w
      return (.mk name none typeName none, w)
    else stop (.root .shapelessInline)

def wrappedRoot (source : Source) : Conversion Element := do
  let typeName ← wrappedTypeName source.schema (← defaultNamespace)
  return .mk source.classifier.messageName none (some typeName) none

/-- Adds the root element to the document, and gives the keywords it leaves. -/
def buildRoot (source : Source) (w : WorkList) : Conversion WorkList := do
  checkName .root source.classifier.messageName
  let (element, w) ←
    if source.classifier.inlineRoot then inlineRoot source w
    else (·, w) <$> wrappedRoot source
  emit (.rootElement element.name)
  addItem (.element element)
  return w

end Conversion
end XsdSynthesis
