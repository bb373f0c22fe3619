import XsdSynthesis.Conversion.Namespaces

/-!
# XsdSynthesis.Conversion.Reference

References to definitions. A reference is a fragment whose pointer has two segments, a container and
the name of one of its entries; it stands for the generated type of that name. Such a name is
written without a prefix, so none may be referred to while the default namespace is bound.
-/

namespace XsdSynthesis

namespace Schema

/-- The definition that a reference points to, as its container and its name. -/
def target? (s : Schema) (reference : String) : Option (Container × String) :=
  if reference.toList.head? = some '#' then
    match Pointer.ofText? reference with
    | some ⟨[container, name]⟩ => do
      let c ← Container.ofName? container
      let _ ← s.definition? c name
      return (c, name)
    | _ => none
  else none

end Schema

namespace Conversion

/-- The name of the type that a reference at a place stands for. `defaultNamespace` is what the
empty prefix is bound to. -/
def resolve (s : Schema) (defaultNamespace : Option String) (place : Pointer)
    (reference : String) : Except Problem String :=
  match s.target? reference with
  | none => .error (.unresolved place reference)
  | some (_, name) =>
    match defaultNamespace with
    | some uri => .error (.fault namespacesPlace (.capturedReference reference place uri))
    | none => .ok name

end Conversion
end XsdSynthesis
