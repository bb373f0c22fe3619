import XsdSynthesis.Conversion.Ledger

/-!
# XsdSynthesis.Conversion.DocumentAttributes

The attributes of the document, from `@xsdSchemaAttributes`: two forms and two sets of derivation
methods. An attribute of another name is an error under strict options, and else a warning.
-/

namespace XsdSynthesis
namespace Conversion

open Xsd

def form? (place : Pointer) (value : String) : Except Problem Form :=
  match Form.ofText? value with
  | some form => .ok form
  | none => .error (.fault place (.invalidForm value))

/-- The set of methods that a value names, all of which must be allowed. -/
def derivations? (place : Pointer) (allowed : Derivation → Bool) (value : String) :
    Except Problem (List Derivation) :=
  match (Derivation.setOfText? value).filter (·.all allowed) with
  | some set => .ok set
  | none => .error (.fault place (.invalidDerivations value))

/-- The attributes that a schema declares for the document. -/
def declaredAttributes (s : Schema) : List (String × String) :=
  match s.get? .documentAttributes with
  | some (.documentAttributes attributes) => attributes
  | _ => []

def applyAttribute (source : Source) (name value : String) : Conversion Unit := do
  let place := Pointer.root.append [Spelling.documentAttributes, name]
  match name with
  | "AttributeFormDefault" =>
    let form ← form? place value
    amend fun d => { d with attributeForm := some form }
  | "ElementFormDefault" =>
    let form ← form? place value
    amend fun d => { d with elementForm := some form }
  | "BlockDefault" =>
    let set ← derivations? place Derivation.mayBlock value
    amend fun d => { d with blockDefault := some set }
  | "FinalDefault" =>
    let set ← derivations? place Derivation.mayBeFinal value
    amend fun d => { d with finalDefault := some set }
  | name =>
    if source.options.strictAttributes then stop (.fault place (.unknownAttribute name))
    else emit (.unknownAttribute name)

def applyEach (source : Source) : List (String × String) → Conversion Unit
  | [] => pure ()
  | (name, value) :: rest => do
    applyAttribute source name value
    applyEach source rest

/-- Applies all attributes that the schema declares. -/
def applyAttributes (source : Source) : Conversion Unit :=
  applyEach source (declaredAttributes source.schema)

end Conversion
end XsdSynthesis
