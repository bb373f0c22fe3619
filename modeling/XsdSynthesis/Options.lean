import XsdSynthesis.Json.Value

/-!
# XsdSynthesis.Options

Options of a conversion, and how they are read from JSON.
-/

namespace XsdSynthesis

/-- How deep subschemas may be nested, and whether an unknown document attribute is an error. -/
structure Options where
  maxDepth : Nat := 50
  strictAttributes : Bool := false
  deriving DecidableEq

namespace Options

/-- A depth: an integer of 64 bits. -/
def depth? (j : Json) : Option Nat :=
  j.int?.bind fun n => if 0 ≤ n ∧ n.toNat < Nat.pow 2 64 then some n.toNat else none

/-- Options: an object, or an array of up to two entries. What is missing has its default. -/
def ofJson? : Json → Option Options
  | .obj members => do
    let maxDepth ← (members.lookup "max-depth").elim (some 50) depth?
    let strict ← (members.lookup "strict-schema-attributes").elim (some false) Json.bool?
    return ⟨maxDepth, strict⟩
  | .arr [] => some {}
  | .arr [d] => do
    return { maxDepth := ← depth? d }
  | .arr [d, s] => do
    return ⟨← depth? d, ← s.bool?⟩
  | _ => none

end Options
end XsdSynthesis
