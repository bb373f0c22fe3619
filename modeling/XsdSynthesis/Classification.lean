import Std.Data.ExtTreeMap
import XsdSynthesis.Json.Text
import XsdSynthesis.Pointer
import XsdSynthesis.Shape

/-!
# XsdSynthesis.Classification

What is known of a schema document from outside: the name of its message element, whether its
root defines that element's type inline, and the shapes of its subschemas. A `Classifier` answers
such questions; a `Classification` is a table that does, and is read from JSON. In a table the
last entry for a pointer counts, however its text is spelled.
-/

namespace XsdSynthesis

/-- Answers to the questions that a conversion asks. -/
structure Classifier where
  messageName : String
  inlineRoot : Bool
  shapes : Pointer → ShapeSet

/-- Shapes by pointer, in the order of pointers. -/
abbrev ShapeTable := Std.ExtTreeMap Pointer ShapeSet compare

/-- A table of answers. -/
structure Classification where
  messageName : String
  inlineRoot : Bool
  table : ShapeTable

namespace Classification

def new (messageName : String) (inlineRoot : Bool) : Classification := ⟨messageName, inlineRoot, ∅⟩

def insert (c : Classification) (p : Pointer) (shapes : List Shape) : Classification :=
  { c with table := c.table.insert p (.ofList shapes) }

/-- An insertion for the pointer that a text denotes; a text that denotes none is refused. -/
def insertText (c : Classification) (text : String) (shapes : List Shape) :
    Except String Classification :=
  match Pointer.ofText? text with
  | some p => .ok (c.insert p shapes)
  | none => .error (Pointer.refusal text)

/-- The shapes of a pointer, none when the table has no entry for it. -/
def shapes (c : Classification) (p : Pointer) : ShapeSet := c.table[p]?.getD .empty

def classifier (c : Classification) : Classifier := ⟨c.messageName, c.inlineRoot, c.shapes⟩

def entries (c : Classification) : List (Pointer × ShapeSet) := c.table.toList

theorem getElem?_insert (c : Classification) (p q : Pointer) (shapes : List Shape) :
    (c.insert p shapes).table[q]? = if p = q then some (.ofList shapes) else c.table[q]? := by
  simp only [insert, Std.ExtTreeMap.getElem?_insert, Std.LawfulEqCmp.compare_eq_iff_eq]

/-- After an insertion a pointer has the inserted shapes, and the others have what they had. -/
theorem shapes_insert (c : Classification) (p q : Pointer) (shapes : List Shape) :
    (c.insert p shapes).shapes q = if p = q then .ofList shapes else c.shapes q := by
  rw [Classification.shapes, getElem?_insert]
  split <;> rfl

/-- A shape: its name, or an object whose only member has that name and no value. -/
def shape? : Json → Option Shape
  | .str name => Shape.ofName? name
  | .obj [(name, .null)] => Shape.ofName? name
  | _ => none

def shapeSet? (j : Json) : Option ShapeSet :=
  j.arr?.bind fun items => (items.mapM shape?).map .ofList

/-- A table with the entry that one member gives added. -/
def addEntry? (table : ShapeTable) (member : String × Json) : Option ShapeTable := do
  let p ← Pointer.ofText? member.1
  let set ← shapeSet? member.2
  return table.insert p set

/-- A table: an object from pointer texts to sets of shapes. -/
def table? (j : Json) : Option ShapeTable :=
  j.obj?.bind fun members => members.foldlM addEntry? ∅

/-- The member of the given name, if it is there; the outer `none` refuses a repeated one. -/
def member? (members : List (String × Json)) (name : String) : Option (Option Json) :=
  match members.filter (·.1 == name) with
  | [] => some none
  | [m] => some (some m.2)
  | _ => none

/-- The members that a table object may have; others mean nothing. -/
def memberNames : List String := ["message-name", "has-inline-root", "compatible-types"]

/-- A classification: an object, or an array of up to three entries. The message name is
required; the others default to a root that is not inline and a table without entries. -/
def ofJson? : Json → Option Classification
  | .obj members => do
    let name ← (← member? members "message-name").bind Json.str?
    let inlineRoot ← (← member? members "has-inline-root").elim (some false) Json.bool?
    let table ← (← member? members "compatible-types").elim (some ∅) table?
    return ⟨name, inlineRoot, table⟩
  | .arr [name] => do
    return ⟨← name.str?, false, ∅⟩
  | .arr [name, inlineRoot] => do
    return ⟨← name.str?, ← inlineRoot.bool?, ∅⟩
  | .arr [name, inlineRoot, table] => do
    return ⟨← name.str?, ← inlineRoot.bool?, ← table? table⟩
  | _ => none

def toJson (c : Classification) : Json :=
  .obj [("message-name", .str c.messageName), ("has-inline-root", .bool c.inlineRoot),
    ("compatible-types", .obj (c.entries.map fun (p, set) =>
      (p.text, .arr (set.shapes.map fun s => .str s.name))))]

/-- A classification from the bytes of a file. Of an object only the members that mean something
need values; the others are passed over as written. -/
def ofBytes? (bytes : ByteArray) : Option Classification := do
  let w ← Json.Written.ofSymbols? (Json.symbolsOfBytes bytes)
  let known ← w.onlyMembers? memberNames
  ofJson? (← known.value? Json.maxDepth)

end Classification
end XsdSynthesis
