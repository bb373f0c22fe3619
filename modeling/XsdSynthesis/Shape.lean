/-!
# XsdSynthesis.Shape

The structural categories a subschema can be rendered as, and sets of them. A set is kept in the
order in which the shapes are declared, without repetition, so equal sets are equal values.
-/

namespace XsdSynthesis

/-- A structural category of XML Schema types. -/
inductive Shape where
  | complexType
  | simpleType
  | simpleTypeList
  | simpleTypeRestriction
  | complexContentRestriction
  | complexContentExtension
  | simpleContentRestriction
  | simpleContentExtension
  deriving DecidableEq

namespace Shape

def all : List Shape :=
  [complexType, simpleType, simpleTypeList, simpleTypeRestriction, complexContentRestriction,
    complexContentExtension, simpleContentRestriction, simpleContentExtension]

def name : Shape → String
  | complexType => "ComplexType"
  | simpleType => "SimpleType"
  | simpleTypeList => "SimpleTypeList"
  | simpleTypeRestriction => "SimpleTypeRestriction"
  | complexContentRestriction => "ComplexContentRestriction"
  | complexContentExtension => "ComplexContentExtension"
  | simpleContentRestriction => "SimpleContentRestriction"
  | simpleContentExtension => "SimpleContentExtension"

def ofName? (text : String) : Option Shape := all.find? (·.name == text)

theorem mem_all (s : Shape) : s ∈ all := by
  cases s <;> decide

theorem ofName?_name (s : Shape) : ofName? s.name = some s := by
  cases s <;> decide

/-- Shapes that derive a complex type from another type's content. -/
def complexDerivations : List Shape :=
  [complexContentRestriction, complexContentExtension, simpleContentRestriction,
    simpleContentExtension]

/-- Shapes that derive a simple type from another simple type. -/
def simpleDerivations : List Shape := [simpleTypeList, simpleTypeRestriction]

end Shape

/-- A set of shapes: its members in declaration order, each once. -/
structure ShapeSet where
  shapes : List Shape
  declared : shapes.Sublist Shape.all
  deriving DecidableEq

namespace ShapeSet

def empty : ShapeSet := ⟨[], List.nil_sublist _⟩

instance : Inhabited ShapeSet := ⟨empty⟩

def ofList (shapes : List Shape) : ShapeSet :=
  ⟨Shape.all.filter shapes.contains, List.filter_sublist⟩

def contains (set : ShapeSet) (shape : Shape) : Bool := set.shapes.contains shape

def isEmpty (set : ShapeSet) : Bool := set.shapes.isEmpty

/-- Whether a member is rendered as a complex type, plain or derived. -/
def isComplex (set : ShapeSet) : Bool :=
  (Shape.complexType :: Shape.complexDerivations).any set.contains

/-- Whether a member is rendered as a simple type, plain or derived. -/
def isSimple (set : ShapeSet) : Bool :=
  (Shape.simpleType :: Shape.simpleDerivations).any set.contains

@[simp] theorem contains_ofList (shapes : List Shape) (s : Shape) :
    (ofList shapes).contains s = shapes.contains s := by
  rw [Bool.eq_iff_iff]
  simp [contains, ofList, Shape.mem_all]

/-- A list without repetition has a sublist as its members that are in the sublist. -/
theorem filter_contains_sublist {part whole : List Shape} (h : part.Sublist whole)
    (hwhole : whole.Nodup) : whole.filter part.contains = part := by
  induction h with
  | slnil => rfl
  | @cons part whole s hpart ih =>
    obtain ⟨hs, hnodup⟩ := List.nodup_cons.1 hwhole
    have hnot : s ∉ part := fun hm => hs (hpart.subset hm)
    rw [List.filter_cons_of_neg (by simpa using hnot), ih hnodup]
  | @cons_cons part whole s _ ih =>
    obtain ⟨hs, hnodup⟩ := List.nodup_cons.1 hwhole
    have hrest : whole.filter (s :: part).contains = whole.filter part.contains := by
      refine List.filter_congr fun other ho => ?_
      have hne : other ≠ s := fun heq => hs (heq ▸ ho)
      simp [hne]
    rw [List.filter_cons_of_pos (by simp), hrest, ih hnodup]

/-- Sets with the same members are equal. -/
theorem eq_of_contains {set set' : ShapeSet} (h : ∀ s, set.contains s = set'.contains s) :
    set = set' := by
  have hall : Shape.all.Nodup := by decide
  have hshapes : set.shapes = set'.shapes := calc
    set.shapes = Shape.all.filter set.shapes.contains :=
      (filter_contains_sublist set.declared hall).symm
    _ = Shape.all.filter set'.shapes.contains := List.filter_congr fun s _ => h s
    _ = set'.shapes := filter_contains_sublist set'.declared hall
  cases set
  cases set'
  cases hshapes
  rfl

@[simp] theorem ofList_shapes (set : ShapeSet) : ofList set.shapes = set :=
  eq_of_contains (contains_ofList set.shapes)

end ShapeSet
end XsdSynthesis
