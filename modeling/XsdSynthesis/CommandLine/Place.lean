/-!
# XsdSynthesis.CommandLine.Place

Places of files and directories on a machine, told from its root. Paths are texts that lead to places;
the limits on the length of a path and of a name are those of common systems, and count bytes.
-/

namespace XsdSynthesis
namespace CommandLine

/-- A place: the names that lead to it from the root. -/
structure Place where
  names : List String
  deriving DecidableEq

namespace Place

def root : Place := ⟨[]⟩

def child (p : Place) (name : String) : Place := ⟨p.names ++ [name]⟩

/-- The directory that a place lies in. The root lies in itself. -/
def parent (p : Place) : Place := ⟨p.names.dropLast⟩

/-- Whether a place is another one or lies below it. -/
def isWithin (p q : Place) : Bool := q.names.isPrefixOf p.names

def isBelow (p q : Place) : Bool := p.isWithin q && p != q

/-- A name is left by the way it was entered. -/
theorem parent_child (p : Place) (name : String) : (p.child name).parent = p :=
  congrArg Place.mk List.dropLast_concat

def components (path : String) : List String := (path.toList.splitOn '/').map String.ofList

def maxPath : Nat := 4095

def maxName : Nat := 255

end Place
end CommandLine
end XsdSynthesis
