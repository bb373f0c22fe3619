import XsdSynthesis.CommandLine.Machine

/-!
# XsdSynthesis.CommandLine.Workspace

The files that a run reads and writes, on a machine. A directory is there if the machine has it or
a file lies below it. A path is followed one component after the other, from the root if it begins
with a slash and else from the working directory.
-/

namespace XsdSynthesis
namespace CommandLine

/-- What a path leads to when it is read. Directories and sources without end can be opened, but
give no value. -/
inductive Found where
  | missing
  | unreadable
  | file (bytes : ByteArray)

/-- Files by their places. -/
structure Workspace where
  files : List (Place × ByteArray)

/-- What becomes of bytes that are written to a path: it cannot be opened, it holds them from now on,
they go to standard output, or there is no room for them. -/
inductive Delivery where
  | refused
  | stored (after : Workspace)
  | printed
  | noRoom

namespace Workspace

def isDirectory (w : Workspace) (place : Place) : Bool :=
  Machine.isDirectory place || w.files.any (·.1.isBelow place)

/-- One component further, from a directory. -/
def step (w : Workspace) (place : Place) (component : String) : Option Place :=
  if w.isDirectory place then
    if component = "" ∨ component = "." then some place
    else if component = ".." then some place.parent
    else if Place.maxName < component.utf8ByteSize then none
    else some (Machine.follow (place.child component))
  else none

/-- The place that a path leads to, whether or not something is there. An empty path and one that
is too long lead nowhere. -/
def locate (w : Workspace) (path : String) : Option Place :=
  if path = "" ∨ Place.maxPath < path.utf8ByteSize then none
  else
    let start := if path.toList.head? = some '/' then Place.root else Machine.home
    (Place.components path).foldlM w.step start

def put (w : Workspace) (place : Place) (bytes : ByteArray) : Workspace :=
  ⟨(place, bytes) :: w.files.filter (·.1 != place)⟩

def find (w : Workspace) (path : String) : Found :=
  match w.locate path with
  | none => .missing
  | some place =>
    if w.isDirectory place then .unreadable
    else match Machine.device? place with
      | some .null => .file .empty
      | some _ => .unreadable
      | none =>
        match w.files.lookup place with
        | some bytes => .file bytes
        | none => .missing

/-- What becomes of bytes that are written to a path. -/
def write (w : Workspace) (path : String) (bytes : ByteArray) : Delivery :=
  match w.locate path with
  | none => .refused
  | some place =>
    if w.isDirectory place then .refused
    else match Machine.device? place with
      | some .null | some .source => .stored w
      | some .full => .noRoom
      | some .output => .printed
      | none => if Machine.isSealed place then .refused else .stored (w.put place bytes)

/-- The place of a file below the working directory, by its path. -/
def placeOf (path : String) : Place :=
  ((Place.components path).filter fun c => c != "" && c != ".").foldl Place.child Machine.home

/-- The workspace with the given files below the working directory, by their paths. -/
def ofFiles (files : List (String × ByteArray)) : Workspace :=
  ⟨files.map fun (path, bytes) => (placeOf path, bytes)⟩

end Workspace
end CommandLine
end XsdSynthesis
