import XsdSynthesis.CommandLine.Place

/-!
# XsdSynthesis.CommandLine.Machine

What a machine holds apart from the files of a run: the usual directories in its root, devices and
links. The working directory is a temporary one.
-/

namespace XsdSynthesis
namespace CommandLine

/-- A device, by what it does with bytes: `null` holds none and forgets those that it takes,
`source` gives bytes that are no text and do not end, and forgets those that it takes, `full` gives
the same and takes none, and `output` passes on to standard output what it takes. -/
inductive Device where
  | null
  | source
  | full
  | output
  deriving DecidableEq

namespace Machine

/-- The working directory. Its own name is not known; it is told as the empty name, which no path
can spell. -/
def home : Place := ⟨["tmp", ""]⟩

def directories : List Place :=
  ["bin", "boot", "dev", "etc", "home", "lib", "media", "mnt", "opt", "proc", "root", "run", "sbin",
    "srv", "sys", "tmp", "usr", "var"].map Place.root.child

/-- Directories in which no file can be made. -/
def sealedDirectories : List Place := [⟨["proc"]⟩, ⟨["sys"]⟩]

/-- The devices. The open files 0, 1 and 2 of a run are its standard input, which is empty, its
standard output, and its standard error. -/
def devices : List (Place × Device) :=
  [(⟨["dev", "null"]⟩, .null), (⟨["dev", "zero"]⟩, .source), (⟨["dev", "full"]⟩, .full),
    (⟨["dev", "random"]⟩, .source), (⟨["dev", "urandom"]⟩, .source),
    (⟨["proc", "self", "fd", "0"]⟩, .null), (⟨["proc", "self", "fd", "1"]⟩, .output),
    (⟨["proc", "self", "fd", "2"]⟩, .null)]

/-- The links, each with the place that it leads to. -/
def links : List (Place × Place) :=
  [(⟨["dev", "fd"]⟩, ⟨["proc", "self", "fd"]⟩), (⟨["dev", "stdin"]⟩, ⟨["proc", "self", "fd", "0"]⟩),
    (⟨["dev", "stdout"]⟩, ⟨["proc", "self", "fd", "1"]⟩),
    (⟨["dev", "stderr"]⟩, ⟨["proc", "self", "fd", "2"]⟩),
    (⟨["proc", "self", "cwd"]⟩, home), (⟨["proc", "self", "root"]⟩, .root)]

/-- The place that a link leads to; any other place is its own. -/
def follow (place : Place) : Place := (links.lookup place).getD place

def device? (place : Place) : Option Device := devices.lookup place

/-- Whether a directory of the machine is at a place: a usual one, or one that holds a device or the
working directory. -/
def isDirectory (place : Place) : Bool :=
  home.isWithin place || directories.contains place || devices.any (·.1.isBelow place)

def isSealed (place : Place) : Bool := sealedDirectories.any place.isWithin

end Machine
end CommandLine
end XsdSynthesis
