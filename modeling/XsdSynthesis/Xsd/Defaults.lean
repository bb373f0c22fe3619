import XsdSynthesis.Text.Blank

/-!
# XsdSynthesis.Xsd.Defaults

The values of a schema's default attributes: forms, and sets of derivation methods. Texts are
compared without outer blanks and without regard to the case of A to Z. A set of methods is
kept in the order of the methods, without repetition, and `all` is the only member of its set.
-/

namespace XsdSynthesis
namespace Xsd

/-- Whether names must be qualified. `none` leaves the default of XML Schema in place. -/
inductive Form where
  | none
  | qualified
  | unqualified
  deriving DecidableEq

namespace Form

def name : Form → String
  | none => "none"
  | qualified => "qualified"
  | unqualified => "unqualified"

def ofText? (text : String) : Option Form :=
  [none, qualified, unqualified].find? (·.name == Text.folded text)

end Form

/-- A derivation method that a schema may block or make final. -/
inductive Derivation where
  | empty
  | substitution
  | extension
  | restriction
  | list
  | union
  | all
  deriving DecidableEq

namespace Derivation

def methods : List Derivation :=
  [empty, substitution, extension, restriction, list, union, all]

theorem mem_methods (m : Derivation) : m ∈ methods := by
  cases m <;> decide

def name : Derivation → String
  | empty => "empty"
  | substitution => "substitution"
  | extension => "extension"
  | restriction => "restriction"
  | list => "list"
  | union => "union"
  | all => "all"

def token : Derivation → String
  | empty => ""
  | all => "#all"
  | m => m.name

/-- The method that a text names; a blank text names the empty one. -/
def ofText? (text : String) : Option Derivation :=
  let word := Text.folded text
  if word = "" then some empty else methods.find? (·.name == word)

/-- Methods in order and without repetition. -/
def sorted (ms : List Derivation) : List Derivation := methods.filter ms.contains

/-- The set that a text names, its methods separated by commas. -/
def setOfText? (text : String) : Option (List Derivation) := do
  let ms ← ((text.toList.splitOn ',').map String.ofList).mapM ofText?
  let set := sorted ms
  if all ∈ set ∧ 1 < set.length then none else return set

/-- Whether a schema may block the method by default. -/
def mayBlock : Derivation → Bool
  | list | union => false
  | _ => true

/-- Whether a schema may make the method final by default. -/
def mayBeFinal : Derivation → Bool
  | substitution => false
  | _ => true

/-- A set as it stands in a schema: the tokens of its methods, one blank apart. -/
def setText (set : List Derivation) : String :=
  " ".intercalate ((set.map token).filter (· != ""))

theorem mem_sorted (ms : List Derivation) (m : Derivation) : m ∈ sorted ms ↔ m ∈ ms := by
  simp [sorted, mem_methods]

end Derivation
end Xsd
end XsdSynthesis
