import XsdSynthesis.CommandLine.Arguments
import XsdSynthesis.CommandLine.Workspace
import XsdSynthesis.Conversion.Converter
import XsdSynthesis.Json.Printer
import XsdSynthesis.Xsd.Encoding
import XsdSynthesis.Xsd.Text

/-!
# XsdSynthesis.CommandLine.Run

A run of the command line: what the input files hold becomes the text of a document, or a failure,
and the text goes to a file or to standard output. Nothing is written unless the whole conversion
succeeded. The text goes out in blocks, so it depends on its size when a device without room for it
is noticed.
-/

namespace XsdSynthesis
namespace CommandLine

/-- An input of the command line. -/
inductive Input where
  | schema
  | metadata
  deriving DecidableEq

def Input.name : Input → String
  | schema => "schema"
  | metadata => "metadata"

/-- Why a run fails. -/
inductive Failure where
  | cannotOpen (input : Input) (path : String)
  | cannotParse (input : Input) (path : String)
  | cannotConvert (problem : Problem)
  | cannotCreate (path : String)
  | cannotWrite (format : Format)
  | cannotEndLine
  | cannotFlush
  deriving DecidableEq

def Format.name : Format → String
  | xsd => "XSD"
  | json => "JSON"

namespace Failure

def message : Failure → String
  | cannotOpen input path => s!"Failed to open {input.name} file: {path}"
  | cannotParse input path => s!"Failed to parse {input.name} from: {path}"
  | cannotConvert _ => "Conversion failed"
  | cannotCreate path => s!"Failed to create output file: {path}"
  | cannotWrite format => s!"Failed to write {format.name}"
  | cannotEndLine => "Failed to write trailing newline"
  | cannotFlush => "Failed to flush output"

def cause? : Failure → Option String
  | cannotConvert problem => some problem.report.message
  | _ => none

end Failure

def readInput {α : Type} (decode : ByteArray → Option α) (input : Input) (path : String) :
    Found → Except Failure α
  | .missing => .error (.cannotOpen input path)
  | .unreadable => .error (.cannotParse input path)
  | .file bytes =>
    match decode bytes with
    | some a => .ok a
    | none => .error (.cannotParse input path)

/-- The text of a document in a format, with a line break at its end. -/
def Format.write (d : Xsd.Document) : Format → String
  | xsd => d.text
  | json => d.toJson.pretty ++ "\n"

/-- The classifier that a classification and a message name of the command line make. -/
def classifierOf (settings : Settings) (c : Classification) : Classifier :=
  { c.classifier with messageName := settings.messageName.getD c.messageName }

/-- The conversion that settings and inputs describe, with its log. -/
def conversion (settings : Settings) (schema metadata : Found) :
    Except Failure (Except Problem Xsd.Document × List Event) := do
  let j ← readInput Json.ofBytes? .schema settings.input schema
  let c ← readInput Classification.ofBytes? .metadata settings.metadata metadata
  return tracedJson j (classifierOf settings c) ⟨settings.maxDepth, settings.strictAttributes⟩

def product (settings : Settings) (schema metadata : Found) : Except Failure String :=
  match conversion settings schema metadata with
  | .error failure => .error failure
  | .ok (.error problem, _) => .error (.cannotConvert problem)
  | .ok (.ok document, _) => .ok (settings.format.write document)

/-- The events of a run that are told: warnings, and all of them when it is verbose. -/
def told (settings : Settings) (schema metadata : Found) : List Event :=
  match conversion settings schema metadata with
  | .error _ => []
  | .ok (_, log) => log.filter fun e => settings.verbose || e.level == "WARN"

/-- How a run ends: its exit code, what it writes to standard output, and why it failed. -/
structure Report where
  exit : Nat
  stdout : String := ""
  failure : Option Failure := none

def versionText : String := "jsonschema-xsd 0.1.0\n"

/-- The text that tells how to use the command line. -/
def helpText : String :=
  "Convert a JSON Schema with XML extension keywords into an XSD document\n\n" ++
  "Usage: jsonschema-xsd [OPTIONS] convert [OPTIONS] --metadata <METADATA> <INPUT>\n"

/-- The number of bytes in a block. -/
def blockSize : Nat := 8192

/-- The failure of a run that has no room for a text of the given size. A text of one block at most
is noticed when it is complete. The line break after JSON is written on its own. -/
def noRoom (format : Format) (size : Nat) : Failure :=
  if size ≤ blockSize then .cannotFlush
  else
    match format with
    | .xsd => .cannotWrite .xsd
    | .json => if size = blockSize + 1 then .cannotEndLine else .cannotWrite .json

def runConvert (settings : Settings) (w : Workspace) :
    CommandLine.Report × Workspace :=
  match product settings (w.find settings.input) (w.find settings.metadata) with
  | .error failure => ({ exit := 1, failure := some failure }, w)
  | .ok text =>
    match settings.output with
    | none => ({ exit := 0, stdout := text }, w)
    | some path =>
      match w.write path text.toUTF8 with
      | .refused => ({ exit := 1, failure := some (.cannotCreate path) }, w)
      | .stored after => ({ exit := 0 }, after)
      | .printed => ({ exit := 0, stdout := text }, w)
      | .noRoom => ({ exit := 1, failure := some (noRoom settings.format text.utf8ByteSize) }, w)

/-- A run in a workspace, and the workspace after it. -/
def run (args : List String) (w : Workspace) : CommandLine.Report × Workspace :=
  match Invocation.ofArguments args with
  | .convert settings => runConvert settings w
  | .help => ({ exit := 0, stdout := helpText }, w)
  | .version => ({ exit := 0, stdout := versionText }, w)
  | .misuse => ({ exit := 2 }, w)

end CommandLine
end XsdSynthesis
