/-!
# XsdSynthesis.CommandLine.Arguments

The arguments of the command line. `convert` takes one operand and options; an option's value is
the next argument, or follows it after `=`, and a short option's value may follow it directly. Short
switches may stand together. After `--` every argument is an operand. An option or switch
given twice, an unknown one, and a value that cannot be read are misuse. Arguments are read in
order, so a request for help or for the version is met if nothing before it is misuse.
-/

namespace XsdSynthesis
namespace CommandLine

/-- How a document is written. -/
inductive Format where
  | xsd
  | json
  deriving DecidableEq

/-- What is to be converted, and how. -/
structure Settings where
  input : String
  metadata : String
  output : Option String := none
  messageName : Option String := none
  maxDepth : Nat := 50
  strictAttributes : Bool := false
  format : Format := .xsd
  verbose : Bool := false
  deriving DecidableEq

/-- What a command line asks for. -/
inductive Invocation where
  | convert (settings : Settings)
  | help
  | version
  | misuse
  deriving DecidableEq

/-- Why the reading of arguments stops early. -/
inductive Halt where
  | help
  | version
  | misuse
  deriving DecidableEq

/-- An option of `convert` without a value. -/
inductive Switch where
  | strictAttributes
  | verbose
  | help
  deriving DecidableEq

/-- An option of `convert` with a value. -/
inductive Slot where
  | metadata
  | output
  | messageName
  | maxDepth
  | format
  deriving DecidableEq

/-- An option of `convert`. -/
inductive Flag where
  | switch (switch : Switch)
  | slot (slot : Slot)

/-- The option of `convert` with the given long name. -/
def Flag.ofLong? (name : String) : Option Flag :=
  match name with
  | "metadata" => some (.slot .metadata)
  | "output" => some (.slot .output)
  | "message-name" => some (.slot .messageName)
  | "max-depth" => some (.slot .maxDepth)
  | "format" => some (.slot .format)
  | "strict-schema-attributes" => some (.switch .strictAttributes)
  | "verbose" => some (.switch .verbose)
  | "help" => some (.switch .help)
  | _ => none

def Flag.ofShort? : Char → Option Flag
  | 'm' => some (.slot .metadata)
  | 'o' => some (.slot .output)
  | 'v' => some (.switch .verbose)
  | 'h' => some (.switch .help)
  | _ => none

/-- An argument by its form. -/
inductive Argument where
  | operand (text : String)
  | long (name : String) (value : Option String)
  | short (letters : List Char)

/-- The form of an argument: a long option from two hyphens on, short ones from one hyphen and
another character on, and an operand else. -/
def Argument.ofText (text : String) : Argument :=
  match text.toList with
  | '-' :: '-' :: rest =>
    let name := rest.takeWhile (· != '=')
    let value := match rest.dropWhile (· != '=') with
      | _ :: value => some (String.ofList value)
      | [] => none
    .long (String.ofList name) value
  | '-' :: c :: rest => .short (c :: rest)
  | _ => .operand text

/-- A depth: decimal digits, with or without a plus sign, that denote a number of 64 bits. -/
def depth? (text : String) : Option Nat :=
  let digits := match text.toList with
    | '+' :: rest => rest
    | cs => cs
  if digits ≠ [] ∧ digits.all Char.isDigit then
    let n := digits.foldl (fun n c => 10 * n + (c.toNat - '0'.toNat)) 0
    if n < Nat.pow 2 64 then some n else none
  else none

def Format.ofName? : String → Option Format
  | "xsd" => some .xsd
  | "json" => some .json
  | _ => none

/-- The settings of `convert` as far as they are read. -/
structure Draft where
  input : Option String := none
  metadata : Option String := none
  output : Option String := none
  messageName : Option String := none
  maxDepth : Option Nat := none
  strictAttributes : Bool := false
  format : Option Format := none
  verbose : Bool := false

namespace Draft

/-- A value for what has none yet. -/
def once {α : Type} (old : Option α) (new : Option α) : Except Halt (Option α) :=
  match old, new with
  | none, some a => .ok (some a)
  | _, _ => .error .misuse

def path? (text : String) : Option String := if text = "" then none else some text

def set (d : Draft) (slot : Slot) (value : String) : Except Halt Draft :=
  match slot with
  | .metadata => return { d with metadata := ← once d.metadata (path? value) }
  | .output => return { d with output := ← once d.output (path? value) }
  | .messageName => return { d with messageName := ← once d.messageName (some value) }
  | .maxDepth => return { d with maxDepth := ← once d.maxDepth (depth? value) }
  | .format => return { d with format := ← once d.format (Format.ofName? value) }

def turnOn (d : Draft) : Switch → Except Halt Draft
  | .strictAttributes =>
    if d.strictAttributes then .error .misuse else .ok { d with strictAttributes := true }
  | .verbose => if d.verbose then .error .misuse else .ok { d with verbose := true }
  | .help => .error .help

def operand (d : Draft) (text : String) : Except Halt Draft :=
  return { d with input := ← once d.input (path? text) }

/-- Short options that stand together. The last one may lack its value, which is then to come. -/
def letters (d : Draft) : List Char → Except Halt (Draft × Option Slot)
  | [] => .ok (d, none)
  | c :: rest =>
    match Flag.ofShort? c with
    | none => .error .misuse
    | some (.switch s) => do (← d.turnOn s).letters rest
    | some (.slot s) =>
      match rest with
      | [] => .ok (d, some s)
      | '=' :: value => do return (← d.set s (String.ofList value), none)
      | value => do return (← d.set s (String.ofList value), none)

/-- A long option. Without its value, that is to come. -/
def long (d : Draft) (name : String) (value : Option String) :
    Except Halt (Draft × Option Slot) :=
  match Flag.ofLong? name, value with
  | some (.switch s), none => do return (← d.turnOn s, none)
  | some (.slot s), some value => do return (← d.set s value, none)
  | some (.slot s), none => .ok (d, some s)
  | _, _ => .error .misuse

/-- Operands only. -/
def operands (d : Draft) : List String → Except Halt Draft
  | [] => .ok d
  | text :: rest => do (← d.operand text).operands rest

/-- Arguments of `convert`. `awaited` is the option whose value comes next. -/
def arguments (d : Draft) (awaited : Option Slot) : List String → Except Halt Draft
  | [] => if awaited.isSome then .error .misuse else .ok d
  | text :: rest =>
    match awaited, Argument.ofText text with
    | some slot, .operand value => do (← d.set slot value).arguments none rest
    | some _, _ => .error .misuse
    | none, .operand value => do (← d.operand value).arguments none rest
    | none, .short cs => do
      let (d, awaited) ← d.letters cs
      d.arguments awaited rest
    | none, .long name value =>
      if name = "" ∧ value = none then d.operands rest
      else do
        let (d, awaited) ← d.long name value
        d.arguments awaited rest

/-- The settings, when the operand and the metadata are there. `verbose` may be on already. -/
def settings? (d : Draft) (verbose : Bool) : Except Halt Settings :=
  match d.input, d.metadata with
  | some input, some metadata =>
    .ok {
      input, metadata
      output := d.output
      messageName := d.messageName
      maxDepth := d.maxDepth.getD 50
      strictAttributes := d.strictAttributes
      format := d.format.getD .xsd
      verbose := verbose || d.verbose }
  | _, _ => .error .misuse

end Draft

namespace Invocation

/-- Short switches before the command; the answer is whether output is verbose. -/
def letters (verbose : Bool) : List Char → Except Halt Bool
  | [] => .ok verbose
  | 'v' :: rest => if verbose then .error .misuse else letters true rest
  | 'V' :: _ => .error .version
  | 'h' :: _ => .error .help
  | _ => .error .misuse

/-- A switch before the command; the answer is whether output is verbose. -/
def switch (verbose : Bool) : Argument → Except Halt Bool
  | .short cs => letters verbose cs
  | .long "verbose" none => if verbose then .error .misuse else .ok true
  | .long "version" none => .error .version
  | .long "help" none => .error .help
  | _ => .error .misuse

/-- What `help` explains: everything, or a command. -/
def helpOn : List String → Halt
  | [] | ["convert"] | ["help"] => .help
  | _ => .misuse

/-- Arguments up to the command and after it. -/
def settings? (verbose : Bool) : List String → Except Halt Settings
  | [] => .error .misuse
  | "convert" :: rest => do (← Draft.arguments {} none rest).settings? verbose
  | "help" :: rest => .error (helpOn rest)
  | text :: rest => do settings? (← switch verbose (Argument.ofText text)) rest

def ofArguments (args : List String) : Invocation :=
  match settings? false args with
  | .ok settings => .convert settings
  | .error .help => .help
  | .error .version => .version
  | .error .misuse => .misuse

end Invocation
end CommandLine
end XsdSynthesis
