import XsdSynthesis.Conversion.Definitions
import XsdSynthesis.Conversion.DocumentAttributes
import XsdSynthesis.Conversion.RootElement
import XsdSynthesis.Json.Text
import XsdSynthesis.Schema.Reader

/-!
# XsdSynthesis.Conversion.Converter

The conversion of a whole document. The attributes and namespaces of the document come first; then
the root's keywords are taken in source order, each building its part of the document; the root
element is built where the first keyword that describes it stands, or last. A keyword of the root
that nothing consumed is an error. A `Converter` runs once.
-/

namespace XsdSynthesis
namespace Conversion

open Xsd

/-- The documentation that the entries of `info` become. -/
def documentationOf (entries : List (String × Json)) : Except Problem Documentation := do
  let markup ← entries.mapM fun (name, value) =>
    match value with
    | .str fixed => .ok ⟨name, fixed⟩
    | _ => .error (.fault (Pointer.root.append ["info", name]) .infoNotString)
  return ⟨[markup]⟩

/-- Takes one keyword of the root, unless its kind is marked or it is consumed already. `built`
tells whether the root element is there. -/
def dispatch (source : Source) (w : WorkList) (built : Bool) (keyword : Keyword) :
    Conversion (WorkList × Bool) := do
  if w.isPending keyword.kind then
    match keyword with
    | .info entries =>
      addItem (.documentation (← documentationOf entries))
      return (w.mark .info, built)
    | .definitions c entries =>
      defineEach source c entries
      return (w.mark (.definitions c), built)
    | .combinator .. | .properties _ =>
      let w := w.mark keyword.kind
      if built then return (w, true) else return (← buildRoot source w, true)
    | _ => return (w, built)
  else return (w, built)

def dispatchEach (source : Source) (w : WorkList) (built : Bool) :
    List Keyword → Conversion (WorkList × Bool)
  | [] => return (w, built)
  | keyword :: rest => do
    let (w, built) ← dispatch source w built keyword
    dispatchEach source w built rest

/-- Builds the root element if no keyword did. A root that is not inline cannot do without one. -/
def finishRoot (source : Source) (w : WorkList) (built : Bool) : Conversion WorkList :=
  if built then return w
  else if source.classifier.inlineRoot then buildRoot source w
  else stop (.root .noWrapper)

/-- The keywords of the root, with the kinds marked that its rules do not consume. -/
def rootWorkList (s : Schema) : WorkList := (WorkList.ofSchema s).markAll (documentKinds ++ [.type])

/-- The steps of a conversion. -/
def run (source : Source) : Conversion Unit := do
  applyAttributes source
  advance .attributesApplied
  applyNamespaces source
  advance .namespacesApplied
  advance .dispatchingKeywords
  let (w, built) ← dispatchEach source (rootWorkList source.schema) false source.schema.keywords
  let w ← finishRoot source w built
  advance .rootBuilt
  checkDrained .root w

end Conversion

/-- A conversion that has not run yet, or has. -/
structure Converter where
  source : Source
  ledger : Ledger := {}

namespace Converter

def stage (c : Converter) : Stage := c.ledger.stage

/-- Runs the conversion, once: a converter that ran before refuses. Either the whole document comes
out or nothing; the converter keeps no document. -/
def convert (c : Converter) : Except Problem Xsd.Document × Converter :=
  if c.stage = .start then
    match Conversion.run c.source c.ledger with
    | (.ok (), l) => (.ok l.document, { c with ledger := { l.advance .done with document := {} } })
    | (.error e, l) =>
      (.error e, { c with ledger := { (l.advance .failed).emit (.stopped e) with document := {} } })
  else (.error (.fault .root .spentConverter), c)

end Converter

/-- Converts a schema, and gives the log along with the outcome. -/
def traced (source : Source) : Except Problem Xsd.Document × List Event :=
  let begun := Event.converting source.classifier.messageName source.classifier.inlineRoot
  let (outcome, c) := Converter.convert ⟨source, { log := [begun] }⟩
  (outcome, c.ledger.log)

def convert (source : Source) : Except Problem Xsd.Document := (traced source).1

/-- Converts a schema document given as JSON, and gives the log along with the outcome. A document
that is no schema is logged nowhere. -/
def tracedJson (j : Json) (classifier : Classifier) (options : Options) :
    Except Problem Xsd.Document × List Event :=
  match Schema.ofJson? j with
  | .ok schema => traced ⟨schema, classifier, options⟩
  | .error e => (.error e, [])

/-- Converts a schema document given as JSON. -/
def convertJson (j : Json) (classifier : Classifier) (options : Options) :
    Except Problem Xsd.Document := (tracedJson j classifier options).1

def convertText (text : String) (classifier : Classifier) (options : Options) :
    Except Problem Xsd.Document :=
  match Json.ofText? text with
  | some j => convertJson j classifier options
  | none => .error .notJson

end XsdSynthesis
