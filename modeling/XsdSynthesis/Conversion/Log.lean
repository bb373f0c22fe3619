import XsdSynthesis.Problem

/-!
# XsdSynthesis.Conversion.Log

The stages a conversion goes through, and the events it logs. Every event has a level, a message and
named fields, all of them texts.
-/

namespace XsdSynthesis

/-- How far a conversion has come. -/
inductive Stage where
  | start
  | attributesApplied
  | namespacesApplied
  | dispatchingKeywords
  | rootBuilt
  | done
  | failed
  deriving DecidableEq

def Stage.name : Stage → String
  | start => "Start"
  | attributesApplied => "AttributesApplied"
  | namespacesApplied => "NamespacesApplied"
  | dispatchingKeywords => "DispatchingKeywords"
  | rootBuilt => "RootBuilt"
  | done => "Done"
  | failed => "Failed"

/-- Something that happened during a conversion. -/
inductive Event where
  | converting (messageName : String) (inlineRoot : Bool)
  | stageLeft (old new : Stage)
  | unknownAttribute (name : String)
  | namespacesBound (count : Nat)
  | entered (place : Pointer) (depth : Nat)
  | defined (place : Pointer)
  | rootElement (name : String)
  | stopped (problem : Problem)
  deriving DecidableEq

namespace Event

def level : Event → String
  | unknownAttribute _ => "WARN"
  | _ => "DEBUG"

def message : Event → String
  | converting .. => "converting schema"
  | stageLeft .. => "conversion state"
  | unknownAttribute _ => "ignoring unknown XSD schema attribute"
  | namespacesBound _ => "namespaces applied"
  | entered .. => "synthesizing subschema"
  | defined _ => "resolved definition"
  | rootElement _ => "root message built"
  | stopped _ => "conversion failed"

def fields : Event → List (String × String)
  | converting messageName inlineRoot =>
    [("message", messageName), ("inline_root", toString inlineRoot)]
  | stageLeft old new => [("from", old.name), ("to", new.name)]
  | unknownAttribute name => [("attribute", name)]
  | namespacesBound count => [("count", toString count)]
  | entered place depth => [("path", place.text), ("depth", toString depth)]
  | defined place => [("path", place.text)]
  | rootElement name => [("root", name)]
  | stopped problem => [("error", problem.report.message)]

end Event
end XsdSynthesis
