import XsdSynthesis.Classification
import XsdSynthesis.Conversion.Log
import XsdSynthesis.Options
import XsdSynthesis.Schema.Keyword
import XsdSynthesis.Xml.Name
import XsdSynthesis.Xsd.Document

/-!
# XsdSynthesis.Conversion.Ledger

The state of a conversion and its steps. A `Ledger` holds the document built so far, the places
visited, the stage and the log. A `Conversion` is a step: it takes a ledger to the next one and ends
with a value or with a problem. The ledger of a step that ends with a problem is kept, since
the log counts.
-/

namespace XsdSynthesis

/-- What is converted: a schema, the answers about it, and the options. -/
structure Source where
  schema : Schema
  classifier : Classifier
  options : Options

/-- The state of a conversion. -/
structure Ledger where
  document : Xsd.Document := {}
  visited : List Pointer := []
  stage : Stage := .start
  log : List Event := []

namespace Ledger

/-- The ledger with an event at the end of its log. -/
def emit (l : Ledger) (event : Event) : Ledger := { l with log := l.log ++ [event] }

/-- The ledger in another stage, with the event of that. -/
def advance (l : Ledger) (next : Stage) : Ledger :=
  { l with stage := next, log := l.log ++ [.stageLeft l.stage next] }

/-- The ledger with another item at the end of its document. -/
def addItem (l : Ledger) (item : Xsd.Item) : Ledger :=
  { l with document := { l.document with items := l.document.items ++ [item] } }

end Ledger

def Conversion (α : Type) : Type := Ledger → Except Problem α × Ledger

namespace Conversion

variable {α β : Type}

/-- The step that ends with a value and changes nothing. -/
def done (a : α) : Conversion α := fun l => (.ok a, l)

def andThen (x : Conversion α) (f : α → Conversion β) : Conversion β := fun l =>
  match x l with
  | (.ok a, l) => f a l
  | (.error e, l) => (.error e, l)

instance : Monad Conversion where
  pure := done
  bind := andThen

theorem pure_apply (a : α) (l : Ledger) : (pure a : Conversion α) l = (.ok a, l) := rfl

theorem bind_apply (x : Conversion α) (f : α → Conversion β) (l : Ledger) :
    (x >>= f) l = match x l with
      | (.ok a, l) => f a l
      | (.error e, l) => (.error e, l) := rfl

instance : LawfulMonad Conversion := LawfulMonad.mk' Conversion
  (by
    intro α x
    funext l
    change andThen x (fun a => done a) l = x l
    simp only [andThen, done]
    split <;> simp_all)
  (by intros; rfl)
  (by
    intro α β γ x f g
    funext l
    change andThen (andThen x f) g l = andThen x (fun a => andThen (f a) g) l
    simp only [andThen]
    cases x l with
    | mk r l' => cases r <;> rfl)

def stop (problem : Problem) : Conversion α := fun l => (.error problem, l)

def update (f : Ledger → Ledger) : Conversion Unit := fun l => (.ok (), f l)

def ledger : Conversion Ledger := fun l => (.ok l, l)

/-- The step that ends as a computation without state does. -/
def ofExcept (x : Except Problem α) : Conversion α := fun l => (x, l)

instance : MonadLift (Except Problem) Conversion := ⟨ofExcept⟩

def emit (event : Event) : Conversion Unit := update (·.emit event)

def advance (next : Stage) : Conversion Unit := update (·.advance next)

def amend (f : Xsd.Document → Xsd.Document) : Conversion Unit :=
  update fun l => { l with document := f l.document }

def addItem (item : Xsd.Item) : Conversion Unit := update (·.addItem item)

/-- Enters a place: not deeper than allowed, and no place twice. -/
def enter (source : Source) (place : Pointer) (depth : Nat) : Conversion Unit := do
  if source.options.maxDepth < depth then
    stop (.tooDeep place source.options.maxDepth)
  else if (← ledger).visited.contains place then
    stop (.fault place .visitedTwice)
  else
    update fun l => { l with visited := place :: l.visited }
    emit (.entered place depth)

def checkName (place : Pointer) (name : String) : Except Problem Unit :=
  if Xml.isName name then .ok () else .error (.fault place (.invalidName name))

end Conversion
end XsdSynthesis
