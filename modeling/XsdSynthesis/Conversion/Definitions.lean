import XsdSynthesis.Conversion.Synthesis

/-!
# XsdSynthesis.Conversion.Definitions

Definitions become named types. A simple one restricts a built-in type or another simple definition;
`checkChain` follows the references from one definition to the next and refuses a chain that
meets a definition twice or reaches one that is not simple.
-/

namespace XsdSynthesis

namespace Schema

def definitionNames (s : Schema) : List String :=
  (s.definitions .defs ++ s.definitions .definitions).map Prod.fst

/-- The definition of the given name, and its container. -/
def findDefinition? (s : Schema) (name : String) : Option (Container × Schema) :=
  match s.definition? .defs name with
  | some d => some (.defs, d)
  | none => (s.definition? .definitions name).map (.definitions, ·)

theorem mem_map_fst_of_lookup {α : Type} {name : String} {a : α} {entries : List (String × α)}
    (h : entries.lookup name = some a) : name ∈ entries.map Prod.fst := by
  induction entries with
  | nil => simp at h
  | cons e rest ih =>
    obtain ⟨n, b⟩ := e
    rw [List.lookup_cons] at h
    split at h
    · rename_i hn
      simp [beq_iff_eq.1 hn]
    · simp [ih h]

theorem mem_definitionNames {s : Schema} {name : String} {found : Container × Schema}
    (h : s.findDefinition? name = some found) : name ∈ s.definitionNames := by
  simp only [findDefinition?, definition?] at h
  simp only [definitionNames, List.map_append, List.mem_append]
  split at h
  · rename_i hd
    exact .inl (mem_map_fst_of_lookup hd)
  · obtain ⟨d, hd, _⟩ := Option.map_eq_some_iff.1 h
    exact .inr (mem_map_fst_of_lookup hd)

end Schema

namespace Conversion

open Xsd

/-- The place of a definition. -/
def definitionPlace (c : Container) (name : String) : Pointer := Pointer.root.append [c.name, name]

/-- The name that the reference of a definition stands for, if it has one that can be resolved. -/
def nextBase? (s : Schema) (defaultNamespace : Option String) (place : Pointer)
    (definition : Schema) : Option String :=
  definition.reference?.bind fun r => (resolve s defaultNamespace place r).toOption

theorem length_filter_lt {p q : String → Bool} {a : String} :
    ∀ {names : List String}, a ∈ names → p a = true → q a = false →
      (∀ n, q n = true → p n = true) → (names.filter q).length < (names.filter p).length := by
  intro names
  induction names with
  | nil => simp
  | cons n rest ih =>
    intro ha hp hq hqp
    have hle : (rest.filter q).length ≤ (rest.filter p).length := by
      rw [← List.countP_eq_length_filter, ← List.countP_eq_length_filter]
      exact List.countP_mono_left fun n _ => hqp n
    rcases List.mem_cons.1 ha with rfl | hm
    · simp [hp, hq]
      omega
    · have hlt := ih hm hp hq hqp
      simp only [List.filter_cons]
      cases hqn : q n with
      | true => simp [hqp n hqn, hlt]
      | false => cases p n <;> simp <;> omega

/-- Follows the bases of the simple type `name` from the definition `current` on; `chain` holds the
definitions met before. A name that is no definition, or a definition without a reference, ends
the chain. -/
def checkChain (source : Source) (defaultNamespace : Option String) (name : String)
    (chain : List String) (current : String) : Except Construct Unit :=
  if _met : chain.contains current then .error (.derivationCycle (chain ++ [current]))
  else
    match _found : source.schema.findDefinition? current with
    | none => .ok ()
    | some (c, definition) =>
      let place := definitionPlace c current
      let shapes := source.classifier.shapes place
      if shapes.isComplex || !shapes.isSimple then .error (.baseNotSimple name current)
      else
        match nextBase? source.schema defaultNamespace place definition with
        | none => .ok ()
        | some next => checkChain source defaultNamespace name (chain ++ [current]) next
termination_by (source.schema.definitionNames.filter fun n => !chain.contains n).length
decreasing_by
  refine length_filter_lt (Schema.mem_definitionNames _found) ?_ ?_ ?_
  · simpa using _met
  · simp
  · intro n hn
    simp only [Bool.not_eq_true', List.contains_append, Bool.or_eq_false_iff] at hn ⊢
    exact hn.1

/-- Refuses a simple definition whose base is derived from it or from what is not simple. -/
def checkBase (source : Source) (defaultNamespace : Option String) (place : Pointer)
    (name : String) (base : QualifiedName) : Except Problem Unit :=
  match base.ns with
  | some _ => .ok ()
  | none =>
    match checkChain source defaultNamespace name [name] base.name with
    | .ok () => .ok ()
    | .error construct => .error (.unsupported place construct)

/-- The item that a definition becomes. -/
def definitionItem (source : Source) (defaultNamespace : Option String) (place : Pointer)
    (name : String) : Node → Except Problem Item
  | .complex type => .ok (.complexType (type.withName name))
  | .simple (some base) => do
    checkBase source defaultNamespace place name base
    return .simpleType ⟨name, base⟩
  | .simple none => .error (.unsupported place .untypedDefinition)

/-- Whether a document has a type of the given name. -/
def hasType (d : Document) (name : String) : Bool :=
  (d.complexType? name).isSome || (d.simpleType? name).isSome

/-- Adds the type of one definition to the document. -/
def define (source : Source) (c : Container) (name : String) (schema : Schema) :
    Conversion Unit := do
  let place := definitionPlace c name
  checkName place name
  if hasType (← ledger).document name then stop (.fault place (.repeatedType name))
  else
    let made ← synthesize source place 1 schema
    if made.asAttribute then stop (.unsupported place .definitionAsAttribute)
    else
      let item ← definitionItem source (← defaultNamespace) place name made.node
      emit (.defined place)
      addItem item

/-- Adds the types of definitions to the document, in order. -/
def defineEach (source : Source) (c : Container) : List (String × Schema) → Conversion Unit
  | [] => pure ()
  | (name, schema) :: rest => do
    define source c name schema
    defineEach source c rest

end Conversion
end XsdSynthesis
