import Mathlib.Data.List.Infix
import XsdSynthesis.Proofs.Simulation

/-!
# XsdSynthesis.Proofs.Lifecycle

The life of a converter. A step of a conversion that is not a move from one stage to the next
`Stays`: it leaves the stage and the moves logged so far alone, and it never fails for keywords left
over at the root. From the end of `run` backwards, each such step and each move `Completes` a list of
stages, so a run goes through all stages of its course or fails on the way; only the last check, after
all of them, refuses what the root left over (`completes_run`). A converter that ran keeps its stage
and its log for good (`converter_lifecycle`).
-/

namespace XsdSynthesis

open Xsd Conversion

/-! ## Moves -/

/-- The move from one stage to another that an event tells of. -/
def Event.move? : Event → Option (Stage × Stage)
  | .stageLeft old new => some (old, new)
  | _ => none

/-- The moves that a ledger has logged, first to last. -/
def Ledger.moves (l : Ledger) : List (Stage × Stage) := l.log.filterMap Event.move?

namespace Ledger

@[simp] theorem moves_emit (l : Ledger) (event : Event) :
    (l.emit event).moves = l.moves ++ event.move?.toList := by
  rw [moves, emit, List.filterMap_append]
  cases h : event.move? <;> simp [moves, h]

@[simp] theorem moves_advance (l : Ledger) (next : Stage) :
    (l.advance next).moves = l.moves ++ [(l.stage, next)] :=
  moves_emit l (.stageLeft l.stage next)

end Ledger

/-- The moves from each stage of a list to the one after it. -/
def steps (stages : List Stage) : List (Stage × Stage) := stages.zip stages.tail

theorem steps_cons (s next : Stage) (rest : List Stage) :
    steps (s :: next :: rest) = (s, next) :: steps (next :: rest) := rfl

theorem steps_concat (s : Stage) (stages : List Stage) (last : Stage) :
    steps (s :: stages ++ [last]) = steps (s :: stages) ++ [(stages.getLastD s, last)] := by
  induction stages generalizing s with
  | nil => rfl
  | cons next rest ih =>
    rw [List.getLastD_cons, List.cons_append, List.cons_append, steps_cons, ← List.cons_append, ih,
      steps_cons, List.cons_append]

/-- The second ledger has gone on through stages, the last of which is its own. -/
structure Passes (stages : List Stage) (l l' : Ledger) : Prop where
  moves : l'.moves = l.moves ++ steps (l.stage :: stages)
  stage : l'.stage = stages.getLastD l.stage

theorem passes_of_eq {l l' : Ledger} (hm : l'.moves = l.moves) (hs : l'.stage = l.stage) :
    Passes [] l l' :=
  ⟨hm.trans (List.append_nil _).symm, hs⟩

theorem Passes.after {stages : List Stage} {l m l' : Ledger} (h : Passes [] l m)
    (h' : Passes stages m l') : Passes stages l l' := by
  have hmoves : m.moves = l.moves := h.moves.trans (List.append_nil _)
  exact ⟨by rw [h'.moves, hmoves, h.stage]; rfl, by rw [h'.stage, h.stage]; rfl⟩

theorem Passes.cons {next : Stage} {stages : List Stage} {l l' : Ledger}
    (h : Passes stages (l.advance next) l') : Passes (next :: stages) l l' := by
  refine ⟨?_, h.stage.trans (List.getLastD_cons ..).symm⟩
  rw [h.moves, Ledger.moves_advance, List.append_assoc]
  rfl

/-- What is wrong is that keywords of the root were left over. -/
def Problem.IsRootLeftover (e : Problem) : Prop :=
  e.report.code = .unsupportedSchema ∧ e.report.path? = some Pointer.root.text

theorem isRootLeftover_iff {e : Problem} :
    e.IsRootLeftover ↔ ∃ names, e = .unhandled .root names := by
  constructor
  · rintro ⟨hcode, hpath⟩
    cases e with
    | unhandled p names =>
      have htext : p.text = Pointer.root.text := Option.some.inj hpath
      have hp := congrArg Pointer.ofText? htext
      rw [Pointer.ofText?_of_text, Pointer.ofText?_of_text] at hp
      exact ⟨names, by rw [Option.some.inj hp]⟩
    | _ => cases hcode
  · rintro ⟨names, rfl⟩
    exact ⟨rfl, rfl⟩

namespace Conversion

variable {α β : Type} {source : Source}

/-! ## Steps within a stage -/

/-- A step within a stage: it moves nowhere, and it does not fail for what the root left over. -/
structure Stays (x : Conversion α) : Prop where
  ok : ∀ {l a l'}, x l = (.ok a, l') → Passes [] l l'
  error : ∀ {l e l'}, x l = (.error e, l') → Passes [] l l' ∧ ¬ e.IsRootLeftover

/-- A condition on places that all of them meet. -/
abbrev Anywhere (_ : Pointer) : Prop := True

section Steps

variable {x : Conversion α} {f : α → Conversion β}

theorem Stays.bind (hx : Stays x) (hf : ∀ a, Stays (f a)) : Stays (x >>= f) := by
  refine ⟨fun h => ?_, fun h => ?_⟩
  · obtain ⟨a, m, ha, h⟩ := bind_ok.1 h
    exact (hx.ok ha).after ((hf a).ok h)
  · rcases bind_error.1 h with h | ⟨a, m, ha, h⟩
    · exact hx.error h
    · obtain ⟨hpasses, hspares⟩ := (hf a).error h
      exact ⟨(hx.ok ha).after hpasses, hspares⟩

theorem stays_update {change : Ledger → Ledger} (hm : ∀ l, (change l).moves = l.moves)
    (hs : ∀ l, (change l).stage = l.stage) : Stays (update change) := by
  refine ⟨fun {l _ _} h => ?_, fun h => ?_⟩
  · cases h
    exact passes_of_eq (hm l) (hs l)
  · cases h

theorem stays_emit (event : Event) (h : event.move? = none) : Stays (emit event) :=
  stays_update (fun l => by simp [h]) fun _ => rfl

theorem stays_addItem (item : Item) : Stays (addItem item) :=
  stays_update (fun _ => rfl) fun _ => rfl

theorem stays_amend (change : Document → Document) : Stays (amend change) :=
  stays_update (fun _ => rfl) fun _ => rfl

theorem stays_pure (a : α) : Stays (pure a) := by
  refine ⟨fun h => ?_, fun h => ?_⟩
  · cases h
    exact passes_of_eq rfl rfl
  · cases h

theorem stays_stop {e : Problem} (h : ¬ e.IsRootLeftover) : Stays (stop e : Conversion α) := by
  refine ⟨fun h => absurd h stop_ok, fun hs => ?_⟩
  cases hs
  exact ⟨passes_of_eq rfl rfl, h⟩

theorem not_isRootLeftover {e : Problem} {P : Pointer → Prop} (h : Refused P e) :
    ¬ e.IsRootLeftover := by
  intro hleft
  obtain ⟨names, rfl⟩ := isRootLeftover_iff.1 hleft
  cases h.walk

theorem stays_lift {c : Except Problem α} (h : RefusesAt Anywhere c) :
    Stays (liftM c : Conversion α) := by
  cases c with
  | ok a => exact stays_pure a
  | error e => exact stays_stop (not_isRootLeftover (h e rfl))

theorem stays_ledger {f : Ledger → Conversion β} (h : ∀ l, Stays (f l)) : Stays (ledger >>= f) :=
  ⟨fun {l _ _} => (h l).ok, fun {l _ _} => (h l).error⟩

theorem stays_defaultNamespace {f : Option String → Conversion β} (h : ∀ ns, Stays (f ns)) :
    Stays (defaultNamespace >>= f) :=
  ⟨fun {_ _ _} => (h _).ok, fun {_ _ _} => (h _).error⟩

/-- Leftovers that are not the root's. -/
theorem stays_checkDrained {place : Pointer} (h : place ≠ .root) (w : WorkList) :
    Stays (liftM (checkDrained place w) : Conversion Unit) := by
  unfold checkDrained
  split
  · exact stays_pure ()
  · refine stays_stop fun hleft => ?_
    obtain ⟨_, heq⟩ := isRootLeftover_iff.1 hleft
    cases heq
    exact h rfl

end Steps

theorem stays_enter (place : Pointer) (depth : Nat) : Stays (enter source place depth) := by
  unfold enter
  split
  · exact stays_stop nofun
  · refine stays_ledger fun l => ?_
    split
    · exact stays_stop nofun
    · refine (stays_update (fun _ => ?_) fun _ => ?_).bind fun _ =>
        stays_emit (.entered place depth) rfl
      · rfl
      · rfl

mutual

/-- **Synthesis below the root stays**, along the recursion of `synthesize`. -/
theorem stays_synthesize {place : Pointer} {depth : Nat} (h : place ≠ .root) :
    ∀ t : Schema, Stays (synthesize source place depth t)
  | .mk keywords => by
    simp only [synthesize]
    refine (stays_enter place depth).bind fun _ => ?_
    split
    · split
      · exact stays_stop nofun
      · refine (stays_lift (openComplex_refuses trivial (fun _ => trivial) _)).bind fun opened => ?_
        refine (stays_membersOf opened.1 keywords).bind fun _ => ?_
        exact (stays_checkDrained h _).bind fun _ => stays_pure _
    · split
      · refine stays_defaultNamespace fun ns => ?_
        refine (stays_lift (simpleTypeName_refuses trivial (fun _ => trivial) _ _)).bind
          fun named => ?_
        exact (stays_checkDrained h _).bind fun _ => stays_pure _
      · exact stays_stop nofun

theorem stays_membersOf {place : Pointer} {depth : Nat} (required : List String) :
    ∀ keywords : List Keyword, Stays (membersOf source place depth required keywords)
  | [] => by
    simp only [membersOf]
    exact stays_pure _
  | keyword :: rest => by
    cases keyword with
    | properties entries =>
      simp only [membersOf]
      exact stays_entriesOf required entries
    | _ =>
      rw [membersOf_cons (by simp [Keyword.kind])]
      exact stays_membersOf required rest

theorem stays_entriesOf {place : Pointer} {depth : Nat} (required : List String) :
    ∀ entries : List (String × Schema), Stays (entriesOf source place depth required entries)
  | [] => by
    simp only [entriesOf]
    exact stays_pure _
  | (name, t) :: rest => by
    simp only [entriesOf]
    refine (stays_lift (checkName_refuses trivial name)).bind fun _ => ?_
    refine (stays_synthesize (propertyPlace_ne_root place name) t).bind fun made => ?_
    exact (stays_entriesOf required rest).bind fun _ => stays_pure _

end

/-! ## The steps of a run -/

theorem stays_define (c : Container) (name : String) (t : Schema) :
    Stays (define source c name t) := by
  refine (stays_lift (checkName_refuses trivial name)).bind fun _ => stays_ledger fun l => ?_
  split
  · exact stays_stop nofun
  · refine (stays_synthesize (definitionPlace_ne_root c name) t).bind fun made => ?_
    split
    · exact stays_stop nofun
    · refine stays_defaultNamespace fun ns => ?_
      refine (stays_lift (definitionItem_refuses trivial source name made.node)).bind fun item => ?_
      exact (stays_emit (.defined _) rfl).bind fun _ => stays_addItem item

theorem stays_defineEach (c : Container) (entries : List (String × Schema)) :
    Stays (defineEach source c entries) := by
  induction entries with
  | nil => exact stays_pure ()
  | cons e rest ih => exact (stays_define c e.1 e.2).bind fun _ => ih

theorem stays_inlineRoot (w : WorkList) : Stays (inlineRoot source w) := by
  cases hc : source.schema.combinators with
  | cons first rest =>
    simp only [inlineRoot, hc]
    exact stays_stop (by rintro ⟨⟨⟩, _⟩)
  | nil =>
    simp only [inlineRoot, hc]
    refine (stays_enter .root 0).bind fun _ => ?_
    split
    · refine (stays_lift (openComplex_refuses trivial (fun _ => trivial) _)).bind fun opened => ?_
      exact (stays_membersOf opened.1 _).bind fun _ => stays_pure _
    · split
      · refine stays_defaultNamespace fun ns => ?_
        exact (stays_lift (simpleTypeName_refuses trivial (fun _ => trivial) _ _)).bind
          fun _ => stays_pure _
      · exact stays_stop (by rintro ⟨⟨⟩, _⟩)

theorem stays_wrappedRoot : Stays (wrappedRoot source) := by
  refine stays_defaultNamespace fun ns => ?_
  exact (stays_lift (wrappedTypeName_refuses (fun _ _ _ => trivial) fun _ => trivial)).bind
    fun _ => stays_pure _

theorem stays_buildRoot (w : WorkList) : Stays (buildRoot source w) := by
  refine (stays_lift (checkName_refuses trivial _)).bind fun _ => ?_
  have hplace : ∀ made : Element × WorkList, Stays (do
      emit (.rootElement made.1.name)
      addItem (.element made.1)
      return made.2) := fun made =>
    (stays_emit (.rootElement made.1.name) rfl).bind fun _ =>
      (stays_addItem _).bind fun _ => stays_pure _
  dsimp only
  split
  · exact (stays_inlineRoot w).bind hplace
  · rw [map_eq_pure_bind, bind_assoc]
    exact stays_wrappedRoot.bind fun e => hplace (e, w)

theorem stays_takeRoot (w : WorkList) (built : Bool) :
    Stays (if built then pure (w, true)
      else do return (← buildRoot source w, true) : Conversion (WorkList × Bool)) := by
  split
  · exact stays_pure _
  · exact (stays_buildRoot w).bind fun _ => stays_pure _

theorem stays_dispatch (w : WorkList) (built : Bool) (keyword : Keyword) :
    Stays (dispatch source w built keyword) := by
  unfold dispatch
  split
  · cases keyword with
    | info entries =>
      refine (stays_lift (documentationOf_refuses fun _ _ => trivial)).bind fun _ => ?_
      exact (stays_addItem _).bind fun _ => stays_pure _
    | definitions c entries => exact (stays_defineEach c entries).bind fun _ => stays_pure _
    | combinator c branches => exact stays_takeRoot _ built
    | properties entries => exact stays_takeRoot _ built
    | _ => exact stays_pure _
  · exact stays_pure _

theorem stays_dispatchEach (w : WorkList) (built : Bool) (keywords : List Keyword) :
    Stays (dispatchEach source w built keywords) := by
  induction keywords generalizing w built with
  | nil => exact stays_pure _
  | cons keyword rest ih => exact (stays_dispatch w built keyword).bind fun pair => ih pair.1 pair.2

theorem stays_finishRoot (w : WorkList) (built : Bool) : Stays (finishRoot source w built) := by
  unfold finishRoot
  split
  · exact stays_pure _
  · split
    · exact stays_buildRoot w
    · exact stays_stop nofun

theorem stays_applyAttribute (name value : String) : Stays (applyAttribute source name value) := by
  unfold applyAttribute
  split
  · exact (stays_lift (form?_refuses trivial value)).bind fun _ => stays_amend _
  · exact (stays_lift (form?_refuses trivial value)).bind fun _ => stays_amend _
  · exact (stays_lift (derivations?_refuses trivial _ value)).bind fun _ => stays_amend _
  · exact (stays_lift (derivations?_refuses trivial _ value)).bind fun _ => stays_amend _
  · split
    · exact stays_stop nofun
    · exact stays_emit (.unknownAttribute _) rfl

theorem stays_applyEach (attributes : List (String × String)) :
    Stays (applyEach source attributes) := by
  induction attributes with
  | nil => exact stays_pure _
  | cons a rest ih => exact (stays_applyAttribute a.1 a.2).bind fun _ => ih

theorem stays_applyNamespaces : Stays (applyNamespaces source) := by
  refine (stays_lift (namespaceTable_refuses (fun _ => trivial) fun _ _ => trivial)).bind
    fun table => ?_
  exact (stays_emit (.namespacesBound _) rfl).bind fun _ => stays_amend _

/-! ## Stages -/

/-- The rest of a run: it succeeds after going on through all the given stages, and fails in one of
them, in the last of them exactly if the root left keywords over. -/
structure Completes (stages : List Stage) (x : Conversion α) : Prop where
  ok : ∀ {l a l'}, x l = (.ok a, l') → Passes stages l l'
  error : ∀ {l e l'}, x l = (.error e, l') →
    ∃ done, done <+: stages ∧ Passes done l l' ∧ (done = stages ↔ e.IsRootLeftover)

/-- Before the last stage nothing is left over. -/
theorem Completes.after {x : Conversion α} {f : α → Conversion β} {next : Stage}
    {stages : List Stage} (hx : Stays x) (hf : ∀ a, Completes (next :: stages) (f a)) :
    Completes (next :: stages) (x >>= f) := by
  refine ⟨fun h => ?_, fun h => ?_⟩
  · obtain ⟨a, m, ha, h⟩ := bind_ok.1 h
    exact (hx.ok ha).after ((hf a).ok h)
  · rcases bind_error.1 h with h | ⟨a, m, ha, h⟩
    · obtain ⟨hpasses, hspares⟩ := hx.error h
      exact ⟨[], List.nil_prefix, hpasses, nofun, fun hleft => absurd hleft hspares⟩
    · obtain ⟨done, hdone, hpasses, hiff⟩ := (hf a).error h
      exact ⟨done, hdone, (hx.ok ha).after hpasses, hiff⟩

theorem Completes.advance {f : Unit → Conversion β} {next : Stage} {stages : List Stage}
    (hf : Completes stages (f ())) : Completes (next :: stages) (advance next >>= f) := by
  refine ⟨fun h => ?_, fun h => ?_⟩
  · rw [bind_advance_ok] at h
    exact (hf.ok h).cons
  · obtain ⟨done, hdone, hpasses, hiff⟩ := hf.error h
    refine ⟨next :: done, (List.prefix_cons_inj next).2 hdone, hpasses.cons, ?_⟩
    rw [List.cons.injEq, eq_self, true_and, hiff]

theorem completes_checkDrained (w : WorkList) :
    Completes [] (liftM (checkDrained .root w) : Conversion Unit) := by
  unfold checkDrained
  split
  · exact ⟨(stays_pure ()).ok, nofun⟩
  · refine ⟨nofun, fun h => ?_⟩
    cases h
    exact ⟨[], List.nil_prefix, passes_of_eq rfl rfl, iff_of_true rfl ⟨rfl, rfl⟩⟩

end Conversion

/-- The stages before a conversion ends, in order. -/
def course : List Stage :=
  [.start, .attributesApplied, .namespacesApplied, .dispatchingKeywords, .rootBuilt]

namespace Conversion

/-- **A run completes its course**, from the last check backwards. -/
theorem completes_run (source : Source) : Completes course.tail (run source) := by
  refine .after (stays_applyEach _) fun _ => .advance ?_
  refine .after stays_applyNamespaces fun _ => .advance (.advance ?_)
  refine .after (stays_dispatchEach _ _ _) fun pair => ?_
  exact .after (stays_finishRoot pair.1 pair.2) fun w => .advance (completes_checkDrained w)

end Conversion
/-! ## Converters -/

namespace Converter

variable {c : Converter}

/-- A converter that has not run. -/
def new (source : Source) : Converter := { source }

/-- The converter after a number of calls. -/
def after (c : Converter) : Nat → Converter
  | 0 => c
  | n + 1 => (c.after n).convert.2

/-- The moves between stages that a converter has logged. -/
def moves (c : Converter) : List (Stage × Stage) := c.ledger.moves

theorem convert_of_spent (h : c.stage ≠ .start) :
    c.convert = (.error (.fault .root .spentConverter), c) := if_neg h

section

variable {source : Source} {r : Except Problem Document}

theorem after_of_convert (h : (new source).convert = (r, c)) (hspent : c.stage ≠ .start) (n : Nat) :
    (new source).after (n + 1) = c := by
  induction n with
  | zero => rw [after, after, h]
  | succ n ih => rw [after, ih, convert_of_spent hspent]

/-- What was logged before a run does not matter to its result. -/
theorem outcome_of_convert (h : (new source).convert = (r, c)) :
    XsdSynthesis.convert source = r := by
  obtain ⟨s, k, o⟩ := source
  have hrun := (follows_run (retells_refl [.converting k.messageName k.inlineRoot] _ s k)
    (relaxes_refl _ o)).uncut {}
  have hbegun : ({} : Ledger).retold ⟨[.converting k.messageName k.inlineRoot], id, fun _ => False⟩ =
      { log := [.converting k.messageName k.inlineRoot] } := rfl
  rw [hbegun] at hrun
  simp only [convert, stage, new, if_true] at h
  simp only [XsdSynthesis.convert, traced, convert, stage, if_true, hrun]
  rcases hr : run ⟨s, k, o⟩ {} with ⟨result, l⟩
  rw [hr] at h
  cases result <;> cases h <;> simp [Except.map, Ledger.retold]

/-- The first call succeeds at the end of the course, or fails after some first stages of it. -/
theorem stages_of_convert (h : (new source).convert = (r, c)) :
    (∃ d, r = .ok d ∧ c.stage = .done ∧ c.moves = steps (course ++ [.done])) ∨
      ∃ e done, r = .error e ∧ c.stage = .failed ∧ done <+: course.tail ∧
        c.moves = steps (.start :: done ++ [.failed]) ∧ (done = course.tail ↔ e.IsRootLeftover) := by
  have hcompletes := completes_run source
  simp only [convert, stage, new, if_true] at h
  rcases hr : run source {} with ⟨result, l⟩
  rw [hr] at h
  cases result with
  | ok u =>
    cases h
    obtain ⟨hmoves, hstage⟩ := hcompletes.ok hr
    refine .inl ⟨_, rfl, rfl, ?_⟩
    change (l.advance .done).moves = _
    rw [Ledger.moves_advance, hmoves, hstage]
    rfl
  | error e =>
    cases h
    obtain ⟨done, hdone, ⟨hmoves, hstage⟩, hiff⟩ := hcompletes.error hr
    refine .inr ⟨e, done, rfl, rfl, hdone, ?_, hiff⟩
    change ((l.advance .failed).emit (.stopped e)).moves = _
    rw [steps_concat, Ledger.moves_emit, Ledger.moves_advance, hmoves, hstage]
    simp [Event.move?, Ledger.moves]

theorem document_of_convert (h : (new source).convert = (r, c)) : c.ledger.document = {} := by
  simp only [convert, stage, new, if_true] at h
  rcases hr : run source {} with ⟨result, l⟩
  rw [hr] at h
  cases result <;> cases h <;> rfl

end

end Converter

/-- A failure comes from the last stage of the course exactly if it comes after all of them. -/
theorem failed_from_rootBuilt_iff : ∀ done ∈ course.tail.inits,
    ((.rootBuilt, .failed) ∈ steps (.start :: done ++ [.failed]) ↔ done = course.tail) := by
  decide

/-- **The life of a converter.** The first call gives what a conversion gives. The moves that it logs
go through the first stages of the course, one after the other, and end in the last stage of the
converter: after the whole course in `done`, if there is a document, and in `failed` if there is none.
It failed when the root element was built exactly if the problem is that the root has keywords left
over. From then on the converter is as it is: every further call is refused at the root, logs nothing
and leaves the stage, and there is no document in it. -/
theorem converter_lifecycle (source : Source) :
    ∃ c reached last, (Converter.new source).convert = (convert source, c) ∧
      reached ≠ [] ∧ reached <+: course ∧ c.moves = steps (reached ++ [last]) ∧ c.stage = last ∧
      (∀ d, convert source = .ok d → last = .done ∧ reached = course) ∧
      (∀ e, convert source = .error e → last = .failed ∧
        ((.rootBuilt, .failed) ∈ c.moves ↔
          e.report.code = .unsupportedSchema ∧ e.report.path? = some "#")) ∧
      ∀ n, (Converter.new source).after (n + 1) = c ∧ c.ledger.document = {} ∧
        ∃ e, c.convert = (.error e, c) ∧ e.report.code = .schemaError ∧
          e.report.path? = some "#" := by
  rcases h : (Converter.new source).convert with ⟨r, c⟩
  obtain rfl := Converter.outcome_of_convert h
  have hlater : c.stage ≠ .start → ∀ n, (Converter.new source).after (n + 1) = c ∧
      c.ledger.document = {} ∧ ∃ e, c.convert = (.error e, c) ∧ e.report.code = .schemaError ∧
        e.report.path? = some "#" := fun hspent n =>
    ⟨Converter.after_of_convert h hspent n, Converter.document_of_convert h, _,
      Converter.convert_of_spent hspent, rfl, rfl⟩
  rcases Converter.stages_of_convert h with ⟨d, hd, hstage, hmoves⟩ |
    ⟨e, done, he, hstage, hdone, hmoves, hiff⟩
  · refine ⟨c, course, .done, rfl, nofun, List.prefix_refl _, hmoves, hstage, fun _ _ => ⟨rfl, rfl⟩,
      fun e he => ?_, hlater (by rw [hstage]; nofun)⟩
    cases hd.symm.trans he
  · refine ⟨c, .start :: done, .failed, rfl, nofun, (List.prefix_cons_inj _).2 hdone, hmoves,
      hstage, fun d hd => ?_, fun e' he' => ⟨rfl, ?_⟩, hlater (by rw [hstage]; nofun)⟩
    · cases he.symm.trans hd
    · cases he.symm.trans he'
      rw [hmoves, failed_from_rootBuilt_iff done ((List.mem_inits _ _).2 hdone)]
      exact hiff

end XsdSynthesis
