import XsdSynthesis.Proofs.Coverage
import XsdSynthesis.Proofs.Resolution
import Mathlib.Logic.Relation

/-!
# XsdSynthesis.Proofs.BaseWalk

The walk along the bases of a simple type. The definitions of a document and the references among
them are a graph in which every node has at most one way out (`Schema.LeadsTo`). The check goes that
way round by round, and there are no more rounds than definitions (`Walk.outcome?_eq`). It refuses
a base exactly if the way from it passes a definition that is not simple or comes to a definition
twice (`base_walk_exact`).
-/

namespace XsdSynthesis

open Relation Xsd Conversion

/-! ## One way out -/

section RightUnique

variable {α : Type} {r : α → α → Prop} {x y last : α}

/-- Where there is one way out of every node, what a cycle leads to lies on a cycle. -/
theorem transGen_self_of_reflTransGen (hr : Relator.RightUnique r) (hcycle : TransGen r x x)
    (h : ReflTransGen r x y) : TransGen r y y := by
  induction h with
  | refl => exact hcycle
  | tail _ hstep ih =>
    obtain ⟨z, hz, hback⟩ := TransGen.head'_iff.1 ih
    cases hr hstep hz
    exact TransGen.tail' hback hstep

/-- A way that ends does not enter a cycle. -/
theorem not_transGen_self (hr : Relator.RightUnique r) (hlast : ReflTransGen r x last)
    (hend : ∀ z, ¬ r last z) (h : ReflTransGen r x y) : ¬ TransGen r y y := by
  intro hcycle
  rcases ReflTransGen.total_of_right_unique hr hlast h with hto | hfrom
  · rcases hto.cases_head with rfl | ⟨z, hz, _⟩
    · obtain ⟨z, hz, _⟩ := TransGen.head'_iff.1 hcycle
      exact hend z hz
    · exact hend z hz
  · obtain ⟨z, hz, _⟩ := TransGen.head'_iff.1 (transGen_self_of_reflTransGen hr hcycle hfrom)
    exact hend z hz

end RightUnique

/-! ## The graph of definitions -/

/-- The reference of the definition `name` leads to the definition `next`. -/
def Schema.LeadsTo (s : Schema) (name next : String) : Prop :=
  ∃ c t r c', (name, t) ∈ s.definitions c ∧ t.reference? = some r ∧
    Pointer.Fragment r [Container.name c', next] ∧ next ∈ (s.definitions c').map Prod.fst

/-- A definition that no simple type can restrict: it is classified as complex, or not as simple. -/
def Source.Unfit (source : Source) (name : String) : Prop :=
  ∃ c, name ∈ (source.schema.definitions c).map Prod.fst ∧
    ((source.classifier.shapes (definitionPlace c name)).isComplex = true ∨
      (source.classifier.shapes (definitionPlace c name)).isSimple = false)

namespace Conversion

variable {source : Source} {s t : Schema} {c : Container} {ns : Option String} {place : Pointer}
  {name current next : String} {construct : Construct}

theorem target?_iff_mem {r : String} :
    s.target? r = some (c, next) ↔
      Pointer.Fragment r [c.name, next] ∧ next ∈ (s.definitions c).map Prod.fst := by
  rw [Schema.target?_iff, Pointer.fragment_iff, Schema.definition?, Tables.exists_lookup_iff]

/-- Where a definition leads is what the check finds as its next base. -/
theorem leadsTo_iff (hn : s.definitionNames.Nodup) (hm : (current, t) ∈ s.definitions c)
    (place : Pointer) :
    s.LeadsTo current next ↔ nextBase? s none place t = some next := by
  rw [nextBase?_eq_some, and_iff_right rfl]
  simp only [target?_iff_mem]
  constructor
  · rintro ⟨c₁, t₁, r, c', hm₁, hr, hto⟩
    cases (findDefinition?_of_mem hn hm₁).symm.trans (findDefinition?_of_mem hn hm)
    exact ⟨r, c', hr, hto⟩
  · rintro ⟨r, c', hr, hto⟩
    exact ⟨c, t, r, c', hm, hr, hto⟩

theorem leadsTo_rightUnique (hn : s.definitionNames.Nodup) : Relator.RightUnique s.LeadsTo := by
  intro current a b ha hb
  obtain ⟨c, t, _, _, hm, _⟩ := id ha
  rw [leadsTo_iff hn hm .root] at ha hb
  exact Option.some.inj (ha.symm.trans hb)

theorem unfit_iff (hn : source.schema.definitionNames.Nodup)
    (hm : (current, t) ∈ source.schema.definitions c) :
    source.Unfit current ↔
      ((source.classifier.shapes (definitionPlace c current)).isComplex ||
        !(source.classifier.shapes (definitionPlace c current)).isSimple) = true := by
  rw [Bool.or_eq_true, Bool.not_eq_true']
  constructor
  · rintro ⟨c₁, hc, hshapes⟩
    obtain ⟨⟨_, u⟩, hu, rfl⟩ := List.mem_map.1 hc
    cases (findDefinition?_of_mem hn hu).symm.trans (findDefinition?_of_mem hn hm)
    exact hshapes
  · intro hshapes
    exact ⟨c, List.mem_map_of_mem hm, hshapes⟩

/-! ## Rounds -/

/-- Where the check stands between two rounds: the definitions met, and the name to look at next. -/
structure Walk where
  chain : List String
  current : String

namespace Walk

variable {w w' : Walk}

/-- One round of the check of `name`: it comes to an outcome, or the walk goes on. -/
def round (source : Source) (ns : Option String) (name : String) (w : Walk) :
    Except Construct Unit ⊕ Walk :=
  if w.chain.contains w.current then .inl (.error (.derivationCycle (w.chain ++ [w.current])))
  else match link? source ns w.current with
    | none => .inl (.ok ())
    | some (false, _) => .inl (.error (.baseNotSimple name w.current))
    | some (true, none) => .inl (.ok ())
    | some (true, some next) => .inr ⟨w.chain ++ [w.current], next⟩

/-- The outcome of the check, if it comes to one within so many rounds. -/
def outcome? (source : Source) (ns : Option String) (name : String) :
    Nat → Walk → Option (Except Construct Unit)
  | 0, _ => none
  | n + 1, w =>
    match w.round source ns name with
    | .inl outcome => some outcome
    | .inr w' => outcome? source ns name n w'

/-- The definitions that have not been met. -/
def unmet (s : Schema) (w : Walk) : List String :=
  s.definitionNames.filter fun n => !w.chain.contains n

theorem checkChain_round (source : Source) (ns : Option String) (name : String) (w : Walk) :
    checkChain source ns name w.chain w.current =
      match w.round source ns name with
      | .inl outcome => outcome
      | .inr w' => checkChain source ns name w'.chain w'.current := by
  rw [checkChain_eq, round]
  split
  · rfl
  · rcases link? source ns w.current with _ | ⟨_ | _, _ | _⟩ <;> rfl

/-- A round that goes on has met one definition more. -/
theorem unmet_lt (h : w.round source ns name = .inr w') :
    (w'.unmet source.schema).length < (w.unmet source.schema).length := by
  unfold round at h
  split at h
  · cases h
  · rename_i hmet
    split at h
    · cases h
    · cases h
    · cases h
    · rename_i next hlink
      cases h
      obtain ⟨found, hfound, _⟩ := Option.map_eq_some_iff.1 hlink
      refine length_filter_lt (Schema.mem_definitionNames hfound) (by simpa using hmet) (by simp) ?_
      intro n hnot
      simp only [List.contains_append, Bool.not_eq_true', Bool.or_eq_false_iff] at hnot ⊢
      exact hnot.1

/-- With its name on the chain, one definition is met already. -/
theorem unmet_start_lt {s : Schema} (h : name ∈ s.definitionNames) (base : String) :
    ((Walk.mk [name] base).unmet s).length < s.definitionNames.length := by
  have hlt := length_filter_lt (p := fun _ => true) (q := fun n => !List.contains [name] n) h rfl
    (by simp) (fun _ _ => rfl)
  rwa [List.filter_true] at hlt

/-- **The check comes to an outcome** as soon as the rounds outnumber the definitions that have not
been met, by induction on the rounds. -/
theorem outcome?_eq (source : Source) (ns : Option String) (name : String) {n : Nat}
    (h : (w.unmet source.schema).length < n) :
    w.outcome? source ns name n = some (checkChain source ns name w.chain w.current) := by
  induction n generalizing w with
  | zero => omega
  | succ n ih =>
    rw [outcome?, checkChain_round]
    split
    · rfl
    · rename_i w' hround
      have hlt := unmet_lt hround
      exact ih (by omega)

/-- What a round says of the definition that it looks at. -/
theorem round_cases (hn : source.schema.definitionNames.Nodup) (name : String) (w : Walk) :
    (∃ construct, w.round source none name = .inl (.error construct) ∧
      (w.current ∈ w.chain ∨ source.Unfit w.current)) ∨
    (w.round source none name = .inl (.ok ()) ∧ w.current ∉ w.chain ∧ ¬ source.Unfit w.current ∧
      ∀ next, ¬ source.schema.LeadsTo w.current next) ∨
    ∃ next, w.round source none name = .inr ⟨w.chain ++ [w.current], next⟩ ∧
      w.current ∉ w.chain ∧ ¬ source.Unfit w.current ∧
      source.schema.LeadsTo w.current next := by
  unfold round
  by_cases hmet : w.current ∈ w.chain
  · rw [if_pos (by simpa using hmet)]
    exact .inl ⟨_, rfl, .inl hmet⟩
  rw [if_neg (by simpa using hmet)]
  cases hf : source.schema.findDefinition? w.current with
  | none =>
    -- Only a definition can be unfit or lead anywhere.
    have hnone : ∀ c t, (w.current, t) ∉ source.schema.definitions c := fun c t hm => by
      cases hf.symm.trans (findDefinition?_of_mem hn hm)
    rw [link?, hf]
    refine .inr (.inl ⟨rfl, hmet, ?_, ?_⟩)
    · rintro ⟨c, hc, _⟩
      obtain ⟨⟨_, t⟩, ht, hname⟩ := List.mem_map.1 hc
      exact hnone c t (hname ▸ ht)
    · rintro next ⟨c, t, _, _, hm, _⟩
      exact hnone c t hm
  | some found =>
    obtain ⟨c, t⟩ := found
    have hm := mem_of_findDefinition? hf
    have hunfit := unfit_iff hn hm
    have hleads : ∀ next, source.schema.LeadsTo w.current next ↔
        nextBase? source.schema none (definitionPlace c w.current) t = some next :=
      fun _ => leadsTo_iff hn hm _
    rw [link?, hf]
    dsimp only [Option.map_some]
    split
    · contradiction
    · rename_i hlink
      obtain ⟨hshapes, _⟩ := Prod.mk.inj (Option.some.inj hlink)
      exact .inl ⟨_, rfl, .inr (hunfit.2 (by simpa only [Bool.not_eq_false'] using hshapes))⟩
    · rename_i hlink
      obtain ⟨hshapes, hnext⟩ := Prod.mk.inj (Option.some.inj hlink)
      refine .inr (.inl ⟨rfl, hmet, ?_, fun next => ?_⟩)
      · rw [hunfit]
        simpa using hshapes
      · rw [hleads, hnext]
        exact Option.some_ne_none next ∘ Eq.symm
    · rename_i next hlink
      obtain ⟨hshapes, hnext⟩ := Prod.mk.inj (Option.some.inj hlink)
      refine .inr (.inr ⟨next, rfl, hmet, ?_, (hleads next).2 hnext⟩)
      rw [hunfit]
      simpa using hshapes

/-! ## Whole walks -/

/-- **A refusal has a reason**, by induction on the rounds: the way leads to a definition that was
met before, that is unfit, or that leads back to itself. -/
theorem reason_of_error (hn : source.schema.definitionNames.Nodup) {n : Nat}
    (h : w.outcome? source none name n = some (.error construct)) :
    ∃ x, ReflTransGen source.schema.LeadsTo w.current x ∧
      (x ∈ w.chain ∨ source.Unfit x ∨ TransGen source.schema.LeadsTo x x) := by
  induction n generalizing w with
  | zero => cases h
  | succ n ih =>
    rw [outcome?] at h
    rcases round_cases hn name w with ⟨_, _, hwhy⟩ | ⟨hround, _⟩ | ⟨next, hround, _, _, hstep⟩
    · exact ⟨w.current, .refl, hwhy.imp_right .inl⟩
    · rw [hround] at h
      cases h
    · rw [hround] at h
      obtain ⟨x, hx, hmet | hwhy⟩ := ih h
      · rcases List.mem_append.1 hmet with hbefore | hnow
        · exact ⟨x, .head hstep hx, .inl hbefore⟩
        · -- The walk came back to the definition of this round.
          cases List.mem_singleton.1 hnow
          exact ⟨w.current, .refl, .inr (.inr (TransGen.head' hstep hx))⟩
      · exact ⟨x, .head hstep hx, .inr hwhy⟩

/-- **What is accepted is fit**, by induction on the rounds: no definition on the way was met
before, is unfit, or leads back to itself. -/
theorem fit_of_ok (hn : source.schema.definitionNames.Nodup) {n : Nat}
    (h : w.outcome? source none name n = some (.ok ())) :
    ∀ x, ReflTransGen source.schema.LeadsTo w.current x →
      x ∉ w.chain ∧ ¬ source.Unfit x ∧ ¬ TransGen source.schema.LeadsTo x x := by
  induction n generalizing w with
  | zero => cases h
  | succ n ih =>
    rw [outcome?] at h
    intro x hx
    rcases round_cases hn name w with ⟨_, hround, _⟩ | ⟨_, hnew, hfit, hend⟩ |
      ⟨next, hround, hnew, hfit, hstep⟩
    · rw [hround] at h
      cases h
    · have hstay : ∀ y, ¬ TransGen source.schema.LeadsTo w.current y := fun y hy => by
        obtain ⟨z, hz, _⟩ := TransGen.head'_iff.1 hy
        exact hend z hz
      rcases reflTransGen_iff_eq_or_transGen.1 hx with rfl | hgo
      · exact ⟨hnew, hfit, hstay _⟩
      · exact absurd hgo (hstay x)
    · rw [hround] at h
      have hrest := ih h
      have hunique : ∀ {y}, TransGen source.schema.LeadsTo w.current y →
          ReflTransGen source.schema.LeadsTo next y := fun hy => by
        obtain ⟨z, hz, hto⟩ := TransGen.head'_iff.1 hy
        cases leadsTo_rightUnique hn hstep hz
        exact hto
      rcases reflTransGen_iff_eq_or_transGen.1 hx with rfl | hgo
      · refine ⟨hnew, hfit, fun hcycle => ?_⟩
        exact (hrest _ (hunique hcycle)).1 (List.mem_append_right _ (List.mem_singleton_self _))
      · obtain ⟨hchain, hwell⟩ := hrest x (hunique hgo)
        exact ⟨fun hin => hchain (List.mem_append_left _ hin), hwell⟩

/-- **When a walk is refused**: exactly if the way leads to a definition that was met before, that
is unfit, or that leads back to itself. -/
theorem refused_iff (hn : source.schema.definitionNames.Nodup) (name : String) :
    (∃ construct, checkChain source none name w.chain w.current = .error construct) ↔
      ∃ x, ReflTransGen source.schema.LeadsTo w.current x ∧
        (x ∈ w.chain ∨ source.Unfit x ∨ TransGen source.schema.LeadsTo x x) := by
  have hrounds := outcome?_eq source none name (Nat.lt_succ_self (w.unmet source.schema).length)
  cases hout : checkChain source none name w.chain w.current with
  | error construct =>
    rw [hout] at hrounds
    exact iff_of_true ⟨construct, rfl⟩ (reason_of_error hn hrounds)
  | ok =>
    rw [hout] at hrounds
    refine iff_of_false ?_ ?_
    · rintro ⟨_, he⟩
      cases he
    · rintro ⟨x, hx, hwhy⟩
      obtain ⟨hnew, hfit, hopen⟩ := fit_of_ok hn hrounds x hx
      rcases hwhy with hmet | hunfit | hcycle
      · exact hnew hmet
      · exact hfit hunfit
      · exact hopen hcycle

end Walk

/-- Which bases are refused for a definition. -/
theorem checkBase_refused_iff (hn : source.schema.definitionNames.Nodup) (place : Pointer)
    (name base : String) :
    (∃ e, checkBase source none place name (.plain base) = .error e) ↔
      (∃ x, ReflTransGen source.schema.LeadsTo base x ∧ source.Unfit x) ∨
      ReflTransGen source.schema.LeadsTo base name ∨
      ∃ x, ReflTransGen source.schema.LeadsTo base x ∧ TransGen source.schema.LeadsTo x x := by
  have herror : (∃ e, checkBase source none place name (.plain base) = .error e) ↔
      ∃ construct, checkChain source none name [name] base = .error construct := by
    rw [checkBase_plain]
    cases checkChain source none name [name] base <;> simp [Except.mapError]
  rw [herror, Walk.refused_iff (w := ⟨[name], base⟩) hn name]
  constructor
  · rintro ⟨x, hx, hmet | hunfit | hcycle⟩
    · cases List.mem_singleton.1 hmet
      exact .inr (.inl hx)
    · exact .inl ⟨x, hx, hunfit⟩
    · exact .inr (.inr ⟨x, hx, hcycle⟩)
  · rintro (⟨x, hx, hunfit⟩ | hback | ⟨x, hx, hcycle⟩)
    · exact ⟨x, hx, .inr (.inl hunfit)⟩
    · exact ⟨name, hback, .inl (List.mem_singleton_self name)⟩
    · exact ⟨x, hx, .inr (.inr hcycle)⟩

end Conversion

/-- **The walk along the bases is exact and ends.** Let definitions have different names, and let
the reference of the definition `name` stand for `base`. Then the check of `name` comes to its
outcome in no more rounds than there are definitions. It refuses `base` exactly if the references
from it lead to a definition that is not simple or to a definition for the second time, `name` or
any other. So a way that ends, over simple definitions only, is never refused. -/
theorem base_walk_exact {source : Source} {d : Document} {c : Container} {name base r : String}
    {t : Schema} (hn : source.schema.definitionNames.Nodup)
    (hm : (name, t) ∈ source.schema.definitions c) (hr : t.reference? = some r)
    (hbase : resolve source.schema (d.namespaceOf? "") (definitionPlace c name) r = .ok base) :
    (∃ outcome,
      Walk.outcome? source (d.namespaceOf? "") name source.schema.definitionNames.length
        ⟨[name], base⟩ = some outcome ∧
      checkBase source (d.namespaceOf? "") (definitionPlace c name) name (.plain base) =
        outcome.mapError (Problem.unsupported (definitionPlace c name))) ∧
    ((∃ e, checkBase source (d.namespaceOf? "") (definitionPlace c name) name (.plain base) =
        .error e) ↔
      (∃ x, ReflTransGen source.schema.LeadsTo base x ∧ source.Unfit x) ∨
      ReflTransGen source.schema.LeadsTo base name ∨
      ∃ x, ReflTransGen source.schema.LeadsTo base x ∧ TransGen source.schema.LeadsTo x x) ∧
    ∀ last, ReflTransGen source.schema.LeadsTo base last →
      (∀ next, ¬ source.schema.LeadsTo last next) →
      (∀ x, ReflTransGen source.schema.LeadsTo base x → ¬ source.Unfit x) →
      checkBase source (d.namespaceOf? "") (definitionPlace c name) name (.plain base) =
        .ok () := by
  obtain ⟨hns, c', htarget⟩ := resolve_ok.1 hbase
  rw [hns]
  have hstart := Walk.unmet_start_lt (mem_definitionNames_of_mem hm) base
  have hrefused := checkBase_refused_iff hn (definitionPlace c name) name base
  refine ⟨⟨_, Walk.outcome?_eq source none name hstart, checkBase_plain ..⟩, hrefused, ?_⟩
  intro last hlast hend hfit
  have hstep : source.schema.LeadsTo name base :=
    (leadsTo_iff hn hm .root).2 (nextBase?_eq_some.2 ⟨rfl, r, c', hr, htarget⟩)
  have hopen : ∀ {x}, ReflTransGen source.schema.LeadsTo base x →
      ¬ TransGen source.schema.LeadsTo x x :=
    not_transGen_self (leadsTo_rightUnique hn) hlast hend
  cases hout : checkBase source none (definitionPlace c name) name (.plain base) with
  | ok => rfl
  | error e =>
    rcases hrefused.1 ⟨e, hout⟩ with ⟨x, hx, hunfit⟩ | hback | ⟨x, hx, hcycle⟩
    · exact absurd hunfit (hfit x hx)
    · exact absurd (TransGen.tail' hback hstep) (hopen .refl)
    · exact absurd hcycle (hopen hx)

/-- Two definitions that restrict each other across the containers, and one that comes before. -/
def tailedLoop : Schema :=
  .mk [.definitions .defs
      [("A", .mk [.ref "#/definitions/B"]), ("C", .mk [.ref "#/definitions/B"])],
    .definitions .definitions [("B", .mk [.ref "#/$defs/C"])]]

/-- The first definition is refused for a loop that it is no part of. -/
theorem base_walk_exact_tailedLoop :
    ∃ e, checkBase ⟨tailedLoop, simpleRoot, {}⟩ none (definitionPlace .defs "A") "A"
      (.plain "B") = .error e := by
  have hn : tailedLoop.definitionNames.Nodup := by decide
  have hforth : tailedLoop.LeadsTo "B" "C" :=
    (leadsTo_iff (c := .definitions) hn (.head _) .root).2 (by decide)
  have hback : tailedLoop.LeadsTo "C" "B" :=
    (leadsTo_iff (c := .defs) hn (.tail _ (.head _)) .root).2 (by decide)
  have hexact := @base_walk_exact ⟨tailedLoop, simpleRoot, {}⟩ {} .defs "A" "B" "#/definitions/B" _
    hn (.head _) rfl (by decide)
  exact hexact.2.1.2 (.inr (.inr ⟨"B", .refl, .head hforth (.single hback)⟩))

/-- The last round is needed. -/
example : Walk.outcome? ⟨tailedLoop, simpleRoot, {}⟩ none "A" 2 ⟨["A"], "B"⟩ = none := by decide

end XsdSynthesis
