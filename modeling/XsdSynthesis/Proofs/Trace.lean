import XsdSynthesis.Proofs.Dispatching
import XsdSynthesis.Proofs.Visits

/-!
# XsdSynthesis.Proofs.Trace

A conversion goes through a plan. `keywordVisits` lists the visits that the keywords of the root
take one after the other, with those of the root element where it is built; `dispatch_next` is the
step of the loop that this list follows, and `run_goes` puts the loop between the heading and the
last check. So whatever a conversion fails with, the path in its report leads to a value of the
document (`error_path_stands`).
-/

namespace XsdSynthesis

open Xsd Conversion

namespace Conversion

variable {β : Type} {source : Source} {w w' : WorkList} {l l' : Ledger} {built built' : Bool}
  {k : Keyword}

/-! ## Heading -/

theorem spot_declaredAttribute {s : Schema} {a : String × String} (h : a ∈ declaredAttributes s) :
    Spot s (Pointer.root.append [Spelling.documentAttributes, a.1]) := by
  unfold declaredAttributes at h
  split at h
  · rename_i attributes hg
    exact .entry (mem_of_get? hg).1 (List.mem_map_of_mem h)
  · cases h

theorem spot_namespaces {s : Schema} (h : declaredNamespaces s ≠ []) : Spot s namespacesPlace := by
  unfold declaredNamespaces at h
  split at h
  · rename_i bindings hg
    exact .keyword .root (mem_of_get? hg).1
  · exact absurd rfl h

theorem spot_declaredNamespace {s : Schema} {b : String × String} (h : b ∈ declaredNamespaces s) :
    Spot s (namespacesPlace.child b.1) := by
  unfold declaredNamespaces at h
  split at h
  · rename_i bindings hg
    exact .entry (mem_of_get? hg).1 (List.mem_map_of_mem h)
  · cases h

theorem goes_applyAttribute {name : String}
    (hspot : Spot source.schema (Pointer.root.append [Spelling.documentAttributes, name]))
    (value : String) (l : Ledger) : Goes source [] (applyAttribute source name value) l := by
  unfold applyAttribute
  split
  · exact .after_lift (form?_refuses hspot value) fun _ _ => goes_amend _ _
  · exact .after_lift (form?_refuses hspot value) fun _ _ => goes_amend _ _
  · exact .after_lift (derivations?_refuses hspot _ value) fun _ _ => goes_amend _ _
  · exact .after_lift (derivations?_refuses hspot _ value) fun _ _ => goes_amend _ _
  · split
    · exact goes_stop (refused_at rfl rfl hspot) _ _
    · exact goes_emit rfl _

theorem goes_applyEach {attributes : List (String × String)}
    (h : ∀ a ∈ attributes,
      Spot source.schema (Pointer.root.append [Spelling.documentAttributes, a.1])) (l : Ledger) :
    Goes source [] (applyEach source attributes) l := by
  induction attributes generalizing l with
  | nil => exact goes_pure _ _
  | cons a rest ih =>
    obtain ⟨ha, hrest⟩ := List.forall_mem_cons.1 h
    exact (goes_applyAttribute ha a.2 l).last fun _ m _ => ih hrest m

theorem goes_applyNamespaces (source : Source) (l : Ledger) :
    Goes source [] (applyNamespaces source) l := by
  refine .after_lift (namespaceTable_refuses spot_namespaces fun _ => spot_declaredNamespace)
    fun table _ => ?_
  exact (goes_emit rfl l).last fun _ m _ => goes_amend _ m

/-- The default namespace is never one of those that are built in. -/
theorem declares_applyNamespaces {u : Unit} (h : applyNamespaces source l = (.ok u, l')) :
    Declares source l' := by
  obtain ⟨table, htable, h⟩ := bind_lift_ok.1 h
  rw [bind_emit_ok] at h
  cases h
  intro hbound
  obtain ⟨uri, hlookup⟩ := Option.ne_none_iff_exists'.1 hbound
  rcases mem_namespaceTable htable (Tables.mem_of_lookup hlookup) with hm | hm
  · exact spot_namespaces (List.ne_nil_of_mem hm)
  · simp [builtInNamespaces] at hm

/-! ## Keywords of the root -/

/-- The visits that a keyword of the root takes. -/
def stepVisits (source : Source) (marked : List Kind) (built : Bool) (k : Keyword) : List Visit :=
  if k.kind ∈ marked then []
  else
    match k with
    | .definitions c entries => preorderEach source.classifier (definitionPlace c) 1 entries
    | .combinator .. | .properties _ => if built then [] else rootVisits source
    | _ => []

/-- The kinds taken, and whether the root element is there, after a keyword of the root. -/
def next (marked : List Kind) (built : Bool) (k : Keyword) : List Kind × Bool :=
  if k.kind ∈ marked ∨ k.kind.isDispatched = false then (marked, built)
  else (k.kind :: marked, built || k.kind.describesRoot)

/-- The visits that keywords of the root take, and after them a root element that none of them
brought about. -/
def keywordVisits (source : Source) : List Kind → Bool → List Keyword → List Visit
  | _, built, [] => if built then [] else rootVisits source
  | marked, built, k :: rest =>
    stepVisits source marked built k ++
      keywordVisits source (next marked built k).1 (next marked built k).2 rest

/-- The visits that a whole conversion takes. -/
def runVisits (source : Source) : List Visit :=
  keywordVisits source (rootWorkList source.schema).marked false source.schema.keywords

section

variable {marked : List Kind}

theorem next_pass (h : k.kind ∈ marked ∨ k.kind.isDispatched = false) :
    next marked built k = (marked, built) := if_pos h

theorem next_take (hm : k.kind ∉ marked) (hd : k.kind.isDispatched = true) :
    next marked built k = (k.kind :: marked, built || k.kind.describesRoot) :=
  if_neg (by simp [hm, hd])

theorem stepVisits_pass (h : k.kind ∈ marked ∨ k.kind.isDispatched = false) :
    stepVisits source marked built k = [] := by
  unfold stepVisits
  split
  · rfl
  · rename_i hm
    have hd := h.resolve_left hm
    cases k with
    | info | definitions | combinator | properties => cases hd
    | _ => rfl

end

theorem takeRoot_next (hs : RootState source w built)
    (h : (if built then pure (w.mark k.kind, true)
      else do return (← buildRoot source (w.mark k.kind), true) : Conversion (WorkList × Bool)) l =
        (.ok (w', built'), l')) : w'.marked = k.kind :: w.marked ∧ built' = true := by
  split at h
  · obtain ⟨hpair, _⟩ := pure_ok.1 h
    cases hpair
    exact ⟨rfl, rfl⟩
  · rename_i hb
    obtain ⟨w₁, l₁, hroot, h⟩ := bind_ok.1 h
    obtain ⟨hpair, _⟩ := pure_ok.1 h
    cases hpair
    have hfresh : (w.mark k.kind).items = source.schema.keywords := hs.fresh (by simpa using hb)
    obtain ⟨_, _, _, hleft, _⟩ := buildRoot_ok hfresh hroot
    exact ⟨hleft.marked, rfl⟩

/-- What a keyword of the root leaves marked and built. -/
theorem dispatch_next (hs : RootState source w built) (hk : k ∈ source.schema.keywords)
    (h : dispatch source w built k l = (.ok (w', built'), l')) :
    next w.marked built k = (w'.marked, built') := by
  by_cases hpass : k.kind ∈ w.marked ∨ k.kind.isDispatched = false
  · rw [dispatch_pass hpass] at h
    cases h
    exact next_pass hpass
  · rw [not_or, Bool.not_eq_false] at hpass
    obtain ⟨hm, hd⟩ := hpass
    rw [next_take hm hd]
    unfold dispatch at h
    rw [if_pos (hs.pending hk hd hm)] at h
    cases k with
    | info entries =>
      obtain ⟨a, _, h⟩ := bind_lift_ok.1 h
      rw [bind_addItem_ok] at h
      obtain ⟨hpair, _⟩ := pure_ok.1 h
      cases hpair
      exact Prod.ext rfl (Bool.or_false _)
    | definitions c entries =>
      obtain ⟨_, l₁, _, h⟩ := bind_ok.1 h
      obtain ⟨hpair, _⟩ := pure_ok.1 h
      cases hpair
      exact Prod.ext rfl (Bool.or_false _)
    | combinator c branches =>
      obtain ⟨hmarked, rfl⟩ := takeRoot_next (k := .combinator c branches) hs h
      exact Prod.ext hmarked.symm (Bool.or_true _)
    | properties entries =>
      obtain ⟨hmarked, rfl⟩ := takeRoot_next (k := .properties entries) hs h
      exact Prod.ext hmarked.symm (Bool.or_true _)
    | _ => cases hd

theorem goes_takeRoot (hs : RootState source w built) (hns : Declares source l) :
    Goes source (if built then [] else rootVisits source)
      (if built then pure (w.mark k.kind, true)
        else do return (← buildRoot source (w.mark k.kind), true) : Conversion (WorkList × Bool))
      l := by
  cases hb : built with
  | true => exact goes_pure _ l
  | false =>
    have hfresh : (w.mark k.kind).items = source.schema.keywords := hs.fresh hb
    exact (goes_buildRoot hfresh hns).last fun _ m _ => goes_pure _ m

theorem goes_dispatch (hs : RootState source w built) (hk : k ∈ source.schema.keywords)
    (hns : Declares source l) :
    Goes source (stepVisits source w.marked built k) (dispatch source w built k) l := by
  by_cases hpass : k.kind ∈ w.marked ∨ k.kind.isDispatched = false
  · have hpure : dispatch source w built k = pure (w, built) := funext fun _ => dispatch_pass hpass
    rw [hpure, stepVisits_pass hpass]
    exact goes_pure _ l
  · rw [not_or, Bool.not_eq_false] at hpass
    obtain ⟨hm, hd⟩ := hpass
    unfold dispatch stepVisits
    rw [if_pos (hs.pending hk hd hm), if_neg hm]
    cases k with
    | info entries =>
      refine .after_lift (documentationOf_refuses fun e he => ?_) fun a _ => ?_
      · exact .entry hk (List.mem_map_of_mem he)
      · exact (goes_addItem _ l).last fun _ m _ => goes_pure _ m
    | definitions c entries =>
      exact (goes_defineEach hk (fun _ he => he) hns).last fun _ m _ => goes_pure _ m
    | combinator c branches => exact goes_takeRoot (k := .combinator c branches) hs hns
    | properties entries => exact goes_takeRoot (k := .properties entries) hs hns
    | _ => cases hd

theorem goes_finishRoot (hs : RootState source w built) (hns : Declares source l) :
    Goes source (if built then [] else rootVisits source) (finishRoot source w built) l := by
  unfold finishRoot
  cases hb : built with
  | true => exact goes_pure _ l
  | false =>
    split
    · rename_i hfalse
      cases hfalse
    · split
      · exact goes_buildRoot (hs.fresh hb) hns
      · exact goes_stop (refused_root _) _ _

/-- **The keywords of the root, and a step after them that builds the root if it is not there**, by
induction on the keywords that are left. -/
theorem goes_dispatchEach {ks : List Keyword} {f : WorkList × Bool → Conversion β}
    (hf : ∀ {w : WorkList} {built : Bool} {l : Ledger}, RootState source w built →
      Declares source l →
      Goes source (if built then [] else rootVisits source) (f (w, built)) l)
    (hs : RootState source w built) (hks : ∀ k ∈ ks, k ∈ source.schema.keywords)
    (hns : Declares source l) :
    Goes source (keywordVisits source w.marked built ks) (dispatchEach source w built ks >>= f)
      l := by
  induction ks generalizing w built l with
  | nil => exact hf hs hns
  | cons k rest ih =>
    obtain ⟨hk, hrest⟩ := List.forall_mem_cons.1 hks
    rw [dispatchEach, bind_assoc, keywordVisits]
    refine (goes_dispatch hs hk hns).bind fun pair m hm => ?_
    obtain ⟨hs', new, hdoc, _⟩ := dispatch_ok hs hk hm
    rw [dispatch_next hs hk hm]
    refine ih hs' hrest ?_
    rw [Declares, hdoc, Document.namespaceOf?_addItems]
    exact hns

/-- **A conversion goes through the visits** that its keywords and its root take. -/
theorem run_goes (source : Source) (l : Ledger) :
    Goes source (runVisits source) (run source) l := by
  unfold run
  refine Goes.bind (goes_applyEach (fun _ => spot_declaredAttribute) l) fun _ m _ => ?_
  refine Goes.bind (goes_advance _ m) fun _ m _ => ?_
  refine Goes.bind (goes_applyNamespaces source m) fun _ m hm => ?_
  have hns := declares_applyNamespaces hm
  refine .after_update ⟨rfl, by simp⟩ (.after_update ⟨rfl, by simp⟩ ?_)
  refine goes_dispatchEach (fun hs hns => ?_) (rootState_rootWorkList source) (fun _ hk => hk) hns
  refine (goes_finishRoot hs hns).last fun w m _ => .after_update ⟨rfl, by simp⟩ ?_
  exact goes_checkDrained (spot_root source.schema) w _

end Conversion

/-! ## Whole conversions -/

/-- The visits that a list of events tells of. -/
def visitsOfLog (log : List Event) : List Visit := log.filterMap Event.visit?

/-- What a traced conversion ends with: a document after the whole plan, or a problem within it. -/
theorem traced_cases (source : Source) :
    (∃ d, (traced source).1 = .ok d ∧ visitsOfLog (traced source).2 = runVisits source) ∨
      ∃ e l l', (traced source).1 = .error e ∧ Halts source (runVisits source) l l' e ∧
        l.visited = [] ∧ l.visits = [] ∧ visitsOfLog (traced source).2 = l'.visits := by
  simp only [traced, Converter.convert, Converter.stage, if_true]
  generalize hl : ({ log := [_] } : Ledger) = l
  have hvisited : l.visited = [] := by rw [← hl]
  have hvisits : l.visits = [] := by rw [← hl]; rfl
  have hgoes := run_goes source l
  rcases hr : run source l with ⟨outcome, l'⟩
  cases outcome with
  | ok u =>
    have hp := (hgoes.ok u l' hr).visits
    rw [hvisits, List.nil_append] at hp
    exact .inl ⟨_, rfl, by rw [← hp, ← Ledger.visits_advance l' .done]; rfl⟩
  | error e =>
    refine .inr ⟨e, l, l', rfl, hgoes.error e l' hr, hvisited, hvisits, ?_⟩
    have hsame : ((l'.advance .failed).emit (.stopped e)).visits = l'.visits := by
      simp [Event.visit?]
    exact hsame

section

variable {j : Json} {classifier : Classifier} {options : Options} {e : Problem} {s : Schema}

/-- How a conversion fails: as the document is read, or within the plan of its schema. -/
theorem convertJson_error (h : convertJson j classifier options = .error e) :
    Refused (Within .root j) e ∨ ∃ s l l', Schema.ofJson? j = .ok s ∧ l.visited = [] ∧
      Halts ⟨s, classifier, options⟩ (runVisits ⟨s, classifier, options⟩) l l' e := by
  unfold convertJson tracedJson at h
  cases hs : Schema.ofJson? j with
  | error e' =>
    rw [hs] at h
    cases h
    exact .inl (Schema.readAt_refuses .root j e hs)
  | ok s =>
    rw [hs] at h
    rcases traced_cases ⟨s, classifier, options⟩ with ⟨d, hd, _⟩ | ⟨_, l, l', he, hhalts, hv, _⟩
    · cases hd.symm.trans h
    · cases he.symm.trans h
      exact .inr ⟨s, l, l', rfl, hv, hhalts⟩

/-- A conversion that succeeds makes all the visits of the plan. -/
theorem visitsOfLog_of_ok (hs : Schema.ofJson? j = .ok s) {d : Document}
    (h : convertJson j classifier options = .ok d) :
    visitsOfLog (tracedJson j classifier options).2 = runVisits ⟨s, classifier, options⟩ := by
  unfold convertJson at h
  unfold tracedJson at h ⊢
  rw [hs] at h ⊢
  rcases traced_cases ⟨s, classifier, options⟩ with ⟨_, _, hlog⟩ | ⟨_, _, _, he, _⟩
  · exact hlog
  · cases he.symm.trans h

/-- Whether a conversion succeeds or not, it makes the first visits of the plan. -/
theorem visitsOfLog_initial (hs : Schema.ofJson? j = .ok s) (classifier : Classifier)
    (options : Options) :
    visitsOfLog (tracedJson j classifier options).2 <+: runVisits ⟨s, classifier, options⟩ := by
  unfold tracedJson
  rw [hs]
  rcases traced_cases ⟨s, classifier, options⟩ with
    ⟨_, _, hlog⟩ | ⟨_, _, _, _, hhalts, _, hvisits, hlog⟩
  · exact hlog ▸ List.prefix_refl _
  · obtain ⟨done, hdone, hl'⟩ := hhalts.visits
    rw [hvisits, List.nil_append] at hl'
    rw [hlog, hl']
    exact hdone

/-- A place that is too deep is that of a subschema at the first depth beyond the limit. -/
theorem liesAt_of_tooDeep {p : Pointer} {limit : Nat}
    (h : convertJson j classifier options = .error (.tooDeep p limit)) :
    limit = options.maxDepth ∧ ∃ s t, Schema.ofJson? j = .ok s ∧ LiesAt s (limit + 1) p t := by
  rcases convertJson_error h with hread | ⟨s, l, l', hs, _, hhalts⟩
  · cases hread.walk
  · obtain ⟨hlimit, t, ht⟩ := hhalts.deep p limit rfl
    exact ⟨hlimit, s, t, hs, ht⟩

/-- The place of a problem is a place of the document. -/
theorem problem_stands {p : Pointer} (h : convertJson j classifier options = .error e)
    (hp : e.place? = some p) : ∃ u, j.At p.segments u := by
  rcases convertJson_error h with hread | ⟨s, l, l', hs, _, hhalts⟩
  · obtain ⟨path, u, rfl, hat⟩ := hread.place p hp
    exact ⟨u, hat⟩
  · exact (hhalts.spot p hp).stands hs

end

/-- **Every error path leads to a value of the input.** If a value is not converted and the report
has a path, that path is the text of the pointer it denotes, and walking the value along the
segments of the pointer, by the names of members and the decimal indices of items, ends at a value.
-/
theorem error_path_stands {j : Json} (hj : j.Distinct) {classifier : Classifier}
    {options : Options} {e : Problem} {path : String}
    (h : convertJson j classifier options = .error e) (hpath : e.report.path? = some path) :
    ∃ p value, Pointer.ofText? path = some p ∧ p.text = path ∧ j.at? p.segments = some value := by
  rw [Problem.path?_report] at hpath
  obtain ⟨p, hp, rfl⟩ := Option.map_eq_some_iff.1 hpath
  obtain ⟨u, hu⟩ := problem_stands h hp
  exact ⟨p, u, p.ofText?_of_text, rfl, hu.at? hj⟩

/-- A property whose name holds both characters that pointers escape. -/
def slashedSchema : Json := .obj [("properties", .obj [("a/b~", .obj [])])]

theorem error_path_stands_escaped :
    slashedSchema.Distinct ∧ ∃ e, convertJson slashedSchema complexRoot {} = .error e ∧
      e.report.path? = some "#/properties/a~1b~0" ∧
      ∃ p value, Pointer.ofText? "#/properties/a~1b~0" = some p ∧
        p.text = "#/properties/a~1b~0" ∧ slashedSchema.at? p.segments = some value := by
  have hdistinct : slashedSchema.Distinct := Json.distinct_of_merged (by rfl)
  have hrun : convertJson slashedSchema complexRoot {} =
      .error (.fault (propertyPlace .root "a/b~") (.invalidName "a/b~")) := by rfl
  exact ⟨hdistinct, _, hrun, by rfl, error_path_stands hdistinct hrun (by rfl)⟩

end XsdSynthesis
