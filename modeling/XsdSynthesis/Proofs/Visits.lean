import XsdSynthesis.Proofs.Whereabouts

/-!
# XsdSynthesis.Proofs.Visits

Which places synthesis enters, in which order, and how it fails. The places to be entered for a
subschema are listed in advance by `preorder`: the subschema first, then what its properties need,
if it is of complex shape. `Goes` says of a step that it enters the places of a plan in order: all
of them if it ends with a value, and the first few if it fails. It also says what a failure tells:
the problem lies at a `Spot` of the schema, a place that is too deep is just below the limit, and a
place visited twice is twice in the plan. Steps in a row go through their plans one after the other
(`Goes.bind`), so synthesis goes through `preorder` (`goes_synthesize`), and with it definitions and
the root.
-/

namespace XsdSynthesis

open Xsd Conversion

/-! ## Places by their depth -/

/-- A subschema stands at a place of a depth: the root is at depth 0, a definition at depth 1, and a
property one below the subschema it belongs to. -/
inductive LiesAt (s : Schema) : Nat → Pointer → Schema → Prop where
  | root : LiesAt s 0 .root s
  | definition {c : Container} {entries : List (String × Schema)} {name : String} {t : Schema} :
      .definitions c entries ∈ s.keywords → (name, t) ∈ entries →
      LiesAt s 1 (definitionPlace c name) t
  | property {depth : Nat} {p : Pointer} {t u : Schema} {entries : List (String × Schema)}
      {name : String} : LiesAt s depth p t → .properties entries ∈ t.keywords →
      (name, u) ∈ entries → LiesAt s (depth + 1) (propertyPlace p name) u

theorem LiesAt.position {s t : Schema} {depth : Nat} {p : Pointer} (h : LiesAt s depth p t) :
    Position s p t := by
  induction h with
  | root => exact .root
  | definition hk he => exact .definition hk he
  | property _ hk he ih => exact .property ih hk he

/-- Each step of depth takes two segments. -/
theorem LiesAt.length {s t : Schema} {depth : Nat} {p : Pointer} (h : LiesAt s depth p t) :
    p.segments.length = 2 * depth := by
  induction h with
  | root => rfl
  | definition _ _ => rfl
  | property _ _ _ ih =>
    rw [propertyPlace, Pointer.segments_append, List.length_append, ih]
    simp only [List.length_cons, List.length_nil]
    omega

/-! ## Plans -/

/-- A place entered at a depth. -/
abbrev Visit := Pointer × Nat

mutual

/-- The visits that the subschema at a place takes: its own, and if it is of complex shape those of
its properties, in order. -/
def preorder (classifier : Classifier) (place : Pointer) (depth : Nat) : Schema → List Visit
  | .mk keywords =>
    (place, depth) ::
      if (classifier.shapes place).isComplex then preorderBelow classifier place depth keywords
      else []

/-- The visits that the first `properties` among keywords takes. -/
def preorderBelow (classifier : Classifier) (place : Pointer) (depth : Nat) :
    List Keyword → List Visit
  | [] => []
  | .properties entries :: _ =>
    preorderEach classifier (propertyPlace place) (depth + 1) entries
  | _ :: rest => preorderBelow classifier place depth rest

/-- The visits that subschemas take whose places come from their names. -/
def preorderEach (classifier : Classifier) (place : String → Pointer) (depth : Nat) :
    List (String × Schema) → List Visit
  | [] => []
  | (name, schema) :: rest =>
    preorder classifier (place name) depth schema ++ preorderEach classifier place depth rest

end

theorem preorder_eq (classifier : Classifier) (place : Pointer) (depth : Nat) (t : Schema) :
    preorder classifier place depth t =
      (place, depth) ::
        if (classifier.shapes place).isComplex then
          preorderBelow classifier place depth t.keywords
        else [] := by
  cases t
  rw [preorder, Schema.keywords_mk]

theorem preorderBelow_cons {k : Keyword} (h : k.kind ≠ .properties) (classifier : Classifier)
    (place : Pointer) (depth : Nat) (rest : List Keyword) :
    preorderBelow classifier place depth (k :: rest) =
      preorderBelow classifier place depth rest := by
  cases k with
  | properties entries => exact absurd rfl h
  | _ => rw [preorderBelow]; simp

/-- The visits that the root takes: none, unless it is inline. -/
def rootVisits (source : Source) : List Visit :=
  if source.classifier.inlineRoot then preorder source.classifier .root 0 source.schema else []

/-! ## Steps that go through a plan -/

/-- The visit that an event tells of. -/
def Event.visit? : Event → Option Visit
  | .entered place depth => some (place, depth)
  | _ => none

/-- The visits that a log tells of. -/
def Ledger.visits (l : Ledger) : List Visit := l.log.filterMap Event.visit?

namespace Ledger

@[simp] theorem visits_emit (l : Ledger) (event : Event) :
    (l.emit event).visits = l.visits ++ event.visit?.toList := by
  rw [visits, emit, List.filterMap_append]
  cases h : event.visit? <;> simp [visits, h]

@[simp] theorem visits_advance (l : Ledger) (next : Stage) :
    (l.advance next).visits = l.visits := by
  rw [visits, advance, List.filterMap_append]
  simp [visits, Event.visit?]

@[simp] theorem visits_addItem (l : Ledger) (item : Item) :
    (l.addItem item).visits = l.visits := rfl

end Ledger

namespace Conversion

/-- The second ledger has just the planned visits more than the first. -/
structure Proceeds (plan : List Visit) (l l' : Ledger) : Prop where
  visited : l'.visited = (plan.map Prod.fst).reverse ++ l.visited
  visits : l'.visits = l.visits ++ plan

/-- What a failure tells of a step that was to go through a plan. -/
structure Halts (source : Source) (plan : List Visit) (l l' : Ledger) (e : Problem) : Prop where
  visits : ∃ done, done <+: plan ∧ l'.visits = l.visits ++ done
  spot : ∀ p, e.place? = some p → Spot source.schema p
  deep : ∀ p limit, e = .tooDeep p limit →
    limit = source.options.maxDepth ∧ ∃ t, LiesAt source.schema (limit + 1) p t
  twice : ∀ p, e = .fault p .visitedTwice → ¬ (l.visited.reverse ++ plan.map Prod.fst).Nodup

/-- A step goes through a plan of visits, all the way or until it fails. -/
structure Goes {α : Type} (source : Source) (plan : List Visit) (x : Conversion α) (l : Ledger) :
    Prop where
  ok : ∀ a l', x l = (.ok a, l') → Proceeds plan l l'
  error : ∀ e l', x l = (.error e, l') → Halts source plan l l' e

variable {α β : Type} {source : Source} {plan plan' : List Visit} {l l' l'' : Ledger}
  {x : Conversion α} {f : α → Conversion β} {g : Unit → Conversion β} {e : Problem}

theorem proceeds_refl (l : Ledger) : Proceeds [] l l := ⟨rfl, by simp⟩

theorem Proceeds.trans (h : Proceeds plan l l') (h' : Proceeds plan' l' l'') :
    Proceeds (plan ++ plan') l l'' := by
  refine ⟨?_, ?_⟩
  · rw [h'.visited, h.visited]
    simp
  · rw [h'.visits, h.visits, List.append_assoc]

/-- A failure in the first part of a plan is one of the plan. -/
theorem Halts.before (h : Halts source plan l l' e) (plan' : List Visit) :
    Halts source (plan ++ plan') l l' e := by
  refine ⟨?_, h.spot, h.deep, fun p he hn => h.twice p he (hn.sublist ?_)⟩
  · obtain ⟨done, hdone, hvisits⟩ := h.visits
    exact ⟨done, hdone.trans (List.prefix_append _ _), hvisits⟩
  · rw [List.map_append, ← List.append_assoc]
    exact List.sublist_append_left _ _

theorem Proceeds.halts (h : Proceeds plan l l') (h' : Halts source plan' l' l'' e) :
    Halts source (plan ++ plan') l l'' e := by
  refine ⟨?_, h'.spot, h'.deep, fun p he hn => h'.twice p he ?_⟩
  · obtain ⟨done, hdone, hvisits⟩ := h'.visits
    refine ⟨plan ++ done, (List.prefix_append_right_inj plan).2 hdone, ?_⟩
    rw [hvisits, h.visits, List.append_assoc]
  · rw [h.visited]
    simpa using hn

/-- Steps in a row go through their plans one after the other. -/
theorem Goes.bind (hx : Goes source plan x l)
    (hf : ∀ a m, x l = (.ok a, m) → Goes source plan' (f a) m) :
    Goes source (plan ++ plan') (x >>= f) l := by
  refine ⟨fun b l' h => ?_, fun e l' h => ?_⟩
  · obtain ⟨a, m, ha, h⟩ := bind_ok.1 h
    exact (hx.ok a m ha).trans ((hf a m ha).ok b l' h)
  · rcases bind_error.1 h with h | ⟨a, m, ha, h⟩
    · exact (hx.error e l' h).before plan'
    · exact (hx.ok a m ha).halts ((hf a m ha).error e l' h)

/-- A step after which nothing is entered. -/
theorem Goes.last (hx : Goes source plan x l)
    (hf : ∀ a m, x l = (.ok a, m) → Goes source [] (f a) m) : Goes source plan (x >>= f) l := by
  have h := hx.bind hf
  rwa [List.append_nil] at h

theorem goes_pure (a : α) (l : Ledger) : Goes source [] (pure a) l := by
  refine ⟨fun b l' h => ?_, fun e l' h => ?_⟩
  · obtain ⟨_, rfl⟩ := pure_ok.1 h
    exact proceeds_refl l
  · rw [pure_apply] at h
    cases h

theorem goes_stop (h : Refused (Spot source.schema) e) (plan : List Visit) (l : Ledger) :
    Goes source plan (stop e : Conversion α) l := by
  refine ⟨fun a l' hs => absurd hs stop_ok, ?_⟩
  rintro _ _ ⟨⟩
  refine ⟨⟨[], List.nil_prefix, by simp⟩, h.place, ?_, ?_⟩
  · rintro p limit rfl
    cases h.walk
  · rintro p rfl
    cases h.walk

theorem goes_update {change : Ledger → Ledger} (h : Proceeds plan l (change l)) :
    Goes source plan (update change) l := by
  refine ⟨fun u l' hu => ?_, fun e l' hu => ?_⟩
  · cases hu
    exact h
  · rw [update] at hu
    cases hu

theorem goes_emit {event : Event} (h : event.visit? = none) (l : Ledger) :
    Goes source [] (emit event) l :=
  goes_update ⟨rfl, by simp [h]⟩

theorem goes_addItem (item : Item) (l : Ledger) : Goes source [] (addItem item) l :=
  goes_update ⟨rfl, by simp⟩

theorem goes_amend (change : Document → Document) (l : Ledger) :
    Goes source [] (amend change) l :=
  goes_update ⟨rfl, by simp [Ledger.visits]⟩

theorem goes_advance (next : Stage) (l : Ledger) : Goes source [] (advance next) l :=
  goes_update ⟨rfl, by simp⟩

/-- A step without state before the rest of a plan. -/
theorem Goes.after_lift {x : Except Problem α} (hx : RefusesAt (Spot source.schema) x)
    (hf : ∀ a, x = .ok a → Goes source plan (f a) l) :
    Goes source plan ((liftM x : Conversion α) >>= f) l := by
  cases x with
  | ok a => exact hf a rfl
  | error e => exact goes_stop (hx e rfl) plan l

theorem Goes.after_update {change : Ledger → Ledger} (hc : Proceeds [] l (change l))
    (hg : Goes source plan (g ()) (change l)) : Goes source plan (update change >>= g) l := by
  refine (goes_update hc).bind fun _ m hm => ?_
  cases hm
  exact hg

/-- Leftovers are refused where they stand, not for depth and not for a second visit. -/
theorem goes_checkDrained {place : Pointer} (hp : Spot source.schema place) (w : WorkList)
    (l : Ledger) : Goes source [] (liftM (checkDrained place w) : Conversion Unit) l := by
  unfold checkDrained
  split
  · exact goes_pure () l
  · refine ⟨nofun, ?_⟩
    rintro _ _ ⟨⟩
    refine ⟨⟨[], List.nil_prefix, by simp⟩, ?_, nofun, nofun⟩
    rintro _ ⟨⟩
    exact hp

theorem goes_ledger {f : Ledger → Conversion β} (h : Goes source plan (f l) l) :
    Goes source plan (ledger >>= f) l := ⟨h.ok, h.error⟩

theorem goes_defaultNamespace {f : Option String → Conversion β}
    (h : Goes source plan (f (l.document.namespaceOf? "")) l) :
    Goes source plan (defaultNamespace >>= f) l := ⟨h.ok, h.error⟩

/-! ## Synthesis -/

theorem enter_ok {place : Pointer} {depth : Nat} {u : Unit} :
    enter source place depth l = (.ok u, l') ↔
      depth ≤ source.options.maxDepth ∧ place ∉ l.visited ∧ l' = entered l place depth := by
  rw [← bind_pure (enter source place depth), bind_enter_ok, pure_ok]
  simp [eq_comm]

theorem goes_enter {place : Pointer} {depth : Nat} {t : Schema}
    (ht : LiesAt source.schema depth place t) (hd : depth ≤ source.options.maxDepth + 1)
    (l : Ledger) : Goes source [(place, depth)] (enter source place depth) l := by
  refine ⟨fun u l' h => ?_, fun e l' h => ?_⟩
  · obtain ⟨_, _, rfl⟩ := enter_ok.1 h
    exact ⟨rfl, by simp [entered, Ledger.visits, Ledger.emit, Event.visit?]⟩
  · have hspot : ∀ p, some place = some p → Spot source.schema p := by
      rintro _ ⟨⟩
      exact .node ht.position
    unfold enter at h
    split at h
    · rename_i hdeep
      cases h
      refine ⟨⟨[], List.nil_prefix, by simp⟩, hspot, ?_, by rintro _ ⟨⟩⟩
      rintro _ _ ⟨⟩
      have heq : source.options.maxDepth + 1 = depth := by omega
      exact ⟨rfl, t, heq ▸ ht⟩
    · rcases bind_error.1 h with h | ⟨m, _, hm, h⟩
      · cases h
      · cases hm
        split at h
        · rename_i hvisited
          cases h
          refine ⟨⟨[], List.nil_prefix, by simp⟩, hspot, by rintro _ _ ⟨⟩, ?_⟩
          rintro _ ⟨⟩ hn
          have hm : place ∈ l.visited := by simpa using hvisited
          exact (List.nodup_append.1 hn).2.2 place (List.mem_reverse.2 hm) place (by simp) rfl
        · cases h

theorem Goes.after_enter {place : Pointer} {depth : Nat} {t : Schema}
    (ht : LiesAt source.schema depth place t) (hd : depth ≤ source.options.maxDepth + 1)
    (hg : depth ≤ source.options.maxDepth → Goes source plan (g ()) (entered l place depth)) :
    Goes source ((place, depth) :: plan) (enter source place depth >>= g) l := by
  refine (goes_enter ht hd l).bind fun _ m hm => ?_
  obtain ⟨hle, _, rfl⟩ := enter_ok.1 hm
  exact hg hle

/-- The place of the declared namespaces is a spot if the default namespace is bound. -/
def Declares (source : Source) (l : Ledger) : Prop :=
  l.document.namespaceOf? "" ≠ none → Spot source.schema namespacesPlace

theorem Declares.congr (h : Declares source l) (hdoc : l'.document = l.document) :
    Declares source l' := by
  rw [Declares, hdoc]
  exact h

theorem spot_required {p : Pointer} {s t : Schema} (ht : Position s p t)
    (h : t.requiredNames ≠ []) : Spot s (p.child "required") := by
  unfold Schema.requiredNames at h
  split at h
  · rename_i names hg
    exact .keyword ht (mem_of_get? hg).1
  · exact absurd rfl h

theorem spot_pulledRequired {p : Pointer} {s t : Schema} {w : WorkList} (ht : Position s p t)
    (hw : ∀ kind, kind ≠ .asAttribute → w.Offers t kind)
    (h : w.pullTypes.2.pullRequired.1.getD [] ≠ []) : Spot s (p.child "required") :=
  spot_required ht (pullRequired_of_pullTypes hw ▸ h)

mutual

/-- **Synthesis goes through the pre-order** of the subschema. -/
theorem goes_synthesize {place : Pointer} {depth : Nat} {l : Ledger} :
    ∀ {t : Schema}, LiesAt source.schema depth place t → depth ≤ source.options.maxDepth + 1 →
      Declares source l →
      Goes source (preorder source.classifier place depth t) (synthesize source place depth t) l
  | .mk keywords, ht, hd, hns => by
    have hspot : Spot source.schema place := .node ht.position
    obtain ⟨ha, hf⟩ :=
      WorkList.pullAsAttribute_getD (nested_offers (.mk keywords) .asAttribute)
    rw [← flaglessWorkList] at hf
    simp only [synthesize, preorder, nestedWorkList_mk, ha, hf]
    have hentered : Declares source (entered l place depth) := hns
    refine .after_enter ht hd fun hle => ?_
    by_cases hshape : (source.classifier.shapes place).isComplex = true
    · rw [if_pos hshape, if_pos hshape]
      split
      · exact goes_stop (refused_at rfl rfl hspot) _ _
      · refine .after_lift (openComplex_refuses hspot (spot_pulledRequired ht.position
          fun kind hk => flagless_offers (.mk keywords) hk) _) fun opened _ => ?_
        refine (goes_membersOf ht (fun _ hk => hk) hle hentered).last fun _ _ _ => ?_
        exact (goes_checkDrained hspot _ _).last fun _ _ _ => goes_pure _ _
    · rw [if_neg hshape, if_neg hshape]
      split
      · refine goes_defaultNamespace ?_
        refine .after_lift (simpleTypeName_refuses hspot hns _ _) fun named _ => ?_
        exact (goes_checkDrained hspot _ _).last fun _ _ _ => goes_pure _ _
      · exact goes_stop (refused_at rfl rfl hspot) _ _

theorem goes_membersOf {place : Pointer} {depth : Nat} {t : Schema} {l : Ledger}
    {required : List String} :
    ∀ {keywords : List Keyword}, LiesAt source.schema depth place t →
      (∀ k ∈ keywords, k ∈ t.keywords) → depth ≤ source.options.maxDepth → Declares source l →
      Goes source (preorderBelow source.classifier place depth keywords)
        (membersOf source place depth required keywords) l
  | [], _, _, _, _ => by
    simp only [membersOf, preorderBelow]
    exact goes_pure _ _
  | k :: rest, ht, hk, hd, hns => by
    cases k with
    | properties entries =>
      simp only [membersOf, preorderBelow]
      exact goes_entriesOf ht (hk _ List.mem_cons_self) (fun _ he => he) hd hns
    | _ =>
      rw [membersOf_cons (by simp [Keyword.kind]), preorderBelow_cons (by simp [Keyword.kind])]
      exact goes_membersOf ht (List.forall_mem_cons.1 hk).2 hd hns

theorem goes_entriesOf {place : Pointer} {depth : Nat} {t : Schema} {l : Ledger}
    {required : List String} {all : List (String × Schema)} :
    ∀ {entries : List (String × Schema)}, LiesAt source.schema depth place t →
      .properties all ∈ t.keywords → (∀ e ∈ entries, e ∈ all) →
      depth ≤ source.options.maxDepth → Declares source l →
      Goes source (preorderEach source.classifier (propertyPlace place) (depth + 1) entries)
        (entriesOf source place depth required entries) l
  | [], _, _, _, _, _ => by
    simp only [entriesOf, preorderEach]
    exact goes_pure _ _
  | (name, u) :: rest, ht, hk, he, hd, hns => by
    obtain ⟨hu, hrest⟩ := List.forall_mem_cons.1 he
    have hchild := LiesAt.property ht hk hu
    simp only [entriesOf, preorderEach]
    refine .after_lift (checkName_refuses (.node hchild.position) name) fun _ _ => ?_
    refine (goes_synthesize hchild (by omega) hns).bind fun made m hm => ?_
    have hdoc := (synthesize_ok hm).2
    exact (goes_entriesOf ht hk hrest hd (hns.congr hdoc)).last fun _ _ _ => goes_pure _ _

end

/-! ## Definitions -/

variable {c : Container} {name : String} {t : Schema} {entries all : List (String × Schema)}

theorem goes_define (hk : .definitions c all ∈ source.schema.keywords) (ht : (name, t) ∈ all)
    (hns : Declares source l) :
    Goes source (preorder source.classifier (definitionPlace c name) 1 t)
      (define source c name t) l := by
  have hlies : LiesAt source.schema 1 (definitionPlace c name) t := .definition hk ht
  have hspot : Spot source.schema (definitionPlace c name) := .node hlies.position
  refine .after_lift (checkName_refuses hspot name) fun _ _ => ?_
  refine goes_ledger ?_
  split
  · exact goes_stop (refused_at rfl rfl hspot) _ _
  · refine (goes_synthesize hlies (by omega) hns).last fun made m _ => ?_
    split
    · exact goes_stop (refused_at rfl rfl hspot) _ _
    · refine goes_defaultNamespace ?_
      refine .after_lift (definitionItem_refuses hspot source name made.node) fun item _ => ?_
      exact (goes_emit rfl m).last fun _ m _ => goes_addItem item m

/-- Definitions go through their pre-orders, by induction on those that are left. -/
theorem goes_defineEach (hk : .definitions c all ∈ source.schema.keywords)
    (he : ∀ e ∈ entries, e ∈ all) (hns : Declares source l) :
    Goes source (preorderEach source.classifier (definitionPlace c) 1 entries)
      (defineEach source c entries) l := by
  induction entries generalizing l with
  | nil =>
    simp only [defineEach, preorderEach]
    exact goes_pure _ _
  | cons first rest ih =>
    obtain ⟨name, t⟩ := first
    obtain ⟨ht, hrest⟩ := List.forall_mem_cons.1 he
    simp only [defineEach, preorderEach]
    refine (goes_define hk ht hns).bind fun _ m hm => ih hrest ?_
    obtain ⟨item, _, _, hdoc⟩ := define_ok hm
    rw [Declares, hdoc, Document.namespaceOf?_addItems]
    exact hns

/-! ## The root -/

variable {w : WorkList}

theorem spot_root (s : Schema) : Spot s .root := .node .root

theorem goes_inlineRoot (hw : w.items = source.schema.keywords) (hns : Declares source l) :
    Goes source (preorder source.classifier .root 0 source.schema) (inlineRoot source w) l := by
  have hspot := spot_root source.schema
  cases hc : source.schema.combinators with
  | cons first rest =>
    simp only [inlineRoot, hc]
    exact goes_stop (refused_at rfl rfl hspot) _ _
  | nil =>
    simp only [inlineRoot, hc, preorder_eq]
    have hentered : Declares source (entered l .root 0) := hns
    refine .after_enter .root (by omega) fun hle => ?_
    by_cases hshape : (source.classifier.shapes .root).isComplex = true
    · rw [if_pos hshape, if_pos hshape]
      refine .after_lift (openComplex_refuses hspot (spot_pulledRequired .root
        fun kind _ => WorkList.offers_of_items hw kind) _) fun opened _ => ?_
      exact (goes_membersOf .root (fun _ hk => hk) hle hentered).last fun _ _ _ => goes_pure _ _
    · rw [if_neg hshape, if_neg hshape]
      split
      · refine goes_defaultNamespace ?_
        exact .after_lift (simpleTypeName_refuses hspot hns _ _) fun _ _ => goes_pure _ _
      · exact goes_stop (refused_root _) _ _

theorem spot_branch {s branch : Schema} {c : Combinator} (h : s.combinators = [(c, [branch])]) :
    Spot s (Pointer.root.append [c.name, "0"]) := by
  have hm : (c, [branch]) ∈ s.combinators := h ▸ List.mem_cons_self
  obtain ⟨k, hk, hc⟩ := List.mem_filterMap.1 hm
  cases k with
  | combinator c' branches =>
    cases hc
    exact .entry hk List.mem_cons_self
  | _ => cases hc

theorem goes_wrappedRoot (hns : Declares source l) : Goes source [] (wrappedRoot source) l := by
  refine goes_defaultNamespace ?_
  exact .after_lift (wrappedTypeName_refuses (fun _ _ => spot_branch) hns) fun _ _ => goes_pure _ _

theorem goes_buildRoot (hw : w.items = source.schema.keywords) (hns : Declares source l) :
    Goes source (rootVisits source) (buildRoot source w) l := by
  refine .after_lift (checkName_refuses (spot_root source.schema) _) fun _ _ => ?_
  have hrest : ∀ (e : Element) (w' : WorkList) (m : Ledger), Goes source []
      (do emit (.rootElement e.name); addItem (.element e); return w' : Conversion WorkList) m := by
    intro e w' m
    refine (goes_emit rfl m).last fun _ m _ => ?_
    exact (goes_addItem _ m).last fun _ m _ => goes_pure _ m
  dsimp only
  rw [rootVisits]
  split
  · exact (goes_inlineRoot hw hns).last fun built m _ => hrest built.1 built.2 m
  · rw [map_eq_pure_bind, bind_assoc]
    exact (goes_wrappedRoot hns).last fun e m _ => hrest e w m

end Conversion
end XsdSynthesis
