import XsdSynthesis.Proofs.KeyOrder
import XsdSynthesis.Proofs.Trace

/-!
# XsdSynthesis.Proofs.VisitOrder

Each subschema is visited once. The visits of a subschema lie beneath its place (`beneath_of_mem`),
and distinct names lead to places apart, so no place is twice in a plan (`keywordVisits_nodup`), and
the guard against a second visit never stops a conversion. Once a conversion succeeds, its plan is
`documentVisits`: the visits of each keyword of the root, in source order, and of the root where its
`properties` stand (`visits_once`).
-/

namespace XsdSynthesis

open Xsd Conversion

variable {classifier : Classifier} {source : Source}

/-! ## Visits of a subschema -/

/-- A visit lies at or below a place, and its depth grows with the segments, two at a time. -/
structure Beneath (p : Pointer) (depth : Nat) (v : Visit) : Prop where
  place : p.segments <+: v.1.segments
  depth : v.1.segments.length + 2 * depth = p.segments.length + 2 * v.2

theorem beneath_self (p : Pointer) (depth : Nat) : Beneath p depth (p, depth) :=
  ⟨List.prefix_refl _, rfl⟩

theorem Beneath.parent {p : Pointer} {name : String} {depth : Nat} {v : Visit}
    (h : Beneath (propertyPlace p name) (depth + 1) v) : Beneath p depth v := by
  have hlength := h.depth
  rw [propertyPlace, Pointer.segments_append, List.length_append] at hlength
  simp only [List.length_cons, List.length_nil] at hlength
  exact ⟨(List.prefix_append _ _).trans h.place, by omega⟩

/-- A place does not lie beneath one of its properties. -/
theorem Beneath.ne {p : Pointer} {name : String} {depth : Nat} {v : Visit}
    (h : Beneath (propertyPlace p name) depth v) : v.1 ≠ p := by
  rintro rfl
  have hlength := h.place.length_le
  simp only [propertyPlace, Pointer.segments_append, List.length_append, List.length_cons,
    List.length_nil] at hlength
  omega

mutual

theorem beneath_of_mem {p : Pointer} {depth : Nat} {v : Visit} :
    ∀ {t : Schema}, v ∈ preorder classifier p depth t → Beneath p depth v
  | .mk keywords, h => by
    rw [preorder] at h
    rcases List.mem_cons.1 h with rfl | h
    · exact beneath_self p depth
    · split at h
      · obtain ⟨name, hv⟩ := beneath_of_mem_below h
        exact hv.parent
      · cases h

theorem beneath_of_mem_below {p : Pointer} {depth : Nat} {v : Visit} :
    ∀ {keywords : List Keyword}, v ∈ preorderBelow classifier p depth keywords →
      ∃ name, Beneath (propertyPlace p name) (depth + 1) v
  | [], h => by
    rw [preorderBelow] at h
    cases h
  | k :: rest, h => by
    cases k with
    | properties entries =>
      rw [preorderBelow] at h
      obtain ⟨e, _, hv⟩ := beneath_of_mem_each h
      exact ⟨e.1, hv⟩
    | _ =>
      rw [preorderBelow_cons (by simp [Keyword.kind])] at h
      exact beneath_of_mem_below h

theorem beneath_of_mem_each {place : String → Pointer} {depth : Nat} {v : Visit} :
    ∀ {entries : List (String × Schema)}, v ∈ preorderEach classifier place depth entries →
      ∃ e ∈ entries, Beneath (place e.1) depth v
  | [], h => by
    rw [preorderEach] at h
    cases h
  | (name, t) :: rest, h => by
    rw [preorderEach] at h
    rcases List.mem_append.1 h with h | h
    · exact ⟨_, List.mem_cons_self, beneath_of_mem h⟩
    · obtain ⟨e, he, hv⟩ := beneath_of_mem_each h
      exact ⟨e, List.mem_cons_of_mem _ he, hv⟩

end

/-- Names and subschemas of an object that uses no name twice. -/
def EntriesRead (entries : List (String × Schema)) : Prop :=
  (entries.map Prod.fst).Nodup ∧ ∀ e ∈ entries, e.2.IsRead

mutual

/-- **No place is visited twice within a subschema.** -/
theorem preorder_nodup {p : Pointer} {depth : Nat} :
    ∀ {t : Schema}, t.IsRead → ((preorder classifier p depth t).map Prod.fst).Nodup
  | .mk keywords, ht => by
    rw [preorder, List.map_cons, List.nodup_cons]
    split
    · refine ⟨fun hm => ?_, preorderBelow_nodup fun entries hk => ht.properties hk⟩
      obtain ⟨v, hv, hp⟩ := List.mem_map.1 hm
      obtain ⟨name, hbeneath⟩ := beneath_of_mem_below hv
      exact hbeneath.ne hp
    · simp

theorem preorderBelow_nodup {p : Pointer} {depth : Nat} :
    ∀ {keywords : List Keyword},
      (∀ entries, .properties entries ∈ keywords → EntriesRead entries) →
      ((preorderBelow classifier p depth keywords).map Prod.fst).Nodup
  | [], _ => by simp [preorderBelow]
  | k :: rest, h => by
    cases k with
    | properties entries =>
      rw [preorderBelow]
      exact preorderEach_nodup (fun hne _ hr => apart_propertyPlace hne hr)
        (h entries List.mem_cons_self)
    | _ =>
      rw [preorderBelow_cons (by simp [Keyword.kind])]
      exact preorderBelow_nodup fun entries hk => h entries (List.mem_cons_of_mem _ hk)

theorem preorderEach_nodup {place : String → Pointer} {depth : Nat}
    (hplace : ∀ {name other : String}, name ≠ other → ∀ r : List String,
      (place name).segments <+: r → ¬ (place other).segments <+: r) :
    ∀ {entries : List (String × Schema)}, EntriesRead entries →
      ((preorderEach classifier place depth entries).map Prod.fst).Nodup
  | [], _ => by simp [preorderEach]
  | (name, t) :: rest, ⟨hnames, hread⟩ => by
    rw [List.map_cons, List.nodup_cons] at hnames
    obtain ⟨ht, hrest⟩ := List.forall_mem_cons.1 hread
    rw [preorderEach, List.map_append, List.nodup_append]
    refine ⟨preorder_nodup ht, preorderEach_nodup hplace ⟨hnames.2, hrest⟩, ?_⟩
    -- what lies beneath one name does not lie beneath another
    intro q hq q' hq' heq
    obtain ⟨v, hv, rfl⟩ := List.mem_map.1 hq
    obtain ⟨v', hv', rfl⟩ := List.mem_map.1 hq'
    obtain ⟨e, he, hbeneath⟩ := beneath_of_mem_each hv'
    have hne : name ≠ e.1 := by
      rintro rfl
      exact hnames.1 (List.mem_map.2 ⟨e, he, rfl⟩)
    refine hplace hne _ (beneath_of_mem hv).place ?_
    rw [heq]
    exact hbeneath.place

end

/-! ## Visits of the root's keywords -/

theorem beneath_of_mem_rootVisits {v : Visit} (h : v ∈ rootVisits source) : Beneath .root 0 v := by
  unfold rootVisits at h
  split at h
  · exact beneath_of_mem h
  · cases h

/-- The visits of the root are those of its place and of its properties, none where definitions are.
-/
theorem rootVisits_apart {v : Visit} (h : v ∈ rootVisits source) (c : Container) (name : String) :
    ¬ (definitionPlace c name).segments <+: v.1.segments := by
  intro hp
  unfold rootVisits at h
  split at h
  · rw [preorder_eq] at h
    rcases List.mem_cons.1 h with rfl | h
    · simp [definitionPlace, Pointer.root] at hp
    · split at h
      · obtain ⟨other, hv⟩ := beneath_of_mem_below h
        refine Pointer.apart (fun heq => ?_) (by rfl) hp hv.place
        exact name_ne_properties c (List.cons.inj heq).1
      · cases h
  · cases h

/-- Visits of keywords are of the root, if it is not there before, or of definitions under a keyword
that is not marked. -/
theorem mem_keywordVisits {v : Visit} {marked : List Kind} {built : Bool} {ks : List Keyword}
    (h : v ∈ keywordVisits source marked built ks) :
    (built = false ∧ v ∈ rootVisits source) ∨
      ∃ c name, .definitions c ∉ marked ∧ Beneath (definitionPlace c name) 1 v := by
  have hroot : ∀ {built : Bool}, v ∈ (if built then [] else rootVisits source) →
      built = false ∧ v ∈ rootVisits source := by
    intro built h
    cases built with
    | true => cases h
    | false => exact ⟨rfl, h⟩
  induction ks generalizing marked built with
  | nil => exact .inl (hroot h)
  | cons k rest ih =>
    rw [keywordVisits] at h
    rcases List.mem_append.1 h with h | h
    · unfold stepVisits at h
      split at h
      · cases h
      · rename_i hm
        cases k with
        | definitions c entries =>
          obtain ⟨e, _, hv⟩ := beneath_of_mem_each h
          exact .inr ⟨c, e.1, hm, hv⟩
        | combinator c branches => exact .inl (hroot h)
        | properties entries => exact .inl (hroot h)
        | _ => cases h
    -- what is marked or built later on only grows
    · rcases ih h with ⟨hb, hv⟩ | ⟨c, name, hm, hv⟩
      · refine .inl ⟨?_, hv⟩
        unfold next at hb
        split at hb
        · exact hb
        · exact (Bool.or_eq_false_iff.1 hb).1
      · refine .inr ⟨c, name, fun hin => hm ?_, hv⟩
        unfold next
        split
        · exact hin
        · exact List.mem_cons_of_mem _ hin

theorem apart_container {c c' : Container} (h : c ≠ c') {name name' : String} {r : List String}
    (hc : (definitionPlace c name).segments <+: r) :
    ¬ (definitionPlace c' name').segments <+: r := by
  refine Pointer.apart (fun heq => h ?_) (by rfl) hc
  exact (definitionPlace_inj (congrArg Pointer.mk heq)).1

/-- A keyword visits other places than the keywords after it. -/
theorem stepVisits_apart {v v' : Visit} {marked : List Kind} {built : Bool} {k : Keyword}
    {rest : List Keyword} (hv : v ∈ stepVisits source marked built k)
    (hv' : v' ∈ keywordVisits source (k.kind :: marked) (built || k.kind.describesRoot) rest) :
    v.1 ≠ v'.1 := by
  have hroot : v ∈ (if built then [] else rootVisits source) → k.kind.describesRoot = true →
      v.1 ≠ v'.1 := by
    intro hv hd heq
    rw [hd, Bool.or_true] at hv'
    obtain ⟨c, name, _, hbeneath⟩ := (mem_keywordVisits hv').resolve_left (by simp)
    split at hv
    · cases hv
    · exact rootVisits_apart hv c name (heq ▸ hbeneath.place)
  unfold stepVisits at hv
  split at hv
  · cases hv
  · cases k with
    | definitions c entries =>
      intro heq
      obtain ⟨e, _, hbeneath⟩ := beneath_of_mem_each hv
      have hplace := heq ▸ hbeneath.place
      rcases mem_keywordVisits hv' with ⟨_, hr⟩ | ⟨c', name, hfresh, hother⟩
      · exact rootVisits_apart hr c e.1 hplace
      · have hne : c ≠ c' := by
          rintro rfl
          exact hfresh List.mem_cons_self
        exact apart_container hne hplace hother.place
    | combinator c branches => exact hroot hv rfl
    | properties entries => exact hroot hv rfl
    | _ => cases hv

/-- **No place is visited twice**, by induction on the keywords of the root. -/
theorem keywordVisits_nodup (hs : source.schema.IsRead) {marked : List Kind} {built : Bool}
    {ks : List Keyword} (hks : ∀ k ∈ ks, k ∈ source.schema.keywords) :
    ((keywordVisits source marked built ks).map Prod.fst).Nodup := by
  have hroot : ∀ built : Bool,
      ((if built then [] else rootVisits source).map Prod.fst).Nodup := by
    intro built
    unfold rootVisits
    split
    · exact .nil
    · split
      · exact preorder_nodup hs
      · exact .nil
  induction ks generalizing marked built with
  | nil => exact hroot built
  | cons k rest ih =>
    obtain ⟨hk, hrest⟩ := List.forall_mem_cons.1 hks
    rw [keywordVisits]
    by_cases hpass : k.kind ∈ marked ∨ k.kind.isDispatched = false
    · rw [stepVisits_pass hpass]
      exact ih hrest
    · rw [not_or, Bool.not_eq_false] at hpass
      obtain ⟨hm, hd⟩ := hpass
      rw [next_take hm hd, List.map_append, List.nodup_append]
      refine ⟨?_, ih hrest, fun q hq q' hq' => ?_⟩
      · unfold stepVisits
        rw [if_neg hm]
        cases k with
        | info entries => exact .nil
        | definitions c entries =>
          exact preorderEach_nodup (fun hne _ hr => apart_definitionPlace hne hr)
            (hs.definitions hk)
        | combinator c branches => exact hroot built
        | properties entries => exact hroot built
        | _ => cases hd
      · obtain ⟨v, hv, rfl⟩ := List.mem_map.1 hq
        obtain ⟨v', hv', rfl⟩ := List.mem_map.1 hq'
        exact stepVisits_apart hv hv'

theorem runVisits_nodup (hs : source.schema.IsRead) :
    ((runVisits source).map Prod.fst).Nodup := keywordVisits_nodup hs fun _ hk => hk

/-! ## The order of visits -/

/-- The visits that a keyword of the root takes where it stands: definitions those of their entries,
and `properties` those of the root. -/
def visitsOfKeyword (source : Source) : Keyword → List Visit
  | .definitions c entries => preorderEach source.classifier (definitionPlace c) 1 entries
  | .properties _ => rootVisits source
  | _ => []

/-- The visits of a document: those of its keywords in source order, and last those of a root
without `properties`. -/
def documentVisits (source : Source) : List Visit :=
  source.schema.keywords.flatMap (visitsOfKeyword source) ++
    if source.schema.keywords.any (·.kind == .properties) then [] else rootVisits source

/-- Where no combinator stands for the root, the plan follows the source order, by induction on the
keywords: once the root element is there, no `properties` follow, or the root takes no visits. -/
theorem keywordVisits_eq {marked : List Kind} {built : Bool} {ks : List Keyword}
    (hu : Unmarked marked ks) (ha : Apart ks)
    (hcombinator : ∀ c branches, .combinator c branches ∈ ks → rootVisits source = [])
    (hbuilt : built = true → rootVisits source = [] ∨ ∀ k ∈ ks, k.kind ≠ .properties) :
    keywordVisits source marked built ks =
      ks.flatMap (visitsOfKeyword source) ++
        if built || ks.any (·.kind == .properties) then [] else rootVisits source := by
  induction ks generalizing marked built with
  | nil => simp [keywordVisits]
  | cons k rest ih =>
    have harest := (List.pairwise_cons.1 ha).2
    have hcrest : ∀ c branches, .combinator c branches ∈ rest → rootVisits source = [] :=
      fun c branches hk => hcombinator c branches (List.mem_cons_of_mem _ hk)
    have hbrest : built = true → rootVisits source = [] ∨ ∀ k ∈ rest, k.kind ≠ .properties :=
      fun hb => (hbuilt hb).imp_right fun hall => (List.forall_mem_cons.1 hall).2
    rw [keywordVisits, List.flatMap_cons, List.any_cons]
    by_cases hd : k.kind.isDispatched = true
    · have hfresh := hu k List.mem_cons_self hd
      have hurest := unmarked_tail hu ha hd
      unfold stepVisits
      rw [next_take hfresh hd, if_neg hfresh]
      cases k with
      | info entries =>
        rw [ih hurest harest hcrest (by simpa [Keyword.kind, Kind.describesRoot] using hbrest)]
        simp [visitsOfKeyword, Keyword.kind, Kind.describesRoot]
      | definitions c entries =>
        rw [ih hurest harest hcrest (by simpa [Keyword.kind, Kind.describesRoot] using hbrest)]
        simp [visitsOfKeyword, Keyword.kind, Kind.describesRoot]
      | combinator c branches =>
        have hnone := hcombinator c branches List.mem_cons_self
        rw [ih hurest harest hcrest fun _ => .inl hnone]
        simp [visitsOfKeyword, hnone]
      | properties entries =>
        have hlast : ∀ k ∈ rest, k.kind ≠ .properties :=
          fun k hk => (List.pairwise_cons.1 ha).1 k hk hd
        rw [ih hurest harest hcrest fun _ => .inr hlast]
        cases hb : built with
        | true =>
          have hnone := (hbuilt hb).resolve_right fun hall => hall _ List.mem_cons_self rfl
          simp [visitsOfKeyword, hnone]
        | false => simp [visitsOfKeyword, Keyword.kind, Kind.describesRoot]
      | _ => cases hd
    · have hnot : k.kind.isDispatched = false := by simpa using hd
      rw [next_pass (.inr hnot), stepVisits_pass (.inr hnot),
        ih (List.forall_mem_cons.1 hu).2 harest hcrest hbrest]
      cases k with
      | info | definitions | combinator | properties => cases hnot
      | _ => simp [visitsOfKeyword, Keyword.kind]

theorem runVisits_eq (hs : source.schema.IsRead)
    (hc : source.classifier.inlineRoot = true → source.schema.combinators = []) :
    runVisits source = documentVisits source := by
  refine keywordVisits_eq (unmarked_rootWorkList _) (apart_of_isRead hs) ?_ nofun
  intro c branches hk
  by_cases hi : source.classifier.inlineRoot = true
  · exact absurd (hc hi) (combinators_ne_nil hk)
  · exact if_neg hi

/-- A document that comes out of an inline root has no combinators at the root. -/
theorem combinators_of_becomesDocument {d : Document} (hd : BecomesDocument source d)
    (hi : source.classifier.inlineRoot = true) : source.schema.combinators = [] := by
  obtain ⟨e, _, hroot⟩ := hd.rootElement
  cases hroot with
  | complex _ hc _ _ => exact hc
  | simple _ hc _ _ => exact hc
  | wrapped hn _ _ _ _ =>
    rw [hi] at hn
    cases hn

/-- Every planned visit is at the depth of its place. -/
theorem depth_of_mem_runVisits {v : Visit} (h : v ∈ runVisits source) :
    v.1.segments.length = 2 * v.2 := by
  rcases mem_keywordVisits h with ⟨_, hv⟩ | ⟨c, name, _, hv⟩
  · exact (beneath_of_mem_rootVisits hv).depth.trans (Nat.zero_add _)
  · have hlength := hv.depth
    simp only [definitionPlace, Pointer.segments_append, List.length_append, List.length_cons,
      List.length_nil, Pointer.root] at hlength
    omega

theorem mem_visitsOfLog {p : Pointer} {depth : Nat} {log : List Event} :
    (p, depth) ∈ visitsOfLog log ↔ .entered p depth ∈ log := by
  rw [visitsOfLog, List.mem_filterMap]
  constructor
  · rintro ⟨event, hm, hv⟩
    cases event with
    | entered p' depth' =>
      cases hv
      exact hm
    | _ => cases hv
  · intro hm
    exact ⟨_, hm, rfl⟩

/-- A place that a conversion enters is one of the plan. -/
theorem mem_runVisits_of_entered {j : Json} {options : Options} {p : Pointer} {depth : Nat}
    (h : .entered p depth ∈ (tracedJson j classifier options).2) :
    ∃ s, Schema.ofJson? j = .ok s ∧ (p, depth) ∈ runVisits ⟨s, classifier, options⟩ := by
  cases hs : Schema.ofJson? j with
  | error e =>
    -- a document that is no schema is refused before any place is entered
    unfold tracedJson at h
    rw [hs] at h
    cases h
  | ok s =>
    have hvisited := mem_visitsOfLog.2 h
    exact ⟨s, rfl, (visitsOfLog_initial hs classifier options).subset hvisited⟩

/-- **Every subschema is visited once, in source order.** No conversion fails for a second visit.
Every place is entered at the depth that is half the number of its segments, and a place that is too
deep for the options has just as many segments as the first depth beyond the limit. Once a
conversion succeeds, the places entered are those of `documentVisits`, in that order and each once:
the definitions, an inline root, and beneath those of complex shape their properties. -/
theorem visits_once {j : Json} (hj : j.Distinct) (classifier : Classifier) (options : Options) :
    (∀ p, convertJson j classifier options ≠ .error (.fault p .visitedTwice)) ∧
    (∀ p depth, .entered p depth ∈ (tracedJson j classifier options).2 →
      p.segments.length = 2 * depth) ∧
    (∀ p limit, convertJson j classifier options = .error (.tooDeep p limit) →
      limit = options.maxDepth ∧ p.segments.length = 2 * (limit + 1)) ∧
    ∀ d, convertJson j classifier options = .ok d → ∃ s, Schema.ofJson? j = .ok s ∧
      visitsOfLog (tracedJson j classifier options).2 = documentVisits ⟨s, classifier, options⟩ ∧
      ((documentVisits ⟨s, classifier, options⟩).map Prod.fst).Nodup := by
  refine ⟨fun p hp => ?_, fun p depth hm => ?_, fun p limit hp => ?_, fun d hd => ?_⟩
  · rcases convertJson_error hp with hread | ⟨s, l, l', hs, hvisited, hhalts⟩
    · cases hread.walk
    · refine hhalts.twice p rfl ?_
      rw [hvisited]
      exact runVisits_nodup ⟨.root, j, hj, hs⟩
  · obtain ⟨s, _, hplanned⟩ := mem_runVisits_of_entered hm
    exact depth_of_mem_runVisits hplanned
  · obtain ⟨hlimit, s, t, _, ht⟩ := liesAt_of_tooDeep hp
    exact ⟨hlimit, ht.length⟩
  · obtain ⟨s, hs, hbecomes⟩ := convertJson_ok hd
    have hread : s.IsRead := ⟨.root, j, hj, hs⟩
    have heq := runVisits_eq hread (combinators_of_becomesDocument hbecomes)
    exact ⟨s, hs, (visitsOfLog_of_ok hs hd).trans heq, heq ▸ runVisits_nodup hread⟩

theorem visits_once_attributeSchema :
    attributeSchema.Distinct ∧ ∃ d, convertJson attributeSchema complexRoot {} = .ok d ∧
      ∃ s, Schema.ofJson? attributeSchema = .ok s ∧
        visitsOfLog (tracedJson attributeSchema complexRoot {}).2 =
          documentVisits ⟨s, complexRoot, {}⟩ ∧
        documentVisits ⟨s, complexRoot, {}⟩ =
          [(.root, 0), (propertyPlace .root "x", 1), (definitionPlace .defs "P", 1),
            (definitionPlace .defs "Q", 1)] ∧
        ((documentVisits ⟨s, complexRoot, {}⟩).map Prod.fst).Nodup := by
  have hdistinct : attributeSchema.Distinct := Json.distinct_of_merged (by rfl)
  have hrun : (convertJson attributeSchema complexRoot {}).toOption.any (fun _ => true) = true := by
    decide +kernel
  obtain ⟨d, hd, _⟩ := Checks.exists_of_any hrun
  obtain ⟨s, hs, hlog, hnodup⟩ := (visits_once hdistinct complexRoot {}).2.2.2 d hd
  have hlist : visitsOfLog (tracedJson attributeSchema complexRoot {}).2 =
      [(.root, 0), (propertyPlace .root "x", 1), (definitionPlace .defs "P", 1),
        (definitionPlace .defs "Q", 1)] := by decide +kernel
  exact ⟨hdistinct, d, hd, s, hs, hlog, hlog.symm.trans hlist, hnodup⟩

end XsdSynthesis
