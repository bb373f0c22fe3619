import XsdSynthesis.Proofs.Kept

/-!
# XsdSynthesis.Proofs.Coverage

Nothing is dropped, with one exception. Every keyword at every position of a converted schema is kept in the
document or may be ignored (`NothingDropped`), unless the root is inline, of no complex shape, and
has properties: these are marked where they stand, but the rule of simple types does not ask for
them (`nothing_dropped_iff`).
-/

namespace XsdSynthesis

open Xsd Conversion

variable {source : Source} {d : Document} {p : Pointer} {t : Schema} {k : Keyword}

/-- No keyword of a schema is dropped: none is unknown, every property is one member of the type of
its place, and every other keyword is kept or may be ignored. -/
structure NothingDropped (source : Source) (d : Document) : Prop where
  known : ∀ p t name j, Position source.schema p t → .unknown name j ∉ t.keywords
  represented : ∀ p t entries, Position source.schema p t → .properties entries ∈ t.keywords →
    Represented source.schema d p entries
  kept : ∀ p t k, Position source.schema p t → k ∈ t.keywords →
    MayIgnore source p k ∨ Kept source d p k

/-- An inline root with properties has a complex shape. -/
def RootTakesProperties (source : Source) : Prop :=
  source.classifier.inlineRoot = true → (source.schema.get? .properties).isSome = true →
    (source.classifier.shapes .root).isComplex = true

/-! ## The root -/

theorem mem_rootKinds {kind : Kind} (h : kind ∈ rootKinds source) :
    source.classifier.inlineRoot = true ∧
      ((source.classifier.shapes .root).isComplex = true ∧ kind ∈ [.type, .required, .properties] ∨
        (source.classifier.shapes .root).isComplex = false ∧ kind ∈ [.ref, .type]) := by
  unfold rootKinds at h
  split at h
  · rename_i hi
    refine ⟨hi, ?_⟩
    split at h
    · rename_i hc
      exact .inl ⟨hc, h⟩
    · rename_i hc
      exact .inr ⟨by simpa using hc, h⟩
  · cases h

theorem kept_complexRoot (hd : BecomesDocument source d) (hs : source.schema.IsRead)
    (hi : source.classifier.inlineRoot = true)
    (hc : (source.classifier.shapes .root).isComplex = true) (hk : k ∈ source.schema.keywords)
    (hkind : k.kind ∈ [.type, .required, .properties]) : Kept source d .root k := by
  obtain ⟨parts, type, htype, hfills⟩ := Reached.typeAt hd (.root hi) hc
  exact hfills.kept hd hs hs htype hk hkind

theorem kept_simpleRoot (hd : BecomesDocument source d) (hs : source.schema.IsRead)
    (hi : source.classifier.inlineRoot = true)
    (hc : (source.classifier.shapes .root).isComplex = false) (hk : k ∈ source.schema.keywords)
    (hkind : k.kind ∈ [.ref, .type]) : Kept source d .root k := by
  obtain ⟨e, he, hroot⟩ := hd.rootElement
  cases hroot with
  | complex _ _ ho _ =>
    rw [ho.shape] at hc
    cases hc
  | simple _ _ _ hname =>
    refine NamesType.kept hs hname ?_ hk hkind
    rintro q rfl
    exact .root he rfl
  | wrapped hn _ _ _ _ =>
    rw [hi] at hn
    cases hn

/-- The root's rule keeps what it pulls. -/
theorem kept_rootKinds (hd : BecomesDocument source d) (hs : source.schema.IsRead)
    (hk : k ∈ source.schema.keywords) (hkind : k.kind ∈ rootKinds source) :
    Kept source d .root k := by
  obtain ⟨hi, ⟨hc, hkind⟩ | ⟨hc, hkind⟩⟩ := mem_rootKinds hkind
  · exact kept_complexRoot hd hs hi hc hk hkind
  · exact kept_simpleRoot hd hs hi hc hk hkind

/-- A keyword that is neither marked beforehand nor dispatched was pulled by the root's rule. -/
theorem kept_pulled (hd : BecomesDocument source d) (hs : source.schema.IsRead)
    (hk : k ∈ source.schema.keywords) (hmarked : k.kind ∉ documentKinds ++ [.type])
    (hdispatched : k.kind.isDispatched = false) : Kept source d .root k := by
  rcases hd.kinds k hk with hm | hm | hm
  · exact absurd hm hmarked
  · rw [hdispatched] at hm
    cases hm
  · exact kept_rootKinds hd hs hk hm

theorem mem_definitionNames_of_mem {c : Container} {e : String × Schema} {s : Schema}
    (h : e ∈ s.definitions c) : e.1 ∈ s.definitionNames := by
  refine List.mem_map.2 ⟨e, ?_, rfl⟩
  cases c with
  | defs => exact List.mem_append_left _ h
  | definitions => exact List.mem_append_right _ h

theorem kept_combinator {c : Combinator} {branches : List Schema} (hd : BecomesDocument source d)
    (hk : .combinator c branches ∈ source.schema.keywords) :
    Kept source d .root (.combinator c branches) := by
  have hm : (c, branches) ∈ source.schema.combinators := List.mem_filterMap.2 ⟨_, hk, rfl⟩
  obtain ⟨e, he, hroot⟩ := hd.rootElement
  cases hroot with
  | complex _ hnil _ _ =>
    rw [hnil] at hm
    cases hm
  | simple _ hnil _ _ =>
    rw [hnil] at hm
    cases hm
  | wrapped _ _ hone htarget _ =>
    rw [hone] at hm
    cases List.mem_singleton.1 hm
    exact ⟨_, _, _, rfl, htarget, .root he rfl⟩

theorem kept_documentAttributes (hd : BecomesDocument source d)
    (hn : ((declaredAttributes source.schema).map Prod.fst).Nodup) :
    Kept source d .root (.documentAttributes (declaredAttributes source.schema)) := by
  intro a ha
  by_cases hknown : a.1 ∈ attributeNames
  · exact .inl (hd.attributes hn a ha hknown)
  · refine .inr ⟨hknown, ?_⟩
    rw [Bool.eq_false_iff]
    intro hstrict
    exact hknown (hd.strict hstrict a ha)

/-- A root with properties is inline: the wrapper of a reference has none. -/
theorem inlineRoot_of_properties {entries : List (String × Schema)} (hd : BecomesDocument source d)
    (hs : source.schema.IsRead) (hk : .properties entries ∈ source.schema.keywords) :
    source.classifier.inlineRoot = true := by
  obtain ⟨e, _, hroot⟩ := hd.rootElement
  cases hroot with
  | complex hi _ _ _ => exact hi
  | simple hi _ _ _ => exact hi
  | wrapped _ hnone _ _ _ =>
    rw [show source.schema.get? .properties = _ from hs.get? hk nofun] at hnone
    cases hnone

theorem complexRoot_of_properties {entries : List (String × Schema)} (hd : BecomesDocument source d)
    (hs : source.schema.IsRead) (hroot : RootTakesProperties source)
    (hk : .properties entries ∈ source.schema.keywords) :
    source.classifier.inlineRoot = true ∧ (source.classifier.shapes .root).isComplex = true := by
  have hi := inlineRoot_of_properties hd hs hk
  have hg : source.schema.get? .properties = some (.properties entries) := hs.get? hk nofun
  exact ⟨hi, hroot hi (by rw [hg]; rfl)⟩

/-- **Nothing is dropped at the root.** -/
theorem kept_root (hd : BecomesDocument source d) (hs : source.schema.IsRead)
    (hroot : RootTakesProperties source) (hk : k ∈ source.schema.keywords) :
    MayIgnore source .root k ∨ Kept source d .root k := by
  cases k with
  | schema uri => exact .inl trivial
  | id uri => exact .inl trivial
  | type types =>
    by_cases hi : source.classifier.inlineRoot = true
    · right
      by_cases hc : (source.classifier.shapes .root).isComplex = true
      · exact kept_complexRoot hd hs hi hc hk (by simp [Keyword.kind])
      · exact kept_simpleRoot hd hs hi (by simpa using hc) hk (by simp [Keyword.kind])
    · exact .inl ⟨rfl, by simpa using hi⟩
  | definitions c entries =>
    right
    intro e he
    rw [← hs.definitions_eq hk] at he
    exact hd.declaredNames_perm.mem_iff.2 (mem_definitionNames_of_mem he)
  | info entries => exact .inr (hd.documentation (hs.get? hk nofun))
  | combinator c branches => exact .inr (kept_combinator hd hk)
  | properties entries =>
    obtain ⟨hi, hc⟩ := complexRoot_of_properties hd hs hroot hk
    exact .inr (kept_complexRoot hd hs hi hc hk (by simp [Keyword.kind]))
  | required names =>
    exact .inr (kept_pulled hd hs hk (by simp [documentKinds, Keyword.kind]) rfl)
  | ref r =>
    exact .inr (kept_pulled hd hs hk (by simp [documentKinds, Keyword.kind]) rfl)
  | namespaces bindings =>
    right
    have hg : declaredNamespaces source.schema = bindings := by
      rw [declaredNamespaces, show source.schema.get? .namespaces = _ from hs.get? hk nofun]
    exact hg ▸ hd.namespaces
  | documentAttributes attributes =>
    right
    have hg : declaredAttributes source.schema = attributes := by
      rw [declaredAttributes, show source.schema.get? .documentAttributes = _ from hs.get? hk nofun]
    have hn := hs.attributes hk
    rw [← hg] at hn ⊢
    exact kept_documentAttributes hd hn
  | asAttribute flag =>
    exact .inr (kept_pulled hd hs hk (by simp [documentKinds, Keyword.kind]) rfl)
  | unknown name j =>
    exact .inr (kept_pulled hd hs hk (by simp [documentKinds, Keyword.kind]) rfl)

/-! ## Below the root -/

theorem Reached.becomes (hd : BecomesDocument source d) (h : Reached source p t) (hp : p ≠ .root) :
    ∃ depth made, Becomes source (d.namespaceOf? "") p depth t made ∧
      Shown source.schema d p made := by
  rcases h.shown hd with ⟨hroot, _⟩ | hbecomes
  · exact absurd hroot hp
  · exact hbecomes

theorem mayIgnore_documentKind (hp : p ≠ .root) (h : k.kind ∈ documentKinds) :
    MayIgnore source p k := by
  cases k with
  | schema uri => trivial
  | id uri => trivial
  | namespaces bindings => exact hp
  | documentAttributes attributes => exact hp
  | _ => exact absurd h (by simp [documentKinds, Keyword.kind])

/-- **Nothing is dropped below the root.** -/
theorem kept_nested (hd : BecomesDocument source d) (hs : source.schema.IsRead)
    (h : Reached source p t) (hp : p ≠ .root) (hk : k ∈ t.keywords) :
    MayIgnore source p k ∨ Kept source d p k := by
  have ht := h.position.isRead hs
  obtain ⟨depth, made, hbecomes, hshown⟩ := h.becomes hd hp
  have hflag : k.kind = .asAttribute → Kept source d p k := by
    intro hkind
    cases k with
    | asAttribute flag => exact kept_asAttribute hd hs h hk
    | _ => cases hkind
  obtain ⟨node, flag⟩ := made
  cases node with
  | complex inner =>
    obtain ⟨ho, _, hkinds, _⟩ := hbecomes.of_complex rfl
    obtain ⟨parts, type, htype, hfills⟩ := Reached.typeAt hd h ho.shape
    rcases List.mem_append.1 (hkinds k hk) with hm | hm
    · exact .inl (mayIgnore_documentKind hp hm)
    · rcases List.mem_cons.1 hm with hkind | hm
      · exact .inr (hflag hkind)
      · exact .inr (hfills.kept hd hs ht htype hk hm)
  | simple typeName =>
    obtain ⟨_, _, hkinds, hname⟩ := hbecomes.of_simple rfl
    rcases List.mem_append.1 (hkinds k hk) with hm | hm
    · exact .inl (mayIgnore_documentKind hp hm)
    · rcases List.mem_cons.1 hm with hkind | hm
      · exact .inr (hflag hkind)
      · right
        refine NamesType.kept ht hname ?_ hk hm
        rintro q rfl
        exact hshown.nameAt

theorem complex_of_properties {entries : List (String × Schema)} (hd : BecomesDocument source d)
    (h : Reached source p t) (hp : p ≠ .root) (hk : .properties entries ∈ t.keywords) :
    (source.classifier.shapes p).isComplex = true := by
  obtain ⟨depth, ⟨node, flag⟩, hbecomes, _⟩ := h.becomes hd hp
  cases node with
  | complex inner => exact (hbecomes.of_complex rfl).1.shape
  | simple typeName =>
    have hkind := (hbecomes.of_simple rfl).2.2.1 _ hk
    exact absurd (show Kind.properties ∈ _ from hkind) (by decide)

/-- **Synthesis comes to every position**, by induction on the position. -/
theorem Position.reached (hd : BecomesDocument source d) (hs : source.schema.IsRead)
    (hroot : RootTakesProperties source) (h : Position source.schema p t) :
    p = .root ∧ t = source.schema ∨ p ≠ .root ∧ Reached source p t := by
  induction h with
  | root => exact .inl ⟨rfl, rfl⟩
  | definition hk he =>
    right
    rw [← hs.definitions_eq hk] at he
    exact ⟨definitionPlace_ne_root _ _, .definition he⟩
  | property hparent hk he ih =>
    right
    refine ⟨propertyPlace_ne_root _ _, ?_⟩
    rw [← (hparent.isRead hs).properties_eq hk] at he
    rcases ih with ⟨rfl, rfl⟩ | ⟨hp, hreached⟩
    · obtain ⟨hi, hc⟩ := complexRoot_of_properties hd hs hroot hk
      exact .property (.root hi) hc he
    · exact .property hreached (complex_of_properties hd hreached hp hk) he

/-! ## The whole schema -/

theorem nothingDropped_of (hd : BecomesDocument source d) (hs : source.schema.IsRead)
    (hroot : RootTakesProperties source) : NothingDropped source d := by
  have hkept : ∀ p t k, Position source.schema p t → k ∈ t.keywords →
      MayIgnore source p k ∨ Kept source d p k := by
    intro p t k hpos hk
    rcases hpos.reached hd hs hroot with ⟨rfl, rfl⟩ | ⟨hp, hreached⟩
    · exact kept_root hd hs hroot hk
    · exact kept_nested hd hs hreached hp hk
  refine ⟨fun p t name j hpos hk => ?_, fun p t entries hpos hk => ?_, hkept⟩
  · rcases hkept p t _ hpos hk with hm | hm
    · exact hm
    · exact hm
  · rcases hkept p t _ hpos hk with hm | hm
    · exact hm.elim
    · exact hm

theorem rootTakesProperties_of (hd : BecomesDocument source d) (h : NothingDropped source d) :
    RootTakesProperties source := by
  intro _ hsome
  obtain ⟨k, hg⟩ := Option.isSome_iff_exists.1 hsome
  obtain ⟨hk, hkind⟩ := mem_of_get? hg
  cases k with
  | properties entries =>
    obtain ⟨type, htype, _⟩ := h.represented .root source.schema entries .root hk
    obtain ⟨t, parts, _, hfills⟩ := TypeAt.fills hd ((htype type).2 rfl)
    exact hfills.opens.shape
  | _ => cases hkind

/-- **Nothing is dropped, exactly when an inline root with properties has a complex shape.** -/
theorem nothing_dropped_iff {j : Json} {classifier : Classifier} {options : Options}
    {d : Document} (hj : j.Distinct) (h : convertJson j classifier options = .ok d) :
    ∃ s, Schema.ofJson? j = .ok s ∧
      (NothingDropped ⟨s, classifier, options⟩ d ↔
        RootTakesProperties ⟨s, classifier, options⟩) := by
  obtain ⟨s, hs, hd⟩ := convertJson_ok h
  have hread : s.IsRead := ⟨.root, j, hj, hs⟩
  exact ⟨s, hs, rootTakesProperties_of hd, nothingDropped_of hd hread⟩

theorem nothing_dropped_iff_attribute :
    attributeSchema.Distinct ∧ ∃ d, convertJson attributeSchema complexRoot {} = .ok d ∧
      ∃ s, Schema.ofJson? attributeSchema = .ok s ∧
        (NothingDropped ⟨s, complexRoot, {}⟩ d ↔ RootTakesProperties ⟨s, complexRoot, {}⟩) := by
  have hmerged : attributeSchema.merged = attributeSchema := by rfl
  have hdistinct : attributeSchema.Distinct := hmerged ▸ Json.distinct_merged attributeSchema
  have hrun : (convertJson attributeSchema complexRoot {}).toOption.any (fun _ => true) = true := by
    decide +kernel
  obtain ⟨d, hd, _⟩ := Checks.exists_of_any hrun
  exact ⟨hdistinct, d, hd, nothing_dropped_iff hdistinct hd⟩

/-- A root with a type and with a property that holds a keyword no rule knows. -/
def typedSchema : Json :=
  .obj [("type", .str "string"),
    ("properties", .obj [("a", .obj [("minimum", .num (.int 3))])])]

def simpleRoot : Classifier := ⟨"Root", true, fun _ => .ofList [.simpleType]⟩

/-- Such a schema is converted, and its properties are dropped with all that they hold. -/
theorem properties_dropped :
    ∃ d s, convertJson typedSchema simpleRoot {} = .ok d ∧ Schema.ofJson? typedSchema = .ok s ∧
      ¬ NothingDropped ⟨s, simpleRoot, {}⟩ d := by
  have hrun : (convertJson typedSchema simpleRoot {}).toOption.any (fun _ => true) = true := by
    decide +kernel
  obtain ⟨d, hd, _⟩ := Checks.exists_of_any hrun
  have hread : Schema.ofJson? typedSchema = .ok (.mk [.type [.string],
      .properties [("a", .mk [.unknown "minimum" (.num (.int 3))])]]) := by rfl
  refine ⟨d, _, hd, hread, fun h => ?_⟩
  refine h.known (propertyPlace .root "a") (.mk [.unknown "minimum" (.num (.int 3))]) "minimum"
    (.num (.int 3)) ?_ List.mem_cons_self
  have hproperties : .properties [("a", .mk [.unknown "minimum" (.num (.int 3))])] ∈
      Schema.keywords (.mk [.type [.string],
        .properties [("a", .mk [.unknown "minimum" (.num (.int 3))])]]) :=
    List.mem_cons_of_mem _ List.mem_cons_self
  exact .property .root hproperties List.mem_cons_self

end XsdSynthesis
