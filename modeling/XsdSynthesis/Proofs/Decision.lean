import XsdSynthesis.Proofs.Dispatching

/-!
# XsdSynthesis.Proofs.Decision

What decides a conversion. `Yields` lists the conditions on a schema and a document: no attribute is
refused, prefixes fit, every definition and the root can be rendered, and no keyword of the root
is left. A conversion of a schema ends with a document exactly if the schema yields it
(`convertJson_ok_iff`). Ledgers, work lists and visited places have no part in it.
-/

namespace XsdSynthesis

open Xsd Conversion

namespace Conversion

variable {source : Source} {l l' : Ledger} {w : WorkList} {built : Bool} {name value : String}
  {attributes : List (String × String)} {d d' : Document}

/-! ## Attributes -/

/-- Whether an attribute that a schema declares is accepted. -/
def accepts (options : Options) (name value : String) : Bool :=
  match name with
  | "AttributeFormDefault" | "ElementFormDefault" => (Form.ofText? value).isSome
  | "BlockDefault" =>
    ((Derivation.setOfText? value).filter (·.all Derivation.mayBlock)).isSome
  | "FinalDefault" =>
    ((Derivation.setOfText? value).filter (·.all Derivation.mayBeFinal)).isSome
  | _ => !options.strictAttributes

theorem form?_isOk {place : Pointer} :
    (∃ form, form? place value = .ok form) ↔ (Form.ofText? value).isSome = true := by
  unfold form?
  cases Form.ofText? value <;> simp

theorem derivations?_isOk {place : Pointer} {allowed : Derivation → Bool} :
    (∃ set, derivations? place allowed value = .ok set) ↔
      ((Derivation.setOfText? value).filter (·.all allowed)).isSome = true := by
  unfold derivations?
  cases (Derivation.setOfText? value).filter (·.all allowed) <;> simp

theorem bind_amend_ok {α : Type} {x : Except Problem α} {f : α → Document → Document} :
    (liftM x >>= fun a => amend (f a)) l = (.ok (), l') ↔
      ∃ a, x = .ok a ∧ l' = { l with document := f a l.document } := by
  rw [bind_lift_ok]
  simp [amend, update, eq_comm]

theorem accepts_of_applyAttribute (h : applyAttribute source name value l = (.ok (), l')) :
    accepts source.options name value = true ∧ l'.visited = l.visited := by
  unfold applyAttribute at h
  unfold accepts
  split at h
  · obtain ⟨form, hf, rfl⟩ := bind_amend_ok.1 h
    exact ⟨form?_isOk.1 ⟨form, hf⟩, rfl⟩
  · obtain ⟨form, hf, rfl⟩ := bind_amend_ok.1 h
    exact ⟨form?_isOk.1 ⟨form, hf⟩, rfl⟩
  · obtain ⟨set, hf, rfl⟩ := bind_amend_ok.1 h
    exact ⟨derivations?_isOk.1 ⟨set, hf⟩, rfl⟩
  · obtain ⟨set, hf, rfl⟩ := bind_amend_ok.1 h
    exact ⟨derivations?_isOk.1 ⟨set, hf⟩, rfl⟩
  · split at h
    · exact absurd h stop_ok
    · rename_i hstrict
      cases h
      exact ⟨by simpa using hstrict, rfl⟩

theorem applyAttribute_of_accepts (h : accepts source.options name value = true) (l : Ledger) :
    ∃ l', applyAttribute source name value l = (.ok (), l') := by
  unfold applyAttribute
  split
  · simp only [accepts] at h
    obtain ⟨form, hf⟩ := form?_isOk.2 h
    exact ⟨_, bind_amend_ok.2 ⟨form, hf, rfl⟩⟩
  · simp only [accepts] at h
    obtain ⟨form, hf⟩ := form?_isOk.2 h
    exact ⟨_, bind_amend_ok.2 ⟨form, hf, rfl⟩⟩
  · simp only [accepts] at h
    obtain ⟨set, hf⟩ := derivations?_isOk.2 h
    exact ⟨_, bind_amend_ok.2 ⟨set, hf, rfl⟩⟩
  · simp only [accepts] at h
    obtain ⟨set, hf⟩ := derivations?_isOk.2 h
    exact ⟨_, bind_amend_ok.2 ⟨set, hf, rfl⟩⟩
  · rename_i h₁ h₂ h₃ h₄
    have hlax : ¬ source.options.strictAttributes = true := by
      unfold accepts at h
      split at h
      · exact (h₁ rfl).elim
      · exact (h₂ rfl).elim
      · exact (h₃ rfl).elim
      · exact (h₄ rfl).elim
      · simpa using h
    rw [if_neg hlax]
    exact ⟨_, rfl⟩

theorem accepts_of_applyEach (h : applyEach source attributes l = (.ok (), l')) :
    (∀ a ∈ attributes, accepts source.options a.1 a.2 = true) ∧ l'.visited = l.visited := by
  induction attributes generalizing l with
  | nil =>
    obtain ⟨_, rfl⟩ := pure_ok.1 h
    exact ⟨by simp, rfl⟩
  | cons a rest ih =>
    obtain ⟨_, l₁, ha, h⟩ := bind_ok.1 h
    obtain ⟨hfirst, hv⟩ := accepts_of_applyAttribute ha
    obtain ⟨hrest, hv'⟩ := ih h
    exact ⟨List.forall_mem_cons.2 ⟨hfirst, hrest⟩, hv'.trans hv⟩

theorem applyEach_of_accepts (h : ∀ a ∈ attributes, accepts source.options a.1 a.2 = true)
    (l : Ledger) : ∃ l', applyEach source attributes l = (.ok (), l') := by
  induction attributes generalizing l with
  | nil => exact ⟨l, rfl⟩
  | cons a rest ih =>
    obtain ⟨ha, hrest⟩ := List.forall_mem_cons.1 h
    obtain ⟨l₁, hrun⟩ := applyAttribute_of_accepts ha l
    obtain ⟨l₂, hothers⟩ := ih hrest l₁
    exact ⟨l₂, bind_ok.2 ⟨(), l₁, hrun, hothers⟩⟩

/-- After all attributes, a document has those that are declared and no others. -/
theorem attribute?_of_applyEach (hn : (attributes.map Prod.fst).Nodup) (hl : l.document = {})
    (h : applyEach source attributes l = (.ok (), l')) (name : String) (v : Form ⊕ List Derivation) :
    l'.document.attribute? name = some v ↔
      ∃ value, (name, value) ∈ attributes ∧ attributeValue? name value = some v := by
  obtain ⟨hset, hother⟩ := applyEach_ok hn h
  have hnone : l.document.attribute? name = none := by
    rw [hl]
    unfold Document.attribute?
    split <;> rfl
  by_cases hk : name ∈ attributeNames
  · by_cases hm : name ∈ attributes.map Prod.fst
    · obtain ⟨⟨_, value⟩, ha, rfl⟩ := List.mem_map.1 hm
      obtain ⟨u, hu, hdoc⟩ := hset _ ha hk
      rw [hdoc]
      constructor
      · rintro ⟨⟩
        exact ⟨value, ha, hu⟩
      · rintro ⟨other, ho, hv⟩
        rw [Tables.eq_of_mem hn ho ha, hu] at hv
        exact hv
    · rw [hother name hm, hnone]
      constructor
      · nofun
      · rintro ⟨value, ha, _⟩
        exact absurd (List.mem_map.2 ⟨_, ha, rfl⟩) hm
  · rw [attribute?_of_notMem hk]
    constructor
    · nofun
    · rintro ⟨value, _, hv⟩
      rw [attributeValue?_of_notMem hk] at hv
      cases hv

/-- A document is its attributes, its prefixes and its items. -/
theorem eq_of_parts (ha : ∀ n, d.attribute? n = d'.attribute? n)
    (hn : d.namespaces = d'.namespaces) (hi : d.items = d'.items) : d = d' := by
  have h₁ := ha "AttributeFormDefault"
  have h₂ := ha "ElementFormDefault"
  have h₃ := ha "BlockDefault"
  have h₄ := ha "FinalDefault"
  obtain ⟨namespaces, attributeForm, elementForm, blockDefault, finalDefault, items⟩ := d
  obtain ⟨namespaces', attributeForm', elementForm', blockDefault', finalDefault', items'⟩ := d'
  cases Option.map_injective (fun _ _ => Sum.inl.inj) h₁
  cases Option.map_injective (fun _ _ => Sum.inl.inj) h₂
  cases Option.map_injective (fun _ _ => Sum.inr.inj) h₃
  cases Option.map_injective (fun _ _ => Sum.inr.inj) h₄
  cases hn
  cases hi
  rfl

/-! ## The document -/

/-- The items that the root becomes: those of its keywords, with the root element at the end if none
of the keywords gives it. -/
def BecomesAll (source : Source) (ns : Option String) (all : List Item) : Prop :=
  ∃ items built, BecomesItems source ns (rootWorkList source.schema).marked false
      source.schema.keywords items built ∧
    (built = true ∧ all = items ∨ built = false ∧ source.classifier.inlineRoot = true ∧
      ∃ e, BecomesRoot source ns e ∧ all = items ++ [.element e])

/-- A schema yields a document: nothing in the schema is refused, and the document has the declared
attributes, the table of prefixes, and the items that the rules give. -/
structure Yields (source : Source) (d : Document) : Prop where
  accepted : ∀ a ∈ declaredAttributes source.schema, accepts source.options a.1 a.2 = true
  attributes : ∀ name v, d.attribute? name = some v ↔
    ∃ value, (name, value) ∈ declaredAttributes source.schema ∧ attributeValue? name value = some v
  table : namespaceTable (declaredNamespaces source.schema) = .ok d.namespaces
  named : Xml.isName source.classifier.messageName = true
  names : d.declaredNames.Nodup
  kinds : ∀ k ∈ source.schema.keywords,
    k.kind ∈ documentKinds ++ [.type] ∨ k.kind.isDispatched = true ∨ k.kind ∈ rootKinds source
  items : BecomesAll source (d.namespaceOf? "") d.items

theorem declaredAttributes_nodup {s : Schema} (hs : s.IsRead) :
    ((declaredAttributes s).map Prod.fst).Nodup := by
  unfold declaredAttributes
  split
  · rename_i attributes hg
    exact hs.attributes (mem_of_get? hg).1
  · exact .nil

theorem yields_of_run (hs : source.schema.IsRead) (hl : l.document = {})
    (h : run source l = (.ok (), l')) : Yields source l'.document := by
  have hd := run_ok (by rw [hl]) h
  obtain ⟨l₁, table, ha, htable, hdoc⟩ := run_heading h
  have hattribute : ∀ n, l'.document.attribute? n = l₁.document.attribute? n := by
    intro n
    rw [hdoc]
    rfl
  refine ⟨(accepts_of_applyEach ha).1, fun name v => ?_, ?_, run_isName h, hd.names, hd.kinds,
    hd.items⟩
  · rw [hattribute]
    exact attribute?_of_applyEach (declaredAttributes_nodup hs) hl ha name v
  · rw [hdoc]
    exact htable

theorem applyNamespaces_of_table {table : List (String × String)}
    (h : namespaceTable (declaredNamespaces source.schema) = .ok table) (l : Ledger) :
    ∃ l', applyNamespaces source l = (.ok (), l') ∧
      l'.document = { l.document with namespaces := table } ∧ l'.visited = l.visited := by
  let bound := l.emit (.namespacesBound table.length)
  refine ⟨{ bound with document := { l.document with namespaces := table } }, ?_, rfl, rfl⟩
  refine bind_lift_ok.2 ⟨table, h, ?_⟩
  rw [bind_emit_ok]
  rfl

theorem finishRoot_of_rules (hs : source.schema.IsRead)
    (hname : Xml.isName source.classifier.messageName = true)
    (hready : RootReady source w built l) {ns : Option String} {more : List Item}
    (hns : l.document.namespaceOf? "" = ns)
    (h : built = true ∧ more = [] ∨ built = false ∧ source.classifier.inlineRoot = true ∧
      ∃ e, BecomesRoot source ns e ∧ more = [.element e]) :
    ∃ w' l', finishRoot source w built l = (.ok w', l') ∧
      l'.document = l.document.addItems more ∧ w'.marked = w.marked ∧
      w'.items = (afterRoot source (WorkList.ofSchema source.schema)).items := by
  rcases h with ⟨rfl, rfl⟩ | ⟨rfl, hi, e, he, rfl⟩
  · exact ⟨w, l, by rw [finishRoot, if_pos rfl]; rfl, by simp, rfl, hready.taken rfl⟩
  · obtain ⟨hroot, hclear⟩ := hready.root rfl
    have hitems := hready.state.fresh rfl
    obtain ⟨l₁, hrun, hdoc, _⟩ := buildRoot_of_becomesRoot he hname hs hitems hns hroot hclear
    refine ⟨_, l₁, ?_, hdoc, marked_afterRoot source w, items_afterRoot hitems⟩
    rw [finishRoot, if_neg (by decide), if_pos hi]
    exact hrun

/-- Once every dispatched kind is marked and the root element built, nothing is left. -/
theorem root_drained (hs : source.schema.IsRead)
    (hkinds : ∀ k ∈ source.schema.keywords,
      k.kind ∈ documentKinds ++ [.type] ∨ k.kind.isDispatched = true ∨ k.kind ∈ rootKinds source)
    (hitems : w.items = (afterRoot source (WorkList.ofSchema source.schema)).items)
    (hkept : ∀ kind ∈ (rootWorkList source.schema).marked, kind ∈ w.marked)
    (hmarked : ∀ k ∈ source.schema.keywords, k.kind.isDispatched = true → k.kind ∈ w.marked) :
    w.unhandledNames = [] := by
  refine WorkList.drained_iff.2 fun k hk => ?_
  rw [hitems] at hk
  obtain ⟨hmem, hgone⟩ := afterRoot_gone hs (WorkList.items_ofSchema _) k hk
  rcases hkinds k hmem with hm | hd | hr
  · exact hkept _ (WorkList.mem_markAll.2 (.inl hm))
  · exact hmarked k hmem hd
  · exact absurd hr hgone

theorem rootReady_rootWorkList (hv : l.visited = []) :
    RootReady source (rootWorkList source.schema) false l := by
  have hclear : ∀ p, l.Clear p := by
    intro p q hq
    rw [hv] at hq
    cases hq
  refine ⟨rootState_rootWorkList source, nofun, fun c _ => hclear _, fun _ => ⟨?_, hclear _⟩⟩
  rw [hv]
  exact List.not_mem_nil

/-- **A run ends with what the schema yields.** -/
theorem run_of_yields (hs : source.schema.IsRead) (h : Yields source d) (hl : l.document = {})
    (hv : l.visited = []) : ∃ l', run source l = (.ok (), l') ∧ l'.document = d := by
  obtain ⟨l₁, ha⟩ := applyEach_of_accepts h.accepted l
  obtain ⟨items, built, hitems, hd⟩ := h.items
  -- `more` is the root element that no keyword gave, if there is one
  obtain ⟨more, hmore, hroot⟩ : ∃ more, d.items = items ++ more ∧
      (built = true ∧ more = [] ∨ built = false ∧ source.classifier.inlineRoot = true ∧
        ∃ e, BecomesRoot source (d.namespaceOf? "") e ∧ more = [.element e]) := by
    rcases hd with ⟨hb, hd⟩ | ⟨hb, hi, e, he, hd⟩
    · exact ⟨[], by rw [hd, List.append_nil], .inl ⟨hb, rfl⟩⟩
    · exact ⟨_, hd, .inr ⟨hb, hi, e, he, rfl⟩⟩
  obtain ⟨l₂, hn, hdoc₂, hv₂⟩ :=
    applyNamespaces_of_table h.table (l₁.advance .attributesApplied)
  have hvisited : l₂.visited = [] := hv₂.trans ((accepts_of_applyEach ha).2.trans hv)
  have hempty : l₂.document.items = [] := by
    rw [hdoc₂]
    exact (applyEach_items ha).trans (by rw [hl])
  have hns : l₂.document.namespaceOf? "" = d.namespaceOf? "" := by
    rw [hdoc₂]
    rfl
  have hnames : (l₂.document.declaredNames ++ items.filterMap Item.declaredName?).Nodup := by
    have hd := h.names
    rw [Document.declaredNames, hmore, List.filterMap_append] at hd
    rw [Document.declaredNames, hempty]
    exact hd.of_append_left
  obtain ⟨w, l₃, hrun, hdoc₃, hready, hkept, hmarked⟩ := dispatchEach_of_becomesItems hitems hs
    h.named (rootReady_rootWorkList (l := (l₂.advance .namespacesApplied).advance
      .dispatchingKeywords) hvisited) rfl (fun _ hk => hk) hns hnames
  have hdoc₃' : l₃.document = l₂.document.addItems items := hdoc₃
  obtain ⟨w', l₄, hfinish, hdoc₄, hsame, hleft⟩ := finishRoot_of_rules hs h.named hready
    (by rw [hdoc₃']; exact hns) hroot
  have hdrained := root_drained hs h.kinds hleft (hsame ▸ hkept) (hsame ▸ hmarked)
  refine ⟨l₄.advance .rootBuilt, ?_, ?_⟩
  · unfold run
    refine bind_ok.2 ⟨(), l₁, ha, ?_⟩
    rw [bind_advance_ok]
    refine bind_ok.2 ⟨(), l₂, hn, ?_⟩
    rw [bind_advance_ok, bind_advance_ok]
    refine bind_ok.2 ⟨_, l₃, hrun, bind_ok.2 ⟨w', l₄, hfinish, ?_⟩⟩
    rw [bind_advance_ok]
    exact lift_ok.2 ⟨checkDrained_ok.2 hdrained, rfl⟩
  · have hfinal : (l₄.advance .rootBuilt).document =
        { l₁.document with namespaces := d.namespaces, items := d.items } := by
      change l₄.document = _
      rw [hdoc₄, hdoc₃', Document.addItems_addItems, ← hmore, Document.addItems, hempty, hdoc₂]
      rfl
    rw [hfinal]
    refine eq_of_parts (fun n => ?_) rfl rfl
    have hset := attribute?_of_applyEach (declaredAttributes_nodup hs) hl ha n
    exact Option.ext fun v => (hset v).trans (h.attributes n v).symm

end Conversion

/-- **A conversion ends with a document exactly if the schema yields it.** -/
theorem convertJson_ok_iff {j : Json} {classifier : Classifier} {options : Options} {d : Document}
    (hj : j.Distinct) :
    convertJson j classifier options = .ok d ↔
      ∃ s, Schema.ofJson? j = .ok s ∧ Yields ⟨s, classifier, options⟩ d := by
  constructor
  · intro h
    obtain ⟨s, hs, l, l', hl, hrun, rfl⟩ := convertJson_run h
    have hread : (⟨s, classifier, options⟩ : Source).schema.IsRead := ⟨_, _, hj, hs⟩
    exact ⟨s, hs, yields_of_run hread hl hrun⟩
  · rintro ⟨s, hs, h⟩
    have hread : s.IsRead := ⟨_, _, hj, hs⟩
    obtain ⟨l', hrun, hd⟩ := run_of_yields hread h (l := begun classifier) rfl rfl
    rw [convertJson_eq hs, hrun, ← hd]
    rfl

end XsdSynthesis
