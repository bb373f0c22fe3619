import XsdSynthesis.Proofs.Heading
import XsdSynthesis.Proofs.Items

/-!
# XsdSynthesis.Proofs.Document

A conversion follows the rules. `RootState` is what holds between two keywords of the root: which of
them are left, and which kinds are marked. `dispatch_ok` is the step and `dispatchEach_ok` the
run; `convertJson_ok` puts everything together: a document that comes out is what the rules make of
the schema, and every keyword of the root was marked or taken.
-/

namespace XsdSynthesis
namespace Conversion

open Xsd WorkList

variable {source : Source} {w w' : WorkList} {l l' : Ledger} {built built' : Bool} {k : Keyword}

/-! ## The keywords of the root -/

/-- What holds of the root's list before and after each keyword. -/
structure RootState (source : Source) (w : WorkList) (built : Bool) : Prop where
  fresh : built = false → w.items = source.schema.keywords
  left : ∀ k ∈ source.schema.keywords, k.kind ∈ rootKinds source ∨ k ∈ w.items
  marks : ∀ kind ∈ w.marked, kind ∈ documentKinds ++ [.type] ∨ kind.isDispatched = true
  opened : built = true → .properties ∈ rootKinds source → .properties ∈ w.marked

theorem rootState_rootWorkList (source : Source) :
    RootState source (rootWorkList source.schema) false := by
  refine ⟨fun _ => by simp [rootWorkList], fun k hk => .inr ?_, fun kind hk => .inl ?_, nofun⟩
  · simpa [rootWorkList] using hk
  · rcases mem_markAll.1 hk with hk | hk
    · exact hk
    · cases hk

theorem rootKinds_dispatched {kind : Kind} (h : kind ∈ rootKinds source)
    (hd : kind.isDispatched = true) : kind = .properties := by
  unfold rootKinds at h
  split at h
  · split at h
    · simp only [List.mem_cons, List.not_mem_nil, or_false] at h
      rcases h with rfl | rfl | rfl
      · cases hd
      · cases hd
      · rfl
    · simp only [List.mem_cons, List.not_mem_nil, or_false] at h
      rcases h with rfl | rfl
      · cases hd
      · cases hd
  · cases h

/-- A keyword that is taken where it stands is still there when its turn comes. -/
theorem RootState.pending (hs : RootState source w built) (hk : k ∈ source.schema.keywords)
    (hd : k.kind.isDispatched = true) (hm : k.kind ∉ w.marked) : w.isPending k.kind = true := by
  refine isPending_iff.2 ⟨hm, k, ?_, rfl⟩
  rcases hs.left k hk with hr | hi
  · have hp := rootKinds_dispatched hr hd
    cases hb : built with
    | false =>
      rw [hs.fresh hb]
      exact hk
    | true =>
      rw [hp] at hr hm
      exact absurd (hs.opened hb hr) hm
  · exact hi

theorem RootState.mark (hs : RootState source w built) {kind : Kind}
    (hd : kind.isDispatched = true) : RootState source (w.mark kind) built := by
  refine ⟨hs.fresh, hs.left, fun other ho => ?_, fun hb hr => ?_⟩
  · rcases List.mem_cons.1 ho with rfl | ho
    · exact .inr hd
    · exact hs.marks other ho
  · exact List.mem_cons_of_mem _ (hs.opened hb hr)

theorem isDispatched_of_describesRoot {kind : Kind} (h : kind.describesRoot = true) :
    kind.isDispatched = true := by
  cases kind with
  | combinator c => rfl
  | properties => rfl
  | _ => cases h

theorem combinators_ne_nil {s : Schema} {c : Combinator} {branches : List Schema}
    (h : .combinator c branches ∈ s.keywords) : s.combinators ≠ [] := by
  intro hn
  have hm : (c, branches) ∈ s.combinators := List.mem_filterMap.2 ⟨_, h, rfl⟩
  rw [hn] at hm
  cases hm

theorem RootState.build (hs : RootState source w false) (hk : k ∈ source.schema.keywords)
    (hd : k.kind.describesRoot = true) (hleft : (w.mark k.kind).Without (rootKinds source) w')
    (hc : source.classifier.inlineRoot = true → source.schema.combinators = []) :
    RootState source w' true := by
  have hs' := hs.mark (isDispatched_of_describesRoot hd)
  refine ⟨nofun, fun k' hk' => ?_, fun kind hm => ?_, fun _ hr => ?_⟩
  · refine hleft.items k' ?_
    rw [items_mark, hs.fresh rfl]
    exact hk'
  · rw [hleft.marked] at hm
    exact hs'.marks kind hm
  · rw [hleft.marked]
    have hi : source.classifier.inlineRoot = true := by
      by_contra hn
      rw [rootKinds, if_neg hn] at hr
      cases hr
    cases k with
    | combinator c branches => exact absurd (hc hi) (combinators_ne_nil hk)
    | properties entries => exact List.mem_cons_self
    | _ => cases hd

/-- What a handler adds, and how that continues what the rest of the keywords adds. -/
def Adds (source : Source) (l l' : Ledger) (w w' : WorkList) (built built' : Bool) (k : Keyword) :
    Prop :=
  ∃ new, l'.document = l.document.addItems new ∧
    (l.document.declaredNames.Nodup → l'.document.declaredNames.Nodup) ∧
    ∀ rest items final,
      BecomesItems source (l.document.namespaceOf? "") w'.marked built' rest items final →
      BecomesItems source (l.document.namespaceOf? "") w.marked built (k :: rest) (new ++ items)
        final

theorem adds_pass (h : k.kind ∈ w.marked ∨ k.kind.isDispatched = false) (l : Ledger) :
    Adds source l l w w built built k :=
  ⟨[], by simp, id, fun _ _ _ hrest => .pass h hrest⟩

theorem takeRoot_ok (hs : RootState source w built) (hk : k ∈ source.schema.keywords)
    (hd : k.kind.describesRoot = true) (hm : k.kind ∉ w.marked)
    (h : (if built then pure (w.mark k.kind, true)
      else do return (← buildRoot source (w.mark k.kind), true) : Conversion (WorkList × Bool)) l =
        (.ok (w', built'), l')) :
    RootState source w' built' ∧ Adds source l l' w w' built built' k := by
  cases built with
  | true =>
    obtain ⟨hpair, rfl⟩ := pure_ok.1 h
    cases hpair
    have hs' := hs.mark (isDispatched_of_describesRoot hd)
    exact ⟨hs', [], by simp, id, fun _ _ _ hrest => .again hm hd hrest⟩
  | false =>
    obtain ⟨w₁, l₁, hroot, h⟩ := bind_ok.1 h
    obtain ⟨hpair, rfl⟩ := pure_ok.1 h
    cases hpair
    have hfresh : (w.mark k.kind).items = source.schema.keywords := hs.fresh rfl
    obtain ⟨e, hbecomes, hc, hleft, hdoc⟩ := buildRoot_ok hfresh hroot
    refine ⟨hs.build hk hd hleft hc, [.element e], hdoc, fun hn => ?_, fun _ _ _ hrest => ?_⟩
    · rw [hdoc, Document.declaredNames_addItem rfl]
      exact hn
    · rw [hleft.marked] at hrest
      exact .root hm hd hbecomes hrest

/-- **One keyword of the root**: the state holds again, and the items follow the rules. -/
theorem dispatch_ok (hs : RootState source w built) (hk : k ∈ source.schema.keywords)
    (h : dispatch source w built k l = (.ok (w', built'), l')) :
    RootState source w' built' ∧ Adds source l l' w w' built built' k := by
  unfold dispatch at h
  by_cases hp : w.isPending k.kind = true
  · rw [if_pos hp] at h
    have hm := (isPending_iff.1 hp).1
    cases k with
    | info entries =>
      obtain ⟨a, ha, h⟩ := bind_lift_ok.1 h
      rw [bind_addItem_ok] at h
      obtain ⟨hpair, rfl⟩ := pure_ok.1 h
      cases hpair
      refine ⟨hs.mark rfl, [.documentation a], rfl, fun hn => ?_, fun _ _ _ hrest =>
        .info hm ha hrest⟩
      change (l.document.addItems [.documentation a]).declaredNames.Nodup
      rw [Document.declaredNames_addItem rfl]
      exact hn
    | definitions c entries =>
      obtain ⟨_, l₁, hd, h⟩ := bind_ok.1 h
      obtain ⟨hpair, rfl⟩ := pure_ok.1 h
      cases hpair
      obtain ⟨made, hmade, hdoc, hnodup⟩ := defineEach_ok hd
      exact ⟨hs.mark rfl, made, hdoc, hnodup, fun _ _ _ hrest => .definitions hm hmade hrest⟩
    | combinator c branches => exact takeRoot_ok hs hk rfl hm h
    | properties entries => exact takeRoot_ok hs hk rfl hm h
    | _ =>
      obtain ⟨hpair, rfl⟩ := pure_ok.1 h
      cases hpair
      exact ⟨hs, adds_pass (.inr rfl) _⟩
  · rw [if_neg hp] at h
    obtain ⟨hpair, rfl⟩ := pure_ok.1 h
    cases hpair
    refine ⟨hs, adds_pass ?_ _⟩
    by_cases hm : k.kind ∈ w.marked
    · exact .inl hm
    · right
      by_contra hd
      exact hp (hs.pending hk (by simpa using hd) hm)

/-- **All keywords of the root**, by induction on those that are left. -/
theorem dispatchEach_ok {ks : List Keyword} (hs : RootState source w built)
    (hks : ∀ k ∈ ks, k ∈ source.schema.keywords)
    (h : dispatchEach source w built ks l = (.ok (w', built'), l')) :
    RootState source w' built' ∧ ∃ items, l'.document = l.document.addItems items ∧
      (l.document.declaredNames.Nodup → l'.document.declaredNames.Nodup) ∧
      BecomesItems source (l.document.namespaceOf? "") w.marked built ks items built' := by
  induction ks generalizing w built l with
  | nil =>
    simp only [dispatchEach] at h
    obtain ⟨hpair, rfl⟩ := pure_ok.1 h
    cases hpair
    exact ⟨hs, [], by simp, id, .nil⟩
  | cons k rest ih =>
    simp only [dispatchEach] at h
    obtain ⟨⟨w₁, built₁⟩, l₁, hd, h⟩ := bind_ok.1 h
    obtain ⟨hk, hrest⟩ := List.forall_mem_cons.1 hks
    obtain ⟨hs₁, new, hdoc, hnodup, hgoes⟩ := dispatch_ok hs hk hd
    obtain ⟨hs', items, hdoc', hnodup', hitems⟩ := ih hs₁ hrest h
    rw [hdoc, Document.namespaceOf?_addItems] at hitems
    refine ⟨hs', new ++ items, ?_, fun hn => hnodup' (hnodup hn), hgoes _ _ _ hitems⟩
    rw [hdoc', hdoc, Document.addItems_addItems]

/-! ## The whole conversion -/

/-- What a document is made of: its heading, and the items that the rules give. -/
structure BecomesDocument (source : Source) (d : Document) : Prop where
  attributes : ((declaredAttributes source.schema).map Prod.fst).Nodup →
    ∀ a ∈ declaredAttributes source.schema, a.1 ∈ attributeNames →
      ∃ v, attributeValue? a.1 a.2 = some v ∧ d.attribute? a.1 = some v
  strict : source.options.strictAttributes = true →
    ∀ a ∈ declaredAttributes source.schema, a.1 ∈ attributeNames
  namespaces : declaredNamespaces source.schema <+: d.namespaces
  names : d.declaredNames.Nodup
  kinds : ∀ k ∈ source.schema.keywords,
    k.kind ∈ documentKinds ++ [.type] ∨ k.kind.isDispatched = true ∨ k.kind ∈ rootKinds source
  items : ∃ items built,
    BecomesItems source (d.namespaceOf? "") (rootWorkList source.schema).marked false
      source.schema.keywords items built ∧
    (built = true ∧ d.items = items ∨ built = false ∧ source.classifier.inlineRoot = true ∧
      ∃ e, BecomesRoot source (d.namespaceOf? "") e ∧ d.items = items ++ [.element e])

theorem finishRoot_ok (hs : RootState source w built)
    (h : finishRoot source w built l = (.ok w', l')) :
    w.Without (rootKinds source) w' ∧ ∃ more, l'.document = l.document.addItems more ∧
      (built = true ∧ more = [] ∨ built = false ∧ source.classifier.inlineRoot = true ∧
        ∃ e, BecomesRoot source (l.document.namespaceOf? "") e ∧ more = [.element e]) := by
  unfold finishRoot at h
  cases hb : built with
  | true =>
    rw [if_pos hb] at h
    obtain ⟨rfl, rfl⟩ := pure_ok.1 h
    exact ⟨⟨rfl, fun _ hk => .inr hk⟩, [], by simp, .inl ⟨rfl, rfl⟩⟩
  | false =>
    rw [if_neg (by simp [hb])] at h
    split at h
    · rename_i hi
      obtain ⟨e, he, _, hleft, hdoc⟩ := buildRoot_ok (hs.fresh hb) h
      exact ⟨hleft, _, hdoc, .inr ⟨rfl, hi, e, he, rfl⟩⟩
    · exact absurd h stop_ok

theorem RootState.kinds (hs : RootState source w built) (hleft : w.Without (rootKinds source) w')
    (h : w'.unhandledNames = []) : ∀ k ∈ source.schema.keywords,
      k.kind ∈ documentKinds ++ [.type] ∨ k.kind.isDispatched = true ∨
        k.kind ∈ rootKinds source := by
  intro k hk
  rcases hs.left k hk with hr | hi
  · exact .inr (.inr hr)
  · rcases kind_of_drained hleft h k hi with hm | hr
    · rcases hs.marks k.kind hm with hm | hd
      · exact .inl hm
      · exact .inr (.inl hd)
    · exact .inr (.inr hr)

/-- **A conversion follows the rules.** -/
theorem run_ok (hfresh : l.document.items = []) (h : run source l = (.ok (), l')) :
    BecomesDocument source l'.document := by
  unfold run at h
  obtain ⟨_, l₁, ha, h⟩ := bind_ok.1 h
  rw [bind_advance_ok] at h
  obtain ⟨_, l₂, hn, h⟩ := bind_ok.1 h
  rw [bind_advance_ok, bind_advance_ok] at h
  obtain ⟨⟨w, built⟩, l₃, hd, h⟩ := bind_ok.1 h
  obtain ⟨w', l₄, hf, h⟩ := bind_ok.1 h
  rw [bind_advance_ok] at h
  obtain ⟨hdrained, rfl⟩ := lift_ok.1 h
  obtain ⟨hdeclared, hitems, hsame⟩ := applyNamespaces_ok hn
  have hempty : l₂.document.items = [] := hitems.trans ((applyEach_items ha).trans hfresh)
  obtain ⟨hs, items, hdoc, hnodup, hbecomes⟩ :=
    dispatchEach_ok (rootState_rootWorkList source) (fun _ hk => hk) hd
  obtain ⟨hleft, more, hlast, hroot⟩ := finishRoot_ok hs hf
  have hkinds := hs.kinds hleft (checkDrained_ok.1 hdrained)
  have hnone : l₂.document.declaredNames.Nodup := by simp [Document.declaredNames, hempty]
  -- only items were added since the heading was made
  rw [hdoc, Document.addItems_addItems] at hlast
  rw [hdoc, Document.namespaceOf?_addItems] at hroot
  have hfinal : (l₄.advance .rootBuilt).document = l₂.document.addItems (items ++ more) := hlast
  rw [hfinal]
  refine ⟨fun hn a hm hk => ?_, fun hs => applyEach_strict hs ha, hdeclared, ?_, hkinds, items,
    built, hbecomes, ?_⟩
  · obtain ⟨v, hv, hset⟩ := (applyEach_ok hn ha).1 a hm hk
    exact ⟨v, hv, (hsame a.1).trans hset⟩
  · have hn := hnodup hnone
    have hmore : more.filterMap Item.declaredName? = [] := by
      rcases hroot with ⟨_, rfl⟩ | ⟨_, _, e, _, rfl⟩ <;> rfl
    rw [hdoc, Document.declaredNames_addItems] at hn
    rw [Document.declaredNames_addItems, List.filterMap_append, hmore, List.append_nil]
    exact hn
  · rw [Document.items_addItems, hempty, List.nil_append]
    rcases hroot with ⟨hb, rfl⟩ | ⟨hb, hi, e, he, rfl⟩
    · exact .inl ⟨hb, List.append_nil _⟩
    · exact .inr ⟨hb, hi, e, he, rfl⟩

/-! ## The whole conversion -/

/-- The ledger that a conversion begins with. -/
def begun (classifier : Classifier) : Ledger :=
  { log := [.converting classifier.messageName classifier.inlineRoot] }

/-- A conversion of a document that is read as a schema is a run. -/
theorem convertJson_eq {j : Json} {s : Schema} (hs : Schema.ofJson? j = .ok s)
    (classifier : Classifier) (options : Options) :
    convertJson j classifier options =
      (run ⟨s, classifier, options⟩ (begun classifier)).1.map fun _ =>
        (run ⟨s, classifier, options⟩ (begun classifier)).2.document := by
  unfold convertJson tracedJson
  rw [hs]
  simp only [traced, Converter.convert, Converter.stage, if_true, begun]
  rcases run ⟨s, classifier, options⟩ _ with ⟨outcome, l⟩
  cases outcome <;> rfl

/-- What a document that comes out was read and run from. -/
theorem convertJson_run {j : Json} {classifier : Classifier} {options : Options} {d : Document}
    (h : convertJson j classifier options = .ok d) :
    ∃ s, Schema.ofJson? j = .ok s ∧ ∃ l l', l.document = {} ∧
      run ⟨s, classifier, options⟩ l = (.ok (), l') ∧ l'.document = d := by
  cases hs : Schema.ofJson? j with
  | error e =>
    unfold convertJson tracedJson at h
    rw [hs] at h
    cases h
  | ok s =>
    rw [convertJson_eq hs] at h
    rcases hr : run ⟨s, classifier, options⟩ (begun classifier) with ⟨outcome, l'⟩
    rw [hr] at h
    cases outcome with
    | error e => cases h
    | ok u =>
      cases h
      exact ⟨s, rfl, _, l', rfl, hr, rfl⟩

theorem convertJson_ok {j : Json} {classifier : Classifier} {options : Options} {d : Document}
    (h : convertJson j classifier options = .ok d) :
    ∃ s, Schema.ofJson? j = .ok s ∧ BecomesDocument ⟨s, classifier, options⟩ d := by
  obtain ⟨s, hs, l, l', hl, hrun, rfl⟩ := convertJson_run h
  exact ⟨s, hs, run_ok (by rw [hl]) hrun⟩

/-! ## The name of the root element -/

theorem buildRoot_isName (h : buildRoot source w l = (.ok w', l')) :
    Xml.isName source.classifier.messageName = true := by
  unfold buildRoot at h
  obtain ⟨_, hname, _⟩ := bind_lift_ok.1 h
  exact checkName_ok.1 hname

theorem takeRoot_isName (hm : built = false) {marked : WorkList}
    (h : (if built then pure (marked, true)
      else do return (← buildRoot source marked, true) : Conversion (WorkList × Bool)) l =
        (.ok (w', built'), l')) : Xml.isName source.classifier.messageName = true := by
  subst hm
  obtain ⟨w₁, l₁, hroot, _⟩ := bind_ok.1 h
  exact buildRoot_isName hroot

theorem dispatch_isName (hm : built = false) (hb : built' = true)
    (h : dispatch source w built k l = (.ok (w', built'), l')) :
    Xml.isName source.classifier.messageName = true := by
  unfold dispatch at h
  split at h
  · cases k with
    | combinator c branches => exact takeRoot_isName hm h
    | properties entries => exact takeRoot_isName hm h
    | info entries =>
      obtain ⟨a, _, h⟩ := bind_lift_ok.1 h
      rw [bind_addItem_ok] at h
      obtain ⟨hpair, _⟩ := pure_ok.1 h
      cases hpair
      cases hm.symm.trans hb
    | definitions c entries =>
      obtain ⟨_, l₁, _, h⟩ := bind_ok.1 h
      obtain ⟨hpair, _⟩ := pure_ok.1 h
      cases hpair
      cases hm.symm.trans hb
    | _ =>
      obtain ⟨hpair, _⟩ := pure_ok.1 h
      cases hpair
      cases hm.symm.trans hb
  · obtain ⟨hpair, _⟩ := pure_ok.1 h
    cases hpair
    cases hm.symm.trans hb

/-- Where the root element came about, the message name is a name. -/
theorem dispatchEach_isName {ks : List Keyword} (hm : built = false) (hb : built' = true)
    (h : dispatchEach source w built ks l = (.ok (w', built'), l')) :
    Xml.isName source.classifier.messageName = true := by
  induction ks generalizing w built l with
  | nil =>
    obtain ⟨hpair, _⟩ := pure_ok.1 h
    cases hpair
    cases hm.symm.trans hb
  | cons k rest ih =>
    obtain ⟨⟨w₁, built₁⟩, l₁, hd, h⟩ := bind_ok.1 h
    cases hb₁ : built₁ with
    | true => exact dispatch_isName hm hb₁ hd
    | false => exact ih hb₁ h

/-- **A conversion succeeds under a message name only.** -/
theorem run_isName (h : run source l = (.ok (), l')) :
    Xml.isName source.classifier.messageName = true := by
  unfold run at h
  obtain ⟨_, l₁, _, h⟩ := bind_ok.1 h
  rw [bind_advance_ok] at h
  obtain ⟨_, l₂, _, h⟩ := bind_ok.1 h
  rw [bind_advance_ok, bind_advance_ok] at h
  obtain ⟨⟨w, built⟩, l₃, hd, h⟩ := bind_ok.1 h
  obtain ⟨w', l₄, hf, _⟩ := bind_ok.1 h
  cases hb : built with
  | true => exact dispatchEach_isName rfl hb hd
  | false =>
    rw [hb] at hf
    unfold finishRoot at hf
    split at hf
    · rename_i htrue
      cases htrue
    · split at hf
      · exact buildRoot_isName hf
      · exact absurd hf stop_ok

end Conversion
end XsdSynthesis
