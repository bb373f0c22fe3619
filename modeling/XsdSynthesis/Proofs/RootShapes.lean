import XsdSynthesis.Proofs.Failure
import XsdSynthesis.Proofs.ItemShape
import XsdSynthesis.Proofs.KeyOrder
import XsdSynthesis.Proofs.NamespaceTable
import XsdSynthesis.Proofs.Resolution

/-!
# XsdSynthesis.Proofs.RootShapes

Which roots are converted. The root element is built in the midst of the other keywords, so its part is
told apart from theirs: `handlers` is a conversion without it, `HandlersSucceed` says that nothing
else is in the way. If then the root is not inline, the conversion ends as the root's own shape
does: with a document (`yields_of_handlers`), or with the problem that the shape has, wherever the
keyword stands that brings it about (`run_refused`).
-/

namespace XsdSynthesis

open Xsd Conversion

namespace Conversion

variable {source : Source} {w w' : WorkList} {l l' l₁ : Ledger} {built : Bool} {k : Keyword}
  {ks : List Keyword} {s : Schema} {c : Combinator} {r : String} {e : Problem}

/-! ## The shape of the root -/

/-- A root wraps a reference: it has no properties, and one combinator with one branch, which holds
the reference and nothing else. -/
structure Wraps (s : Schema) (c : Combinator) (r : String) : Prop where
  properties : s.get? .properties = none
  combinator : s.combinators = [(c, [.mk [.ref r]])]

theorem wrappedTypeName_of_wraps (h : Wraps s c r) (ns : Option String) :
    wrappedTypeName s ns = do
      return .plain (← resolve s ns (Pointer.root.append [c.name, "0"]) r) := by
  have hbranch : wrappedBranch s = .ok (Pointer.root.append [c.name, "0"], .mk [.ref r]) := by
    rw [wrappedBranch, h.properties, if_neg (by decide), h.combinator]
  rw [wrappedTypeName, hbranch]
  rfl

/-- There is one branch to look at, or the root is at fault already. -/
theorem wrappedBranch_cases (s : Schema) :
    (∃ f, wrappedBranch s = .error (.root f)) ∨
      ∃ c branch, s.get? .properties = none ∧ s.combinators = [(c, [branch])] ∧
        wrappedBranch s = .ok (Pointer.root.append [c.name, "0"], branch) := by
  unfold wrappedBranch
  split
  · exact .inl ⟨_, rfl⟩
  · rename_i hp
    split
    · exact .inl ⟨_, rfl⟩
    · rename_i c branch hc
      exact .inr ⟨c, branch, by simpa using hp, hc, rfl⟩
    · exact .inl ⟨_, rfl⟩
    · exact .inl ⟨_, rfl⟩

/-- A root that wraps no reference is at fault as a root, whatever the default namespace is. -/
theorem wrappedTypeName_of_not_wraps (h : ¬ ∃ c r, Wraps s c r) (ns : Option String) :
    ∃ f, wrappedTypeName s ns = .error (.root f) := by
  unfold wrappedTypeName
  rcases wrappedBranch_cases s with ⟨f, hf⟩ | ⟨c, branch, hp, hc, hbranch⟩
  · exact ⟨f, Checks.bind_error.2 (.inl hf)⟩
  · rw [hbranch]
    cases hr : branch.soleReference? with
    | some r =>
      rw [eq_of_soleReference? hr] at hc
      exact absurd ⟨c, r, hp, hc⟩ h
    | none =>
      refine ⟨.branchNotReference (Pointer.root.append [c.name, "0"]),
        Checks.bind_error.2 (.inr ⟨_, rfl, ?_⟩)⟩
      simp only [hr]

/-- A root that nothing describes wraps nothing. -/
theorem wrappedTypeName_of_plain (h : ∀ k ∈ s.keywords, k.kind.describesRoot = false)
    (ns : Option String) : wrappedTypeName s ns = .error (.root .noWrapper) := by
  have hp : s.get? .properties = none := by
    refine List.find?_eq_none.2 fun k hk heq => ?_
    have hplain := h k hk
    rw [beq_iff_eq.1 heq] at hplain
    cases hplain
  have hc : s.combinators = [] := by
    refine List.filterMap_eq_nil_iff.2 fun k hk => ?_
    cases k with
    | combinator c branches => cases h _ hk
    | _ => rfl
  have hbranch : wrappedBranch s = .error (.root .noWrapper) := by
    rw [wrappedBranch, hp, if_neg (by decide), hc]
  exact Checks.bind_error.2 (.inl hbranch)

/-! ## The other handlers -/

/-- What a keyword of the root does, unless it describes the root element. -/
def handle (source : Source) : Keyword → Conversion Unit
  | .info entries => do addItem (.documentation (← documentationOf entries))
  | .definitions c entries => defineEach source c entries
  | _ => pure ()

def handleEach (source : Source) : List Keyword → Conversion Unit
  | [] => pure ()
  | k :: rest => do
    handle source k
    handleEach source rest

/-- A conversion without the root element: the attributes and namespaces of the document, and then
what the keywords of the root do apart from it. -/
def handlers (source : Source) : Conversion Unit := do
  applyAttributes source
  advance .attributesApplied
  applyNamespaces source
  advance .namespacesApplied
  advance .dispatchingKeywords
  handleEach source source.schema.keywords

/-- The root element apart, everything in a schema is handled, and no default namespace is bound. -/
def HandlersSucceed (source : Source) : Prop :=
  ∃ l, handlers source (begun source.classifier) = (.ok (), l) ∧ "" ∉ l.document.namespaces.map Prod.fst

theorem handle_ok (h : handle source k l = (.ok (), l')) :
    ∃ new, Contributes source (l.document.namespaceOf? "") k new ∧
      l'.document = l.document.addItems new ∧
      (l.document.declaredNames.Nodup → l'.document.declaredNames.Nodup) := by
  cases k with
  | info entries =>
    obtain ⟨a, ha, h⟩ := bind_lift_ok.1 h
    obtain rfl := addItem_ok.1 h
    refine ⟨_, .info ha, rfl, fun hn => ?_⟩
    change (l.document.addItems [.documentation a]).declaredNames.Nodup
    rw [Document.declaredNames_addItem rfl]
    exact hn
  | definitions c entries =>
    obtain ⟨made, hmade, hdoc, hnames⟩ := defineEach_ok h
    exact ⟨made, .definitions hmade, hdoc, hnames⟩
  | combinator c branches =>
    obtain ⟨_, rfl⟩ := pure_ok.1 h
    exact ⟨[], .other (.inr rfl), by simp, id⟩
  | properties entries =>
    obtain ⟨_, rfl⟩ := pure_ok.1 h
    exact ⟨[], .other (.inr rfl), by simp, id⟩
  | _ =>
    obtain ⟨_, rfl⟩ := pure_ok.1 h
    exact ⟨[], .other (.inl rfl), by simp, id⟩

theorem handleEach_ok (h : handleEach source ks l = (.ok (), l')) :
    ∃ news, List.Forall₂ (Contributes source (l.document.namespaceOf? "")) ks news ∧
      l'.document = l.document.addItems news.flatten ∧
      (l.document.declaredNames.Nodup → l'.document.declaredNames.Nodup) := by
  induction ks generalizing l with
  | nil =>
    obtain ⟨_, rfl⟩ := pure_ok.1 h
    exact ⟨[], .nil, by simp, id⟩
  | cons k rest ih =>
    obtain ⟨_, l₁, hk, h⟩ := bind_ok.1 h
    obtain ⟨new, hnew, hdoc, hnames⟩ := handle_ok hk
    obtain ⟨news, hnews, hdoc', hnames'⟩ := ih h
    rw [hdoc, Document.namespaceOf?_addItems] at hnews
    refine ⟨new :: news, .cons hnew hnews, ?_, fun hn => hnames' (hnames hn)⟩
    rw [hdoc', hdoc, Document.addItems_addItems, List.flatten_cons]

/-- The parts of a conversion without the root element. -/
theorem handlers_ok (h : handlers source l = (.ok (), l')) :
    ∃ l₁ l₂, applyAttributes source l = (.ok (), l₁) ∧
      applyNamespaces source (l₁.advance .attributesApplied) = (.ok (), l₂) ∧
      handleEach source source.schema.keywords
        ((l₂.advance .namespacesApplied).advance .dispatchingKeywords) = (.ok (), l') := by
  obtain ⟨_, l₁, ha, h⟩ := bind_ok.1 h
  rw [bind_advance_ok] at h
  obtain ⟨_, l₂, hn, h⟩ := bind_ok.1 h
  rw [bind_advance_ok, bind_advance_ok] at h
  exact ⟨l₁, l₂, ha, hn, h⟩

/-! ## Roots that are converted -/

/-- The kinds that are taken although the root is not inline: those of the document as a whole, and those
that are dispatched. -/
theorem taken_iff (kind : Kind) :
    kind ∈ documentKinds ++ [.type] ∨ kind.isDispatched = true ↔
      kind ∉ [Kind.required, .ref, .asAttribute, .unknown] := by
  cases kind with
  | definitions c => simp [Kind.isDispatched]
  | combinator c => simp [Kind.isDispatched, Kind.describesRoot]
  | _ => decide

theorem becomesRoot_of_wraps {target : Container} {name : String}
    (hi : source.classifier.inlineRoot = false) (hw : Wraps source.schema c r)
    (ht : source.schema.target? r = some (target, name)) :
    BecomesRoot source none (.mk source.classifier.messageName none (some (.plain name)) none) :=
  .wrapped hi hw.properties hw.combinator ht rfl

theorem exists_describing (h : Wraps s c r) : ∃ k ∈ s.keywords, k.kind.describesRoot = true := by
  have hm : (c, [Schema.mk [.ref r]]) ∈ s.combinators := by
    rw [h.combinator]
    exact List.mem_singleton.2 rfl
  obtain ⟨k, hk, hbranches⟩ := List.mem_filterMap.1 hm
  refine ⟨k, hk, ?_⟩
  cases k with
  | combinator c' branches => rfl
  | _ => cases hbranches

/-- **A root that wraps a definition yields a document**, if all that the other handlers meet is handled
and every keyword is of a kind that someone takes. -/
theorem yields_of_handlers {target : Container} {name : String} (hread : source.schema.IsRead)
    (hi : source.classifier.inlineRoot = false)
    (hname : Xml.isName source.classifier.messageName = true) (hl : l.document = {})
    (h : handlers source l = (.ok (), l')) (hfree : "" ∉ l'.document.namespaces.map Prod.fst)
    (hw : Wraps source.schema c r) (ht : source.schema.target? r = some (target, name))
    (hkinds : ∀ k ∈ source.schema.keywords,
      k.kind ∉ [Kind.required, .ref, .asAttribute, .unknown]) :
    ∃ d, Yields source d := by
  obtain ⟨l₁, l₂, ha, hn, hhandled⟩ := handlers_ok h
  obtain ⟨table, htable, rfl⟩ := applyNamespaces_eq_ok.1 hn
  obtain ⟨news, hnews, hdoc, hnodup⟩ := handleEach_ok hhandled
  have hempty : l₁.document.items = [] := (applyEach_items ha).trans (by rw [hl])
  have hns : l'.document.namespaceOf? "" = none := Tables.lookup_eq_none.2 hfree
  rw [hdoc, Document.namespaceOf?_addItems] at hns
  rw [hns] at hnews
  obtain ⟨k, hk, hd⟩ := exists_describing hw
  obtain ⟨items, hitems, hperm⟩ := becomesItems_of_contributions hnews
    (.made hk hd (becomesRoot_of_wraps hi hw ht)) (unmarked_rootWorkList source.schema)
    (apart_of_isRead hread)
  refine ⟨{ l₁.document with namespaces := table, items := items },
    (accepts_of_applyEach ha).1, fun name v => ?_, htable, hname, ?_, fun k hk => ?_,
    items, true, ?_, .inl ⟨rfl, rfl⟩⟩
  · exact attribute?_of_applyEach (declaredAttributes_nodup hread) hl ha name v
  · have hnone : l₁.document.declaredNames = [] := by
      rw [Document.declaredNames, hempty, List.filterMap_nil]
    have hnames : (news.flatten.filterMap Item.declaredName?).Nodup := by
      have hall := hnodup (hnone ▸ List.nodup_nil)
      rw [hdoc, Document.declaredNames_addItems] at hall
      exact hall.of_append_right
    -- the root element is declared as no type
    have hroot := hperm.filterMap Item.declaredName?
    rw [List.filterMap_append, List.filterMap_cons_none rfl, List.filterMap_nil,
      List.append_nil] at hroot
    exact hroot.nodup_iff.2 hnames
  · exact ((taken_iff _).2 (hkinds k hk)).imp_right .inl
  · change BecomesItems source (table.lookup "") _ _ _ _ _
    have htablens : table.lookup "" = none := hns
    rw [htablens]
    exact hitems

/-! ## Roots that are refused -/

theorem buildRoot_refused (hi : source.classifier.inlineRoot = false)
    (hname : Xml.isName source.classifier.messageName = true)
    (he : wrappedTypeName source.schema none = .error e)
    (hns : l.document.namespaceOf? "" = none) : buildRoot source w l = (.error e, l) := by
  have hroot : wrappedRoot source l = (.error e, l) := by
    unfold wrappedRoot
    refine bind_error.2 (.inr ⟨none, l, ?_, ?_⟩)
    · rw [← hns]
      rfl
    · rw [he]
      rfl
  unfold buildRoot
  refine bind_error.2 (.inr ⟨(), l, lift_ok.2 ⟨checkName_ok.2 hname, rfl⟩, ?_⟩)
  dsimp only
  rw [if_neg (by simp [hi]), map_eq_pure_bind]
  exact bind_error.2 (.inl (bind_error.2 (.inl hroot)))

/-- What a keyword leaves to those after it. -/
def passed (w : WorkList) (k : Keyword) : WorkList :=
  if k.kind.isDispatched then w.mark k.kind else w

theorem RootState.passed (hs : RootState source w built) (k : Keyword) :
    RootState source (passed w k) built := by
  unfold Conversion.passed
  split
  · rename_i hd
    exact hs.mark hd
  · exact hs

theorem unmarked_passed {rest : List Keyword} (hu : Unmarked w.marked (k :: rest))
    (ha : Apart (k :: rest)) : Unmarked (passed w k).marked rest := by
  unfold passed
  split
  · rename_i hd
    exact unmarked_tail hu ha hd
  · exact (List.forall_mem_cons.1 hu).2

/-- In a conversion a keyword that does not describe the root does what it does without the root. -/
theorem dispatch_of_handle (hs : RootState source w built) (hk : k ∈ source.schema.keywords)
    (hfresh : k.kind.isDispatched = true → k.kind ∉ w.marked)
    (hplain : k.kind.describesRoot = false) (h : handle source k l = (.ok (), l')) :
    dispatch source w built k l = (.ok (passed w k, built), l') := by
  cases hd : k.kind.isDispatched with
  | false =>
    have hsame : l = l' := by
      cases k with
      | info entries => cases hd
      | definitions c entries => cases hd
      | _ => exact (pure_ok.1 h).2
    rw [dispatch_pass (.inr hd), passed, if_neg (by simp [hd]), hsame]
  | true =>
    have hpending := hs.pending hk hd (hfresh hd)
    rw [passed, if_pos hd]
    cases k with
    | info entries =>
      obtain ⟨a, ha, h⟩ := bind_lift_ok.1 h
      unfold dispatch
      rw [if_pos hpending]
      exact bind_lift_ok.2 ⟨a, ha, bind_ok.2 ⟨(), l', h, pure_ok.2 ⟨rfl, rfl⟩⟩⟩
    | definitions c entries =>
      unfold dispatch
      rw [if_pos hpending]
      exact bind_ok.2 ⟨(), l', h, pure_ok.2 ⟨rfl, rfl⟩⟩
    | combinator c branches => cases hplain
    | properties entries => cases hplain
    | _ => cases hd

/-- **The keywords of a root that is refused**, by induction on those left: the first that describes the
root ends the conversion, and without one all are handled and no root element is built. -/
theorem dispatchEach_refused (hi : source.classifier.inlineRoot = false)
    (hname : Xml.isName source.classifier.messageName = true)
    (he : wrappedTypeName source.schema none = .error e) (hs : RootState source w false)
    (hks : ∀ k ∈ ks, k ∈ source.schema.keywords) (hu : Unmarked w.marked ks) (ha : Apart ks)
    (hns : l.document.namespaceOf? "" = none) (h : handleEach source ks l = (.ok (), l')) :
    (∃ m, dispatchEach source w false ks l = (.error e, m)) ∨
      (∀ k ∈ ks, k.kind.describesRoot = false) ∧
        ∃ w' m, dispatchEach source w false ks l = (.ok (w', false), m) := by
  induction ks generalizing w l with
  | nil => exact .inr ⟨nofun, w, l, pure_ok.2 ⟨rfl, rfl⟩⟩
  | cons k rest ih =>
    obtain ⟨hk, hrest⟩ := List.forall_mem_cons.1 hks
    have hfresh := hu k List.mem_cons_self
    cases hd : k.kind.describesRoot with
    | true =>
      have hdispatched := isDispatched_of_describesRoot hd
      refine .inl ⟨l, bind_error.2 (.inl ?_)⟩
      rw [dispatch_root (hs.pending hk hdispatched (hfresh hdispatched)) hd]
      exact bind_error.2 (.inl (buildRoot_refused hi hname he hns))
    | false =>
      obtain ⟨_, l₁, hhandled, h⟩ := bind_ok.1 h
      have hrun := dispatch_of_handle hs hk hfresh hd hhandled
      obtain ⟨new, _, hdoc, _⟩ := handle_ok hhandled
      have hns₁ : l₁.document.namespaceOf? "" = none := by
        rw [hdoc, Document.namespaceOf?_addItems, hns]
      rcases ih (hs.passed k) hrest (unmarked_passed hu ha) (List.pairwise_cons.1 ha).2 hns₁ h with
        ⟨m, hm⟩ | ⟨hplain, w', m, hm⟩
      · exact .inl ⟨m, bind_error.2 (.inr ⟨_, _, hrun, hm⟩)⟩
      · exact .inr ⟨List.forall_mem_cons.2 ⟨hd, hplain⟩, w', m, bind_ok.2 ⟨_, _, hrun, hm⟩⟩

/-- **A root that is refused ends the conversion with its problem**, wherever the keyword stands that
the problem is about. -/
theorem run_refused (hread : source.schema.IsRead) (hi : source.classifier.inlineRoot = false)
    (hname : Xml.isName source.classifier.messageName = true)
    (he : wrappedTypeName source.schema none = .error e)
    (h : handlers source l = (.ok (), l')) (hfree : "" ∉ l'.document.namespaces.map Prod.fst) :
    ∃ m, run source l = (.error e, m) := by
  obtain ⟨l₁, l₂, ha, hn, hhandled⟩ := handlers_ok h
  obtain ⟨news, _, hdoc, _⟩ := handleEach_ok hhandled
  have hns : l'.document.namespaceOf? "" = none := Tables.lookup_eq_none.2 hfree
  rw [hdoc, Document.namespaceOf?_addItems] at hns
  have hdispatched := dispatchEach_refused hi hname he (rootState_rootWorkList source)
    (fun _ hk => hk) (unmarked_rootWorkList source.schema) (apart_of_isRead hread) hns hhandled
  have hheading : ∀ m, (do
      let found ← dispatchEach source (rootWorkList source.schema) false source.schema.keywords
      let w ← finishRoot source found.1 found.2
      advance .rootBuilt
      checkDrained .root w : Conversion Unit)
        ((l₂.advance .namespacesApplied).advance .dispatchingKeywords) = (.error e, m) →
      run source l = (.error e, m) := by
    intro m hm
    refine bind_error.2 (.inr ⟨_, _, ha, bind_error.2 (.inr ⟨(), _, rfl, ?_⟩)⟩)
    refine bind_error.2 (.inr ⟨_, _, hn, bind_error.2 (.inr ⟨(), _, rfl, ?_⟩)⟩)
    exact bind_error.2 (.inr ⟨(), _, rfl, hm⟩)
  rcases hdispatched with ⟨m, hm⟩ | ⟨hplain, w', m, hm⟩
  · exact ⟨m, hheading m (bind_error.2 (.inl hm))⟩
  · refine ⟨m, hheading m (bind_error.2 (.inr ⟨_, _, hm, bind_error.2 (.inl ?_)⟩))⟩
    rw [wrappedTypeName_of_plain hplain] at he
    cases he
    rw [finishRoot, if_neg Bool.false_ne_true, if_neg (by simp [hi])]
    rfl

/-! ## Documents, and what their roots were -/

theorem wraps_of_becomesRoot {ns : Option String} {root : Element}
    (hi : source.classifier.inlineRoot = false) (h : BecomesRoot source ns root) :
    ∃ c r target name, Wraps source.schema c r ∧ source.schema.target? r = some (target, name) ∧
      root = .mk source.classifier.messageName none (some (.plain name)) none := by
  cases h with
  | complex hinline => cases hi.symm.trans hinline
  | simple hinline => cases hi.symm.trans hinline
  | wrapped _ hp hc ht _ => exact ⟨_, _, _, _, ⟨hp, hc⟩, ht, rfl⟩

theorem combinators_eq_nil_of_becomesRoot {ns : Option String} {root : Element}
    (hi : source.classifier.inlineRoot = true) (h : BecomesRoot source ns root) :
    source.schema.combinators = [] := by
  cases h with
  | complex _ hc => exact hc
  | simple _ hc => exact hc
  | wrapped hinline => cases hi.symm.trans hinline

/-- A root that is not inline takes none of the keywords that describe a type. -/
theorem BecomesDocument.kinds_of_wrapped {d : Document} (hi : source.classifier.inlineRoot = false)
    (h : BecomesDocument source d) :
    ∀ k ∈ source.schema.keywords, k.kind ∉ [Kind.required, .ref, .asAttribute, .unknown] := by
  intro k hk
  have hkinds : k.kind ∈ documentKinds ++ [.type] ∨ k.kind.isDispatched = true := by
    simpa [rootKinds, hi] using h.kinds k hk
  exact (taken_iff _).1 hkinds

theorem Wraps.unique {c' : Combinator} {r' : String} (h : Wraps s c r) (h' : Wraps s c' r') :
    c = c' ∧ r = r' := by
  have hsame := h.combinator.symm.trans h'.combinator
  simpa using hsame

end Conversion

/-- **Which roots are converted.** Suppose that the message name is a name, that the rest of the document
is handled and that no default namespace is bound. If the root is not inline, there is a document
exactly if the root wraps a reference to a definition and has no keyword that nobody takes; the root
element then has the type that the reference leads to and no type of its own. A root that wraps no
reference is refused for its shape, and one that wraps a reference that leads nowhere for that
reference, whatever else the root has and in whatever order. An inline root that has a combinator
is never converted. -/
theorem root_shapes {j : Json} {s : Schema} (hj : j.Distinct) (hs : Schema.ofJson? j = .ok s)
    (classifier : Classifier) (options : Options) :
    (classifier.inlineRoot = false → Xml.isName classifier.messageName = true →
      HandlersSucceed ⟨s, classifier, options⟩ →
      ((∃ d, convertJson j classifier options = .ok d) ↔
        (∃ c r target name, Wraps s c r ∧ s.target? r = some (target, name)) ∧
          ∀ k ∈ s.keywords, k.kind ∉ [Kind.required, .ref, .asAttribute, .unknown]) ∧
        (∀ d c r target name, convertJson j classifier options = .ok d → Wraps s c r →
          s.target? r = some (target, name) → d.items.filterMap Item.element? =
            [.mk classifier.messageName none (some (.plain name)) none]) ∧
        ((¬ ∃ c r, Wraps s c r) → ∃ f, convertJson j classifier options = .error (.root f)) ∧
        ∀ c r, Wraps s c r → s.target? r = none → convertJson j classifier options =
          .error (.unresolved (Pointer.root.append [c.name, "0"]) r)) ∧
    (classifier.inlineRoot = true → s.combinators ≠ [] →
      ∀ d, convertJson j classifier options ≠ .ok d) := by
  have hread : s.IsRead := ⟨.root, j, hj, hs⟩
  have hbecomes : ∀ {d}, convertJson j classifier options = .ok d →
      BecomesDocument ⟨s, classifier, options⟩ d := by
    intro d hd
    obtain ⟨s', hs', h⟩ := convertJson_ok hd
    cases hs.symm.trans hs'
    exact h
  refine ⟨fun hi hname ⟨l, hl, hfree⟩ => ?_, fun hi hc d hd => ?_⟩
  · have hrefused : ∀ {e}, wrappedTypeName s none = .error e →
        convertJson j classifier options = .error e := by
      intro e he
      obtain ⟨m, hm⟩ := run_refused hread hi hname he hl hfree
      rw [convertJson_eq hs, hm]
      rfl
    refine ⟨⟨?_, ?_⟩, ?_, fun hw => ?_, fun c r hw ht => ?_⟩
    · rintro ⟨d, hd⟩
      obtain ⟨root, hroot, _⟩ := (hbecomes hd).element
      obtain ⟨c, r, target, name, hw, ht, _⟩ := wraps_of_becomesRoot hi hroot
      exact ⟨⟨c, r, target, name, hw, ht⟩, (hbecomes hd).kinds_of_wrapped hi⟩
    · rintro ⟨⟨c, r, target, name, hw, ht⟩, hkinds⟩
      obtain ⟨d, hd⟩ := yields_of_handlers hread hi hname rfl hl hfree hw ht hkinds
      exact ⟨d, (convertJson_ok_iff hj).2 ⟨s, hs, hd⟩⟩
    · intro d c r target name hd hw ht
      obtain ⟨root, hroot, hall⟩ := (hbecomes hd).element
      obtain ⟨c', r', target', name', hw', ht', rfl⟩ := wraps_of_becomesRoot hi hroot
      obtain ⟨rfl, rfl⟩ := hw.unique hw'
      cases ht.symm.trans ht'
      exact hall
    · obtain ⟨f, hf⟩ := wrappedTypeName_of_not_wraps hw none
      exact ⟨f, hrefused hf⟩
    · refine hrefused ?_
      rw [wrappedTypeName_of_wraps hw, resolve_unresolved_iff.2 ht]
      rfl
  · obtain ⟨root, hroot, _⟩ := (hbecomes hd).element
    exact hc (combinators_eq_nil_of_becomesRoot hi hroot)

/-- What `wrappingSchema` is read as. -/
def wrappingKeywords : Schema :=
  .mk [.info [("title", .str "Orders")], .definitions .defs [("A", .mk [.type [.string]])],
    .combinator .oneOf [.mk [.ref "#/$defs/A"]]]

theorem root_shapes_wrappingSchema :
    wrappingSchema.Distinct ∧ Schema.ofJson? wrappingSchema = .ok wrappingKeywords ∧
      HandlersSucceed ⟨wrappingKeywords, wrappingRoot, {}⟩ ∧
      (∃ d, convertJson wrappingSchema wrappingRoot {} = .ok d ∧
        d.items.filterMap Item.element? = [.mk "Root" none (some (.plain "A")) none]) ∧
      ∀ d, convertJson wrappingSchema { wrappingRoot with inlineRoot := true } {} ≠ .ok d := by
  have hdistinct : wrappingSchema.Distinct := Json.distinct_of_merged (by rfl)
  have hs : Schema.ofJson? wrappingSchema = .ok wrappingKeywords := by rfl
  have hw : Wraps wrappingKeywords .oneOf "#/$defs/A" := ⟨rfl, rfl⟩
  have ht : wrappingKeywords.target? "#/$defs/A" = some (.defs, "A") := by decide +kernel
  have hrun : (handlers ⟨wrappingKeywords, wrappingRoot, {}⟩ (begun wrappingRoot)).1 = .ok () := by
    decide +kernel
  have hhandled : HandlersSucceed ⟨wrappingKeywords, wrappingRoot, {}⟩ :=
    ⟨_, Prod.ext hrun rfl, by decide +kernel⟩
  obtain ⟨hiff, hroot, _⟩ :=
    (root_shapes hdistinct hs wrappingRoot {}).1 rfl (by decide +kernel) hhandled
  obtain ⟨d, hd⟩ := hiff.2 ⟨⟨_, _, _, _, hw, ht⟩, by decide⟩
  exact ⟨hdistinct, hs, hhandled, ⟨d, hd, hroot d _ _ _ _ hd hw ht⟩,
    (root_shapes hdistinct hs _ {}).2 rfl (by simp [hw.combinator])⟩

end XsdSynthesis
