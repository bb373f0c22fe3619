import XsdSynthesis.Proofs.Completeness
import XsdSynthesis.Proofs.Content

/-!
# XsdSynthesis.Proofs.Dispatching

Handlers of the root's keywords do what the rules allow: definitions (`defineEach_of_becomeItems`), the
root element (`buildRoot_of_becomesRoot`), and all keywords in order
(`dispatchEach_of_becomesItems`). `RootReady` is what holds between two keywords: places that the
remaining ones lead to were not visited. `Takes` is one step from such a state to the next.
-/

namespace XsdSynthesis

open Xsd Conversion

namespace Conversion

variable {source : Source} {ns : Option String} {l l' : Ledger} {w w' : WorkList} {c : Container}
  {name : String} {t : Schema} {built final : Bool} {k : Keyword} {marked : List Kind}
  {ks rest : List Keyword} {item : Item} {items : List Item}

/-! ## Definitions -/

theorem hasType_of_notMem {d : Document} (h : name ∉ d.declaredNames) : hasType d name = false := by
  by_contra hn
  have ht : hasType d name = true := by simpa using hn
  rw [hasType, Bool.or_eq_true] at ht
  refine h (List.mem_filterMap.2 ?_)
  rcases ht with ht | ht
  · obtain ⟨type, ht⟩ := Option.isSome_iff_exists.1 ht
    obtain ⟨hm, hname⟩ := Document.mem_of_complexType? ht
    exact ⟨_, hm, hname⟩
  · obtain ⟨type, ht⟩ := Option.isSome_iff_exists.1 ht
    obtain ⟨hm, hname⟩ := Document.mem_of_simpleType? ht
    exact ⟨_, hm, congrArg some hname⟩

theorem apart_definitionPlace {other : String} (h : name ≠ other) {r : List String}
    (hn : (definitionPlace c name).segments <+: r) : ¬ (definitionPlace c other).segments <+: r :=
  Pointer.apart (by simpa [definitionPlace] using h) (by simp [definitionPlace]) hn

theorem prefix_definitionPlace (c : Container) (name : String) :
    (Pointer.root.child c.name).segments <+: (definitionPlace c name).segments := ⟨[name], rfl⟩

/-- The node that the item of a definition is made of. -/
theorem BecomesItem.node (h : BecomesItem source ns c name t item) :
    ∃ made, Xml.isName name = true ∧ Becomes source ns (definitionPlace c name) 1 t made ∧
      made.asAttribute = false ∧
      definitionItem source ns (definitionPlace c name) name made.node = .ok item := by
  cases h with
  | complex hname hbecomes => exact ⟨_, hname, hbecomes, rfl, rfl⟩
  | simple hname hbecomes hbase =>
    exact ⟨_, hname, hbecomes, rfl, Checks.bind_ok.2 ⟨(), hbase, rfl⟩⟩

theorem define_of_becomesItem (h : BecomesItem source ns c name t item) (ht : t.IsRead)
    (hns : l.document.namespaceOf? "" = ns) (hclear : l.Clear (definitionPlace c name))
    (hfree : name ∉ l.document.declaredNames) :
    ∃ l', define source c name t l = (.ok (), l') ∧
      l'.document = l.document.addItems [item] ∧ l.Visits l' (definitionPlace c name) := by
  obtain ⟨made, hname, hbecomes, hflag, hitem⟩ := h.node
  obtain ⟨l₁, hrun, hdoc, hvisits⟩ := synthesize_of_becomes hbecomes ht l hns hclear
  refine ⟨(l₁.emit (.defined (definitionPlace c name))).addItem item, ?_, ?_, hvisits⟩
  · simp only [define]
    refine bind_lift_ok.2 ⟨(), checkName_ok.2 hname, ?_⟩
    rw [bind_ledger_ok, hasType_of_notMem hfree, if_neg (by decide)]
    refine bind_ok.2 ⟨made, l₁, hrun, ?_⟩
    rw [hflag, if_neg (by decide), bind_defaultNamespace_ok, hdoc, hns]
    refine bind_lift_ok.2 ⟨item, hitem, ?_⟩
    rw [bind_emit_ok, addItem_ok]
  · simp only [Ledger.addItem, Ledger.emit, hdoc]
    rfl

theorem defineEach_of_becomeItems {entries : List (String × Schema)}
    (h : BecomeItems source ns c entries items) (ht : ∀ e ∈ entries, e.2.IsRead)
    (hns : l.document.namespaceOf? "" = ns)
    (hclear : ∀ e ∈ entries, l.Clear (definitionPlace c e.1))
    (hnames : (l.document.declaredNames ++ items.filterMap Item.declaredName?).Nodup) :
    ∃ l', defineEach source c entries l = (.ok (), l') ∧
      l'.document = l.document.addItems items ∧ l.Visits l' (Pointer.root.child c.name) := by
  induction h generalizing l with
  | nil => exact ⟨l, pure_ok.2 ⟨rfl, rfl⟩, by simp, Ledger.visits_of_eq rfl _⟩
  | @cons e item entries items hitem hitems ih =>
    obtain ⟨hread, ht⟩ := List.forall_mem_cons.1 ht
    obtain ⟨hc, hclear⟩ := List.forall_mem_cons.1 hclear
    rw [List.filterMap_cons_some hitem.declaredName] at hnames
    have hapart := List.nodup_append.1 hnames
    have hfree : e.1 ∉ l.document.declaredNames := fun hm =>
      hapart.2.2 e.1 hm e.1 List.mem_cons_self rfl
    obtain ⟨l₁, hrun, hdoc, hvisits⟩ := define_of_becomesItem hitem hread hns hc hfree
    have hothers : ∀ other ∈ entries, e.1 ≠ other.1 := by
      intro other ho hsame
      refine (List.nodup_cons.1 hapart.2.1).1 ?_
      rw [BecomeItems.declaredNames hitems, hsame]
      exact List.mem_map_of_mem ho
    have hclear₁ : ∀ other ∈ entries, l₁.Clear (definitionPlace c other.1) := fun other ho =>
      (hclear other ho).after hvisits fun r => apart_definitionPlace (hothers other ho)
    have hnames₁ :
        (l₁.document.declaredNames ++ items.filterMap Item.declaredName?).Nodup := by
      rw [hdoc, Document.declaredNames_addItems, List.filterMap_cons_some hitem.declaredName,
        List.filterMap_nil, List.append_assoc]
      exact hnames
    obtain ⟨l₂, hrest, hdoc', hvisits'⟩ := ih ht (by rw [hdoc]; exact hns) hclear₁ hnames₁
    refine ⟨l₂, bind_ok.2 ⟨(), l₁, hrun, hrest⟩, ?_,
      (hvisits.above (prefix_definitionPlace c e.1)).trans hvisits'⟩
    rw [hdoc', hdoc, Document.addItems_addItems]
    rfl

/-! ## The root element -/

/-- What the root element leaves of a list. -/
def afterRoot (source : Source) (w : WorkList) : WorkList :=
  if source.classifier.inlineRoot then
    if (source.classifier.shapes .root).isComplex then afterComplex w else afterSimple w
  else w

theorem marked_afterRoot (source : Source) (w : WorkList) :
    (afterRoot source w).marked = w.marked := by
  unfold afterRoot
  split
  · split <;> rfl
  · rfl

theorem items_afterRoot (h : w.items = source.schema.keywords) :
    (afterRoot source w).items =
      (afterRoot source (WorkList.ofSchema source.schema)).items := by
  unfold afterRoot
  split
  · split
    · simp only [afterComplex, WorkList.items_pull, WorkList.items_ofSchema, h]
    · simp only [afterSimple, WorkList.items_pull, WorkList.items_ofSchema, h]
  · simp [h]

/-- The root element takes the keywords of its kinds, all of them. -/
theorem afterRoot_gone (hs : source.schema.IsRead) (hw : w.items = source.schema.keywords) :
    ∀ k ∈ (afterRoot source w).items, k ∈ source.schema.keywords ∧ k.kind ∉ rootKinds source := by
  have hlone : ∀ kind, kind ≠ .unknown → Lone w kind := fun kind => lone_of_items hw hs
  rw [← hw]
  unfold afterRoot rootKinds
  split
  · split
    · exact afterComplex_gone hlone
    · exact afterSimple_gone hlone
  · exact fun k hk => ⟨hk, List.not_mem_nil⟩

theorem name_ne_properties (c : Container) : c.name ≠ "properties" := by
  cases c <;> decide

/-- Between two ledgers nothing was visited where definitions stand. -/
def KeepsClear (l l' : Ledger) : Prop :=
  ∀ c : Container, l.Clear (Pointer.root.child c.name) → l'.Clear (Pointer.root.child c.name)

theorem keepsClear_of_visits (h : l.Visits l' (Pointer.root.child "properties")) :
    KeepsClear l l' :=
  fun c hc => hc.after h fun _ => Pointer.apart_child (name_ne_properties c).symm

theorem inlineRoot_of_becomesRoot {e : Element} (hi : source.classifier.inlineRoot = true)
    (h : BecomesRoot source ns e) (hs : source.schema.IsRead)
    (hw : w.items = source.schema.keywords) (hns : l.document.namespaceOf? "" = ns)
    (hroot : .root ∉ l.visited) (hclear : l.Clear (Pointer.root.child "properties")) :
    ∃ l', inlineRoot source w l = (.ok (e, afterRoot source w), l') ∧
      l'.document = l.document ∧ KeepsClear l l' := by
  have offers := fun kind => WorkList.offers_of_items hw kind
  have hentered : KeepsClear l (entered l .root 0) := fun c hc =>
    clear_entered (List.cons_ne_nil _ _) hc
  cases h with
  | complex _ hc ho hmembers =>
    obtain ⟨parts, hparts, hnames, hbecomes, rfl⟩ := hmembers
    have hmade : ∀ p ∈ parts, Synthesizes source ns (propertyPlace .root p.name) (0 + 1) p.schema
        p.made := by
      intro p hp
      have hentry : p.entry ∈ source.schema.properties := hparts ▸ List.mem_map_of_mem hp
      obtain ⟨entries, hk, he⟩ := Schema.mem_properties hentry
      exact synthesize_of_becomes (hbecomes p hp) ((hs.properties hk).2 _ he)
    have hdistinct : (parts.map Part.name).Nodup := names_of_entries hparts ▸ hs.properties_nodup
    have hchildren : ∀ p ∈ parts, (entered l .root 0).Clear (propertyPlace .root p.name) :=
      fun p _ => (clear_entered (List.cons_ne_nil _ _) hclear).below (prefix_propertyPlace _ _)
    have hns₁ : (entered l .root 0).document.namespaceOf? "" = ns := hns
    obtain ⟨l₁, hrun, hdoc, hvisits⟩ := entriesOf_of_parts hnames hdistinct hmade hns₁ hchildren
    refine ⟨l₁, ?_, hdoc, fun c hc => keepsClear_of_visits hvisits c (hentered c hc)⟩
    simp only [inlineRoot, hc]
    refine bind_enter_ok.2 ⟨Nat.zero_le _, hroot, ?_⟩
    rw [if_pos ho.shape]
    refine bind_lift_ok.2 ⟨(_, _), (openComplex_ok fun kind _ => offers kind).2
      ⟨ho.plain, ho.types, ho.required, rfl, rfl⟩, ?_⟩
    rw [hparts] at hrun
    refine bind_ok.2 ⟨_, _, (membersOf_eq _ _ _ _).symm ▸ hrun, pure_ok.2 ⟨?_, rfl⟩⟩
    rw [afterRoot, if_pos hi, if_pos ho.shape]
  | simple _ hc ho hname =>
    refine ⟨entered l .root 0, ?_, rfl, hentered⟩
    simp only [inlineRoot, hc]
    refine bind_enter_ok.2 ⟨Nat.zero_le _, hroot, ?_⟩
    have hnot : ¬ (source.classifier.shapes .root).isComplex = true := by simp [ho.notComplex]
    have hns₁ : (entered l .root 0).document.namespaceOf? "" = ns := hns
    rw [if_neg hnot, if_pos ho.shape, bind_defaultNamespace_ok, hns₁]
    refine bind_lift_ok.2 ⟨(_, _), (simpleTypeName_ok fun kind _ => offers kind).2
      ⟨ho.plain, hname, rfl⟩, pure_ok.2 ⟨?_, rfl⟩⟩
    rw [afterRoot, if_pos hi, if_neg hnot]
  | wrapped hn _ _ _ _ =>
    rw [hi] at hn
    cases hn

theorem wrappedTypeName_of_becomesRoot {r : String} {target : Container} {c : Combinator}
    {s : Schema} (hp : s.get? .properties = none) (hc : s.combinators = [(c, [.mk [.ref r]])])
    (ht : s.target? r = some (target, name)) :
    wrappedTypeName s none = .ok (.plain name) := by
  have hbranch : wrappedBranch s = .ok (Pointer.root.append [c.name, "0"], .mk [.ref r]) := by
    rw [wrappedBranch, hp, if_neg (by decide), hc]
  refine Checks.bind_ok.2 ⟨_, hbranch, ?_⟩
  exact Checks.bind_ok.2 ⟨name, resolve_ok.2 ⟨rfl, target, ht⟩, rfl⟩

theorem wrappedRoot_of_becomesRoot {e : Element} (hi : source.classifier.inlineRoot = false)
    (h : BecomesRoot source ns e) (hns : l.document.namespaceOf? "" = ns) :
    wrappedRoot source l = (.ok e, l) := by
  cases h with
  | complex ht _ _ _ =>
    rw [hi] at ht
    cases ht
  | simple ht _ _ _ =>
    rw [hi] at ht
    cases ht
  | wrapped _ hp hc ht hnone =>
    subst hnone
    rw [wrappedRoot, bind_defaultNamespace_ok, hns]
    exact bind_lift_ok.2 ⟨_, wrappedTypeName_of_becomesRoot hp hc ht, pure_ok.2 ⟨rfl, rfl⟩⟩

theorem buildRoot_of_becomesRoot {e : Element} (h : BecomesRoot source ns e)
    (hname : Xml.isName source.classifier.messageName = true) (hs : source.schema.IsRead)
    (hw : w.items = source.schema.keywords) (hns : l.document.namespaceOf? "" = ns)
    (hroot : .root ∉ l.visited) (hclear : l.Clear (Pointer.root.child "properties")) :
    ∃ l', buildRoot source w l = (.ok (afterRoot source w), l') ∧
      l'.document = l.document.addItems [.element e] ∧ KeepsClear l l' := by
  have hadd : ∀ l₁ : Ledger, l₁.document = l.document →
      ((l₁.emit (.rootElement e.name)).addItem (.element e)).document =
        l.document.addItems [.element e] := by
    intro l₁ hdoc
    simp only [Ledger.addItem, Ledger.emit, hdoc]
    rfl
  cases hi : source.classifier.inlineRoot with
  | true =>
    obtain ⟨l₁, hrun, hdoc, hkeeps⟩ := inlineRoot_of_becomesRoot hi h hs hw hns hroot hclear
    refine ⟨_, ?_, hadd l₁ hdoc, hkeeps⟩
    refine bind_lift_ok.2 ⟨(), checkName_ok.2 hname, ?_⟩
    dsimp only
    rw [if_pos hi]
    refine bind_ok.2 ⟨_, _, hrun, ?_⟩
    rw [bind_emit_ok, bind_addItem_ok]
    exact pure_ok.2 ⟨rfl, rfl⟩
  | false =>
    refine ⟨_, ?_, hadd l rfl, fun _ hc => hc⟩
    refine bind_lift_ok.2 ⟨(), checkName_ok.2 hname, ?_⟩
    dsimp only
    rw [if_neg (by simp [hi])]
    refine bind_ok.2 ⟨_, _, map_ok.2 ⟨e, wrappedRoot_of_becomesRoot hi h hns, rfl⟩, ?_⟩
    rw [bind_emit_ok, bind_addItem_ok, afterRoot, if_neg (by simp [hi])]
    exact pure_ok.2 ⟨rfl, rfl⟩

/-! ## The keywords of the root -/

/-- What holds between two keywords of the root, so that the next can be taken: which of them are
left, and that no place they lead to was visited. -/
structure RootReady (source : Source) (w : WorkList) (built : Bool) (l : Ledger) : Prop where
  state : RootState source w built
  taken : built = true →
    w.items = (afterRoot source (WorkList.ofSchema source.schema)).items
  containers : ∀ c, .definitions c ∉ w.marked → l.Clear (Pointer.root.child c.name)
  root : built = false → .root ∉ l.visited ∧ l.Clear (Pointer.root.child "properties")

/-- From one state, all of the given keywords are taken and the given items added. -/
def Dispatches (source : Source) (w : WorkList) (built : Bool) (ks : List Keyword) (l : Ledger)
    (items : List Item) (final : Bool) : Prop :=
  ∃ w' l', dispatchEach source w built ks l = (.ok (w', final), l') ∧
    l'.document = l.document.addItems items ∧ RootReady source w' final l' ∧
    (∀ kind ∈ w.marked, kind ∈ w'.marked) ∧
    ∀ k ∈ ks, k.kind.isDispatched = true → k.kind ∈ w'.marked

/-- One keyword is taken: the items it adds, and the state it leaves to the next. -/
structure Takes (source : Source) (w : WorkList) (built : Bool) (k : Keyword) (l : Ledger)
    (new : List Item) (w₁ : WorkList) (built₁ : Bool) (l₁ : Ledger) : Prop where
  run : dispatch source w built k l = (.ok (w₁, built₁), l₁)
  document : l₁.document = l.document.addItems new
  ready : RootReady source w₁ built₁ l₁
  marked : w₁.marked = k.kind :: w.marked

namespace Takes

variable {new : List Item} {w₁ : WorkList} {built₁ : Bool} {l₁ : Ledger}

/-- One keyword is taken, and then the rest. -/
theorem cons (ht : Takes source w built k l new w₁ built₁ l₁)
    (h : Dispatches source w₁ built₁ rest l₁ items final) :
    Dispatches source w built (k :: rest) l (new ++ items) final := by
  obtain ⟨w', l', hrun, hdoc, hready, hkept, hmarked⟩ := h
  rw [ht.marked] at hkept
  obtain ⟨hk, hkept⟩ := List.forall_mem_cons.1 hkept
  refine ⟨w', l', bind_ok.2 ⟨_, _, ht.run, hrun⟩, ?_, hready, hkept,
    List.forall_mem_cons.2 ⟨fun _ => hk, hmarked⟩⟩
  rw [hdoc, ht.document, Document.addItems_addItems]

theorem namespaceOf? (ht : Takes source w built k l new w₁ built₁ l₁) (p : String) :
    l₁.document.namespaceOf? p = l.document.namespaceOf? p := by
  rw [ht.document, Document.namespaceOf?_addItems]

theorem names (ht : Takes source w built k l new w₁ built₁ l₁)
    (hn : (l.document.declaredNames ++ (new ++ items).filterMap Item.declaredName?).Nodup) :
    (l₁.document.declaredNames ++ items.filterMap Item.declaredName?).Nodup := by
  rwa [ht.document, Document.declaredNames_addItems, List.append_assoc, ← List.filterMap_append]

end Takes

theorem dispatch_pass (h : k.kind ∈ w.marked ∨ k.kind.isDispatched = false) :
    dispatch source w built k l = (.ok (w, built), l) := by
  unfold dispatch
  by_cases hp : w.isPending k.kind = true
  · rw [if_pos hp]
    have hd := h.resolve_left (WorkList.isPending_iff.1 hp).1
    cases k with
    | info entries => cases hd
    | definitions c entries => cases hd
    | combinator c branches => cases hd
    | properties entries => cases hd
    | _ => rfl
  · rw [if_neg hp]
    rfl

theorem dispatch_root (hp : w.isPending k.kind = true) (hd : k.kind.describesRoot = true) :
    dispatch source w built k =
      if built then pure (w.mark k.kind, true)
      else do return (← buildRoot source (w.mark k.kind), true) := by
  unfold dispatch
  rw [if_pos hp]
  cases k with
  | combinator c branches => rfl
  | properties entries => rfl
  | _ => cases hd

/-- Marking what adds an item or passes keeps the state. -/
theorem RootReady.mark (h : RootReady source w built l) {kind : Kind}
    (hs : RootState source (w.mark kind) built) (l' : Ledger) (hv : l'.visited = l.visited) :
    RootReady source (w.mark kind) built l' := by
  have hsame : ∀ p, l.Clear p → l'.Clear p := fun p hp q hq => hp q (hv ▸ hq)
  refine ⟨hs, h.taken, fun c hc => hsame _ (h.containers c ?_), fun hb => ?_⟩
  · exact fun hm => hc (List.mem_cons_of_mem _ hm)
  · exact ⟨hv ▸ (h.root hb).1, hsame _ (h.root hb).2⟩

theorem notMem_root_of_visits {p : Pointer} (hv : l.Visits l' p) (hp : p ≠ .root)
    (h : .root ∉ l.visited) : .root ∉ l'.visited := by
  intro hm
  rcases hv _ hm with hm | hpre
  · exact h hm
  · refine hp ?_
    obtain ⟨segments⟩ := p
    exact congrArg Pointer.mk (List.prefix_nil.1 hpre)

/-- Definitions leave room for the other container and for the root. -/
theorem RootReady.define (h : RootReady source w built l)
    (hs : RootState source (w.mark (.definitions c)) built)
    (hv : l.Visits l' (Pointer.root.child c.name)) :
    RootReady source (w.mark (.definitions c)) built l' := by
  refine ⟨hs, h.taken, fun c' hc' => ?_, fun hb => ?_⟩
  · simp only [WorkList.mark, List.mem_cons, not_or] at hc'
    have hne : c.name ≠ c'.name := by
      intro hn
      have hsome := congrArg Container.ofName? hn
      rw [Container.ofName?_name, Container.ofName?_name] at hsome
      exact hc'.1 (congrArg Kind.definitions (Option.some.inj hsome).symm)
    exact (h.containers c' hc'.2).after hv fun _ => Pointer.apart_child hne
  · obtain ⟨hroot, hclear⟩ := h.root hb
    refine ⟨notMem_root_of_visits hv (by cases c <;> decide) hroot, ?_⟩
    exact hclear.after hv fun _ => Pointer.apart_child (name_ne_properties c)

theorem RootReady.build (h : RootReady source w false l) {kind : Kind}
    (hs : RootState source (afterRoot source (w.mark kind)) true) (hkeeps : KeepsClear l l') :
    RootReady source (afterRoot source (w.mark kind)) true l' := by
  refine ⟨hs, fun _ => ?_, fun c hc => hkeeps c (h.containers c ?_), nofun⟩
  · exact items_afterRoot (h.state.fresh rfl)
  · rw [marked_afterRoot] at hc
    exact fun hm => hc (List.mem_cons_of_mem _ hm)

theorem takes_info {entries : List (String × Json)} {a : Documentation}
    (hready : RootReady source w built l) (hk : .info entries ∈ source.schema.keywords)
    (hfresh : .info ∉ w.marked) (ha : documentationOf entries = .ok a) :
    Takes source w built (.info entries) l [.documentation a] (w.mark .info) built
      (l.addItem (.documentation a)) := by
  have hrun : dispatch source w built (.info entries) l =
      (.ok (w.mark .info, built), l.addItem (.documentation a)) := by
    unfold dispatch
    rw [if_pos (hready.state.pending hk rfl hfresh)]
    refine bind_lift_ok.2 ⟨a, ha, ?_⟩
    rw [bind_addItem_ok]
    exact pure_ok.2 ⟨rfl, rfl⟩
  exact ⟨hrun, rfl, hready.mark (dispatch_ok hready.state hk hrun).1 _ rfl, rfl⟩

theorem takes_definitions {entries : List (String × Schema)} {made : List Item}
    (hready : RootReady source w built l) (hs : source.schema.IsRead)
    (hk : .definitions c entries ∈ source.schema.keywords) (hfresh : .definitions c ∉ w.marked)
    (hmade : BecomeItems source ns c entries made) (hns : l.document.namespaceOf? "" = ns)
    (hnames : (l.document.declaredNames ++ made.filterMap Item.declaredName?).Nodup) :
    ∃ l₁, Takes source w built (.definitions c entries) l made (w.mark (.definitions c)) built
      l₁ := by
  have hclear : ∀ e ∈ entries, l.Clear (definitionPlace c e.1) := fun e _ =>
    (hready.containers c hfresh).below (prefix_definitionPlace c e.1)
  obtain ⟨l₁, hmake, hdoc, hvisits⟩ :=
    defineEach_of_becomeItems hmade (hs.definitions hk).2 hns hclear hnames
  have hrun : dispatch source w built (.definitions c entries) l =
      (.ok (w.mark (.definitions c), built), l₁) := by
    unfold dispatch
    rw [if_pos (hready.state.pending hk rfl hfresh)]
    exact bind_ok.2 ⟨(), l₁, hmake, pure_ok.2 ⟨rfl, rfl⟩⟩
  exact ⟨l₁, hrun, hdoc, hready.define (dispatch_ok hready.state hk hrun).1 hvisits, rfl⟩

theorem takes_root {e : Element} (hready : RootReady source w false l)
    (hs : source.schema.IsRead) (hname : Xml.isName source.classifier.messageName = true)
    (hk : k ∈ source.schema.keywords) (hfresh : k.kind ∉ w.marked)
    (hd : k.kind.describesRoot = true) (he : BecomesRoot source ns e)
    (hns : l.document.namespaceOf? "" = ns) :
    ∃ l₁, Takes source w false k l [.element e] (afterRoot source (w.mark k.kind)) true l₁ := by
  obtain ⟨hroot, hclear⟩ := hready.root rfl
  have hitems : (w.mark k.kind).items = source.schema.keywords := hready.state.fresh rfl
  obtain ⟨l₁, hbuild, hdoc, hkeeps⟩ :=
    buildRoot_of_becomesRoot he hname hs hitems hns hroot hclear
  have hrun : dispatch source w false k l =
      (.ok (afterRoot source (w.mark k.kind), true), l₁) := by
    rw [dispatch_root (hready.state.pending hk (isDispatched_of_describesRoot hd) hfresh) hd]
    exact bind_ok.2 ⟨_, _, hbuild, pure_ok.2 ⟨rfl, rfl⟩⟩
  exact ⟨l₁, hrun, hdoc, hready.build (dispatch_ok hready.state hk hrun).1 hkeeps,
    marked_afterRoot source _⟩

theorem takes_again (hready : RootReady source w true l) (hk : k ∈ source.schema.keywords)
    (hfresh : k.kind ∉ w.marked) (hd : k.kind.describesRoot = true) :
    Takes source w true k l [] (w.mark k.kind) true l := by
  have hrun : dispatch source w true k l = (.ok (w.mark k.kind, true), l) := by
    rw [dispatch_root (hready.state.pending hk (isDispatched_of_describesRoot hd) hfresh) hd]
    exact pure_ok.2 ⟨rfl, rfl⟩
  exact ⟨hrun, by simp, hready.mark (dispatch_ok hready.state hk hrun).1 l rfl, rfl⟩

/-- A keyword that is marked, or not dispatched, is left to others. -/
theorem Dispatches.pass (hk : k.kind ∈ w.marked ∨ k.kind.isDispatched = false)
    (h : Dispatches source w built rest l items final) :
    Dispatches source w built (k :: rest) l items final := by
  obtain ⟨w', l', hrun, hdoc, hready, hkept, hmarked⟩ := h
  refine ⟨w', l', bind_ok.2 ⟨_, _, dispatch_pass hk, hrun⟩, hdoc, hready, hkept,
    List.forall_mem_cons.2 ⟨fun hd => hkept _ (hk.resolve_right ?_), hmarked⟩⟩
  simp [hd]

/-- **The keywords of the root are taken as the rules allow**, by induction on the rules. -/
theorem dispatchEach_of_becomesItems (h : BecomesItems source ns marked built ks items final)
    (hs : source.schema.IsRead) (hname : Xml.isName source.classifier.messageName = true)
    (hready : RootReady source w built l) (hm : w.marked = marked)
    (hks : ∀ k ∈ ks, k ∈ source.schema.keywords) (hns : l.document.namespaceOf? "" = ns)
    (hnames : (l.document.declaredNames ++ items.filterMap Item.declaredName?).Nodup) :
    Dispatches source w built ks l items final := by
  induction h generalizing w l with
  | nil => exact ⟨w, l, pure_ok.2 ⟨rfl, rfl⟩, by simp, hready, fun _ hk => hk, by simp⟩
  | pass hk _ ih =>
    subst hm
    exact (ih hready rfl (List.forall_mem_cons.1 hks).2 hns hnames).pass hk
  | info hfresh ha _ ih =>
    subst hm
    obtain ⟨hk, hrest⟩ := List.forall_mem_cons.1 hks
    have ht := takes_info hready hk hfresh ha
    exact ht.cons (ih ht.ready ht.marked hrest ((ht.namespaceOf? "").trans hns) (ht.names hnames))
  | definitions hfresh hmade _ ih =>
    subst hm
    obtain ⟨hk, hrest⟩ := List.forall_mem_cons.1 hks
    have hmadeNames := hnames
    rw [List.filterMap_append, ← List.append_assoc] at hmadeNames
    obtain ⟨l₁, ht⟩ :=
      takes_definitions hready hs hk hfresh hmade hns (List.nodup_append.1 hmadeNames).1
    exact ht.cons (ih ht.ready ht.marked hrest ((ht.namespaceOf? "").trans hns) (ht.names hnames))
  | root hfresh hd he _ ih =>
    subst hm
    obtain ⟨hk, hrest⟩ := List.forall_mem_cons.1 hks
    obtain ⟨l₁, ht⟩ := takes_root hready hs hname hk hfresh hd he hns
    exact ht.cons (ih ht.ready ht.marked hrest ((ht.namespaceOf? "").trans hns) (ht.names hnames))
  | again hfresh hd _ ih =>
    subst hm
    obtain ⟨hk, hrest⟩ := List.forall_mem_cons.1 hks
    have ht := takes_again hready hk hfresh hd
    exact ht.cons (ih ht.ready ht.marked hrest hns hnames)

end Conversion
end XsdSynthesis
