import XsdSynthesis.Proofs.Transfer
import XsdSynthesis.Proofs.Visits

/-!
# XsdSynthesis.Proofs.Simulation

One conversion follows another. Two conversions of one schema run side by side: the second
classifier answers as the first one does wherever a subschema stands, but for the message name, and
the second options allow whatever the first ones do. `Ledger.retold` is a ledger as the second
conversion keeps it: the element at the root is renamed in the document and in the log, and something
may have been logged before. Every step of the second conversion follows the one of the first
(`Follows`), unless the first options cut that short, so the whole run does (`follows_run`).
-/

namespace XsdSynthesis

open Xsd Conversion

/-! ## Renamed documents and logs -/

namespace Xsd

def Element.renamed (rename : String → String) : Element → Element
  | .mk name minOccurs typeName complexType => .mk (rename name) minOccurs typeName complexType

/-- The item with its element renamed, if it is one. Elements within types keep their names. -/
def Item.renamed (rename : String → String) : Item → Item
  | .element e => .element (e.renamed rename)
  | item => item

/-- The document with its top-level element renamed. -/
def Document.renamed (rename : String → String) (d : Document) : Document :=
  { d with items := d.items.map (Item.renamed rename) }

theorem Item.renamed_id (item : Item) : item.renamed id = item := by
  cases item with
  | element e =>
    cases e
    rfl
  | _ => rfl

theorem Item.renamed_of_isType {item : Item} (h : item.isType = true) (rename : String → String) :
    item.renamed rename = item := by
  cases item with
  | element e => cases h
  | _ => rfl

namespace Document

variable {rename : String → String}

@[simp] theorem renamed_id (d : Document) : d.renamed id = d := by
  have hid : d.items.map (Item.renamed id) = d.items := by
    rw [show Item.renamed id = id from funext Item.renamed_id, List.map_id]
  rw [renamed, hid]

@[simp] theorem hasType_renamed (d : Document) (name : String) :
    hasType (d.renamed rename) name = hasType d name := by
  unfold hasType complexType? simpleType? renamed
  simp only [List.findSome?_map]
  congr 3 <;> (funext item; cases item <;> rfl)

end Document
end Xsd

/-- The event with the message name replaced. -/
def Event.renamed (rename : String → String) : Event → Event
  | .converting messageName inlineRoot => .converting (rename messageName) inlineRoot
  | .rootElement name => .rootElement (rename name)
  | event => event

theorem Event.renamed_id (event : Event) : event.renamed id = event := by
  cases event <;> rfl

/-- How one conversion is told again by another: what that one had logged before, how it renames the
element at the root, and the problems that cut the first one short. -/
structure Telling where
  past : List Event
  rename : String → String
  cut : Problem → Prop

/-- The ledger as the second conversion keeps it. -/
def Ledger.retold (τ : Telling) (l : Ledger) : Ledger :=
  { l with
    document := l.document.renamed τ.rename
    log := τ.past ++ l.log.map (Event.renamed τ.rename) }

/-- With nothing before and no new name, the ledger is told as it is. -/
theorem Ledger.retold_id (cut : Problem → Prop) (l : Ledger) : l.retold ⟨[], id, cut⟩ = l := by
  have hlog : l.log.map (Event.renamed id) = l.log := by
    rw [show Event.renamed id = id from funext Event.renamed_id, List.map_id]
  rw [retold, hlog, Document.renamed_id, List.nil_append]

namespace Conversion

variable {α β γ δ : Type} {τ : Telling}

/-! ## Steps that follow another -/

/-- On a retold ledger the second step does what the first one does: its value, under a renaming, or
its problem, and its changes to the ledger, retold. If the first step is cut short, the second one
may go on as it likes. -/
def Follows (τ : Telling) (f : α → β) (x : Conversion α) (x' : Conversion β) : Prop :=
  ∀ l, x' (l.retold τ) = ((x l).1.map f, (x l).2.retold τ) ∨ ∃ e m, x l = (.error e, m) ∧ τ.cut e

section Steps

variable {f : α → β} {g : γ → δ} {x : Conversion α} {x' : Conversion β} {y : α → Conversion γ}
  {y' : β → Conversion δ}

theorem follows_of_eq (h : ∀ l, x' (l.retold τ) = ((x l).1.map f, (x l).2.retold τ)) :
    Follows τ f x x' := fun l => .inl (h l)

/-- Where nothing cuts the first step short, the second one does what it does. -/
theorem Follows.uncut {past : List Event} {rename : String → String}
    (h : Follows ⟨past, rename, fun _ => False⟩ f x x') (l : Ledger) :
    x' (l.retold ⟨past, rename, fun _ => False⟩) =
      ((x l).1.map f, (x l).2.retold ⟨past, rename, fun _ => False⟩) :=
  (h l).resolve_right fun ⟨_, _, _, hcut⟩ => hcut

theorem follows_of_cut {e : Problem} (h : τ.cut e) (x' : Conversion β) :
    Follows τ f (stop e) x' := fun l => .inr ⟨e, l, rfl, h⟩

theorem Follows.bind_map (hx : Follows τ f x x') (hy : ∀ a, Follows τ g (y a) (y' (f a))) :
    Follows τ g (x >>= y) (x' >>= y') := by
  intro l
  rw [bind_apply, bind_apply]
  rcases hx l with hsame | ⟨e, m, hstop, hcut⟩
  · rw [hsame]
    rcases x l with ⟨r, m⟩
    cases r with
    | ok a => exact hy a m
    | error e => exact .inl rfl
  · rw [hstop]
    exact .inr ⟨e, m, rfl, hcut⟩

theorem Follows.bind {x x' : Conversion α} {y' : α → Conversion δ} (hx : Follows τ id x x')
    (hy : ∀ a, Follows τ g (y a) (y' a)) : Follows τ g (x >>= y) (x' >>= y') := hx.bind_map hy

theorem follows_pure (f : α → β) (a : α) : Follows τ f (pure a) (pure (f a)) :=
  follows_of_eq fun _ => rfl

theorem follows_stop (f : α → β) (e : Problem) : Follows τ f (stop e) (stop e) :=
  follows_of_eq fun _ => rfl

theorem follows_lift (c : Except Problem α) :
    Follows τ id (liftM c : Conversion α) (liftM c) := by
  cases c with
  | ok a => exact follows_pure _ a
  | error e => exact follows_stop _ e

theorem Follows.after_lift {c : Except Problem α} {y : α → Conversion γ} {y' : α → Conversion δ}
    (h : ∀ a, c = .ok a → Follows τ g (y a) (y' a)) :
    Follows τ g ((liftM c : Conversion α) >>= y) (liftM c >>= y') := by
  cases c with
  | error e => exact follows_of_eq fun _ => rfl
  | ok a => exact h a rfl

theorem follows_update {change change' : Ledger → Ledger}
    (h : ∀ l, change' (l.retold τ) = (change l).retold τ) :
    Follows τ id (update change) (update change') := by
  refine follows_of_eq fun l => ?_
  change (Except.ok (), change' (l.retold τ)) = _
  rw [h]
  rfl

theorem follows_emit (event : Event) :
    Follows τ id (emit event) (emit (event.renamed τ.rename)) := by
  refine follows_update fun l => ?_
  simp [Ledger.emit, Ledger.retold]

theorem follows_advance (next : Stage) : Follows τ id (advance next) (advance next) := by
  refine follows_update fun l => ?_
  simp [Ledger.advance, Ledger.retold, Event.renamed]

theorem follows_addItem (item : Item) :
    Follows τ id (addItem item) (addItem (item.renamed τ.rename)) := by
  refine follows_update fun l => ?_
  simp [Ledger.addItem, Ledger.retold, Document.renamed]

theorem follows_amend {change : Document → Document}
    (h : ∀ d, change (d.renamed τ.rename) = (change d).renamed τ.rename) :
    Follows τ id (amend change) (amend change) := by
  refine follows_update fun l => ?_
  simp [Ledger.retold, h]

theorem follows_ledger {z : Ledger → Conversion γ} {z' : Ledger → Conversion δ}
    (h : ∀ l, Follows τ g (z l) (z' (l.retold τ))) :
    Follows τ g (ledger >>= z) (ledger >>= z') := fun l => h l l

/-- The empty prefix is bound alike, so what depends on it is the same. -/
theorem follows_defaultNamespace {z : Option String → Conversion γ}
    {z' : Option String → Conversion δ} (h : ∀ ns, Follows τ g (z ns) (z' ns)) :
    Follows τ g (defaultNamespace >>= z) (defaultNamespace >>= z') :=
  fun l => h (l.document.namespaceOf? "") l

end Steps

/-! ## Synthesis -/

/-- The second options are those of the first, or let more pass, and then what only the first ones
refuse cuts a conversion short. -/
structure Relaxes (τ : Telling) (o o' : Options) : Prop where
  le : o.maxDepth ≤ o'.maxDepth
  depth : o'.maxDepth = o.maxDepth ∨ ∀ p, τ.cut (.tooDeep p o.maxDepth)
  strict : o'.strictAttributes = o.strictAttributes ∨
    o.strictAttributes = true ∧ ∀ name, name ∉ attributeNames →
      τ.cut (.fault (Pointer.root.append [Spelling.documentAttributes, name])
        (.unknownAttribute name))

theorem relaxes_refl (τ : Telling) (o : Options) : Relaxes τ o o :=
  ⟨Nat.le_refl _, .inl rfl, .inl rfl⟩

/-- The second classifier answers as the first one does: alike wherever a subschema of the schema
stands, at the root only if it is inline, and under another message name, if it is just as good. -/
structure Retells (τ : Telling) (s : Schema) (k k' : Classifier) : Prop where
  inlineRoot : k'.inlineRoot = k.inlineRoot
  shapes : ∀ depth p t, LiesAt s depth p t → (p = .root → k.inlineRoot = true) →
    k'.shapes p = k.shapes p
  messageName : k'.messageName = τ.rename k.messageName
  checkName : checkName .root k'.messageName = checkName .root k.messageName

theorem retells_refl (past : List Event) (cut : Problem → Prop) (s : Schema) (k : Classifier) :
    Retells ⟨past, id, cut⟩ s k k := ⟨rfl, fun _ _ _ _ _ => rfl, rfl, rfl⟩

section

variable {s : Schema} {k k' : Classifier} {o o' : Options} {c : Container}

theorem Retells.shapes_definition (h : Retells τ s k k') {name : String} {t : Schema}
    {entries : List (String × Schema)} (hk : .definitions c entries ∈ s.keywords)
    (ht : (name, t) ∈ entries) :
    k'.shapes (definitionPlace c name) = k.shapes (definitionPlace c name) :=
  h.shapes 1 _ t (.definition hk ht) fun hroot => absurd hroot (definitionPlace_ne_root c name)

theorem Retells.shapes_property (h : Retells τ s k k') {depth : Nat} {p : Pointer}
    {t u : Schema} {entries : List (String × Schema)} {name : String} (hp : LiesAt s depth p t)
    (hk : .properties entries ∈ t.keywords) (hu : (name, u) ∈ entries) :
    k'.shapes (propertyPlace p name) = k.shapes (propertyPlace p name) :=
  h.shapes _ _ u (.property hp hk hu) fun hroot => absurd hroot (propertyPlace_ne_root p name)

theorem follows_enter (ho : Relaxes τ o o') (place : Pointer) (depth : Nat) :
    Follows τ id (enter ⟨s, k, o⟩ place depth) (enter ⟨s, k', o'⟩ place depth) := by
  have hle := ho.le
  rw [enter, enter]
  by_cases hd : o.maxDepth < depth
  · rw [if_pos hd]
    rcases ho.depth with heq | hcut
    · rw [if_pos (heq ▸ hd), heq]
      exact follows_stop _ _
    · exact follows_of_cut (hcut place) _
  · rw [if_neg hd, if_neg (by dsimp only; omega)]
    refine follows_ledger fun l => ?_
    have hvisited : (l.retold τ).visited = l.visited := rfl
    rw [hvisited]
    split
    · exact follows_stop _ _
    · refine Follows.bind (follows_update fun _ => ?_) fun _ => follows_emit (.entered place depth)
      rfl

mutual

/-- **Synthesis follows**, along the recursion of `synthesize`. -/
theorem follows_synthesize (h : Retells τ s k k') (ho : Relaxes τ o o') {place : Pointer}
    {depth : Nat} :
    ∀ {t : Schema}, LiesAt s depth place t → k'.shapes place = k.shapes place →
      Follows τ id (synthesize ⟨s, k, o⟩ place depth t) (synthesize ⟨s, k', o'⟩ place depth t)
  | .mk keywords, ht, hshapes => by
    simp only [synthesize, hshapes]
    refine (follows_enter ho place depth).bind fun _ => ?_
    by_cases hshape : (k.shapes place).isComplex = true
    · rw [if_pos hshape, if_pos hshape]
      split
      · exact follows_stop _ _
      · refine (follows_lift _).bind fun opened => ?_
        refine (follows_membersOf h ho opened.1 ht fun _ hk => hk).bind fun _ => ?_
        exact (follows_lift _).bind fun _ => follows_pure _ _
    · rw [if_neg hshape, if_neg hshape]
      split
      · refine follows_defaultNamespace fun ns => (follows_lift _).bind fun _ => ?_
        exact (follows_lift _).bind fun _ => follows_pure _ _
      · exact follows_stop _ _

theorem follows_membersOf (h : Retells τ s k k') (ho : Relaxes τ o o') {place : Pointer}
    {depth : Nat} {t : Schema} (required : List String) :
    ∀ {keywords : List Keyword}, LiesAt s depth place t → (∀ k ∈ keywords, k ∈ t.keywords) →
      Follows τ id (membersOf ⟨s, k, o⟩ place depth required keywords)
        (membersOf ⟨s, k', o'⟩ place depth required keywords)
  | [], _, _ => by
    simp only [membersOf]
    exact follows_pure _ _
  | keyword :: rest, ht, hk => by
    cases keyword with
    | properties entries =>
      simp only [membersOf]
      exact follows_entriesOf h ho required ht (hk _ List.mem_cons_self) fun _ he => he
    | _ =>
      rw [membersOf_cons (by simp [Keyword.kind]), membersOf_cons (by simp [Keyword.kind])]
      exact follows_membersOf h ho required ht (List.forall_mem_cons.1 hk).2

theorem follows_entriesOf (h : Retells τ s k k') (ho : Relaxes τ o o') {place : Pointer}
    {depth : Nat} {t : Schema} {all : List (String × Schema)} (required : List String) :
    ∀ {entries : List (String × Schema)}, LiesAt s depth place t →
      .properties all ∈ t.keywords → (∀ e ∈ entries, e ∈ all) →
      Follows τ id (entriesOf ⟨s, k, o⟩ place depth required entries)
        (entriesOf ⟨s, k', o'⟩ place depth required entries)
  | [], _, _, _ => by
    simp only [entriesOf]
    exact follows_pure _ _
  | (name, u) :: rest, ht, hk, he => by
    obtain ⟨hu, hrest⟩ := List.forall_mem_cons.1 he
    simp only [entriesOf]
    refine (follows_lift _).bind fun _ => ?_
    refine (follows_synthesize h ho (.property ht hk hu) (h.shapes_property ht hk hu)).bind
      fun made => ?_
    exact (follows_entriesOf h ho required ht hk hrest).bind fun _ => follows_pure _ _

end

/-! ## Definitions -/

/-- Chains of bases ask about definitions only. -/
theorem link?_retells (h : Retells τ s k k') (o o' : Options) (ns : Option String)
    (current : String) : link? ⟨s, k', o'⟩ ns current = link? ⟨s, k, o⟩ ns current := by
  rw [link?, link?]
  cases hf : s.findDefinition? current with
  | none => rfl
  | some found =>
    obtain ⟨c, t⟩ := found
    obtain ⟨entries, hk, ht⟩ := Schema.mem_definitions (mem_of_findDefinition? hf)
    simp only [Option.map_some, h.shapes_definition hk ht]

theorem definitionItem_isType {source : Source} {ns : Option String} {place : Pointer}
    {name : String} {node : Node} {item : Item}
    (h : definitionItem source ns place name node = .ok item) : item.isType = true := by
  cases node with
  | complex type =>
    cases h
    rfl
  | simple base =>
    cases base with
    | none => cases h
    | some base =>
      obtain ⟨_, _, hpure⟩ := Checks.bind_ok.1 h
      cases Checks.pure_ok.1 hpure
      rfl

theorem follows_addType {item : Item} (h : item.isType = true) :
    Follows τ id (addItem item) (addItem item) := by
  have hadd : Follows τ id (addItem item) (addItem (item.renamed τ.rename)) :=
    follows_addItem item
  rwa [Item.renamed_of_isType h] at hadd

theorem follows_define (h : Retells τ s k k') (ho : Relaxes τ o o') {name : String} {t : Schema}
    {entries : List (String × Schema)} (hk : .definitions c entries ∈ s.keywords)
    (ht : (name, t) ∈ entries) :
    Follows τ id (define ⟨s, k, o⟩ c name t) (define ⟨s, k', o'⟩ c name t) := by
  refine (follows_lift _).bind fun _ => follows_ledger fun l => ?_
  have htype : hasType (l.retold τ).document name = hasType l.document name :=
    Document.hasType_renamed l.document name
  rw [htype]
  split
  · exact follows_stop _ _
  · refine (follows_synthesize h ho (.definition hk ht) (h.shapes_definition hk ht)).bind
      fun made => ?_
    split
    · exact follows_stop _ _
    · refine follows_defaultNamespace fun ns => ?_
      rw [definitionItem_of_links (link?_retells h o o' ns)]
      refine .after_lift fun item hitem => ?_
      refine Follows.bind (follows_emit (.defined _)) fun _ => ?_
      exact follows_addType (definitionItem_isType hitem)

theorem follows_defineEach (h : Retells τ s k k') (ho : Relaxes τ o o')
    {all : List (String × Schema)} (hk : .definitions c all ∈ s.keywords) :
    ∀ {entries : List (String × Schema)}, (∀ e ∈ entries, e ∈ all) →
      Follows τ id (defineEach ⟨s, k, o⟩ c entries) (defineEach ⟨s, k', o'⟩ c entries)
  | [], _ => follows_pure _ _
  | e :: rest, he => by
    obtain ⟨hmem, hrest⟩ := List.forall_mem_cons.1 he
    exact (follows_define h ho hk hmem).bind fun _ => follows_defineEach h ho hk hrest

/-! ## The root -/

theorem follows_inlineRoot (h : Retells τ s k k') (ho : Relaxes τ o o') (hi : k.inlineRoot = true)
    (w : WorkList) :
    Follows τ (Prod.map (Element.renamed τ.rename) id) (inlineRoot ⟨s, k, o⟩ w)
      (inlineRoot ⟨s, k', o'⟩ w) := by
  have hshapes := h.shapes 0 .root s .root fun _ => hi
  cases hc : s.combinators with
  | cons first rest =>
    simp only [inlineRoot, hc]
    exact follows_stop _ _
  | nil =>
    simp only [inlineRoot, hc, hshapes, h.messageName]
    refine (follows_enter ho .root 0).bind fun _ => ?_
    by_cases hshape : (k.shapes .root).isComplex = true
    · rw [if_pos hshape, if_pos hshape]
      refine (follows_lift _).bind fun opened => ?_
      exact (follows_membersOf h ho opened.1 .root fun _ hk => hk).bind fun _ => follows_pure _ _
    · rw [if_neg hshape, if_neg hshape]
      split
      · refine follows_defaultNamespace fun ns => (follows_lift _).bind fun _ => follows_pure _ _
      · exact follows_stop _ _

theorem follows_wrappedRoot (h : Retells τ s k k') (o o' : Options) :
    Follows τ (Element.renamed τ.rename) (wrappedRoot ⟨s, k, o⟩) (wrappedRoot ⟨s, k', o'⟩) := by
  simp only [wrappedRoot, h.messageName]
  exact follows_defaultNamespace fun ns => (follows_lift _).bind fun _ => follows_pure _ _

theorem follows_buildRoot (h : Retells τ s k k') (ho : Relaxes τ o o') (w : WorkList) :
    Follows τ id (buildRoot ⟨s, k, o⟩ w) (buildRoot ⟨s, k', o'⟩ w) := by
  simp only [buildRoot, h.checkName, h.inlineRoot]
  refine (follows_lift _).bind fun _ => ?_
  have hplace : ∀ made : Element × WorkList, Follows τ id
      (do emit (.rootElement made.1.name); addItem (.element made.1); return made.2)
      (do
        emit (.rootElement (made.1.renamed τ.rename).name)
        addItem (.element (made.1.renamed τ.rename))
        return made.2) := by
    rintro ⟨⟨name, minOccurs, typeName, complexType⟩, w⟩
    refine Follows.bind (follows_emit (.rootElement name)) fun _ => ?_
    exact Follows.bind (follows_addItem (.element _)) fun _ => follows_pure _ _
  split
  · rename_i hi
    exact (follows_inlineRoot h ho hi w).bind_map hplace
  · rw [map_eq_pure_bind, map_eq_pure_bind, bind_assoc, bind_assoc]
    refine (follows_wrappedRoot h o o').bind_map fun e => ?_
    simp only [pure_bind]
    exact hplace (e, w)

theorem follows_takeRoot (h : Retells τ s k k') (ho : Relaxes τ o o') (w : WorkList)
    (built : Bool) :
    Follows τ id
      (if built then pure (w, true)
        else do return (← buildRoot ⟨s, k, o⟩ w, true) : Conversion (WorkList × Bool))
      (if built then pure (w, true)
        else do return (← buildRoot ⟨s, k', o'⟩ w, true)) := by
  split
  · exact follows_pure _ _
  · exact (follows_buildRoot h ho w).bind fun _ => follows_pure _ _

/-! ## The whole run -/

theorem follows_dispatch (h : Retells τ s k k') (ho : Relaxes τ o o') (w : WorkList) (built : Bool)
    {keyword : Keyword} (hk : keyword ∈ s.keywords) :
    Follows τ id (dispatch ⟨s, k, o⟩ w built keyword) (dispatch ⟨s, k', o'⟩ w built keyword) := by
  unfold dispatch
  by_cases hp : w.isPending keyword.kind = true
  · rw [if_pos hp, if_pos hp]
    cases keyword with
    | info entries =>
      refine (follows_lift _).bind fun documentation => ?_
      exact Follows.bind (follows_addItem (.documentation documentation)) fun _ => follows_pure _ _
    | definitions c entries =>
      exact (follows_defineEach h ho hk fun _ he => he).bind fun _ => follows_pure _ _
    | combinator c branches => exact follows_takeRoot h ho _ built
    | properties entries => exact follows_takeRoot h ho _ built
    | _ => exact follows_pure _ _
  · rw [if_neg hp, if_neg hp]
    exact follows_pure _ _

theorem follows_dispatchEach (h : Retells τ s k k') (ho : Relaxes τ o o') (w : WorkList)
    (built : Bool) :
    ∀ {keywords : List Keyword}, (∀ keyword ∈ keywords, keyword ∈ s.keywords) →
      Follows τ id (dispatchEach ⟨s, k, o⟩ w built keywords)
        (dispatchEach ⟨s, k', o'⟩ w built keywords)
  | [], _ => follows_pure _ _
  | keyword :: rest, hk => by
    obtain ⟨hmem, hrest⟩ := List.forall_mem_cons.1 hk
    refine (follows_dispatch h ho w built hmem).bind fun pair => ?_
    exact follows_dispatchEach h ho pair.1 pair.2 hrest

theorem follows_finishRoot (h : Retells τ s k k') (ho : Relaxes τ o o') (w : WorkList)
    (built : Bool) :
    Follows τ id (finishRoot ⟨s, k, o⟩ w built) (finishRoot ⟨s, k', o'⟩ w built) := by
  simp only [finishRoot, h.inlineRoot]
  split
  · exact follows_pure _ _
  · split
    · exact follows_buildRoot h ho w
    · exact follows_stop _ _

theorem follows_applyAttribute (ho : Relaxes τ o o') (name value : String) :
    Follows τ id (applyAttribute ⟨s, k, o⟩ name value) (applyAttribute ⟨s, k', o'⟩ name value) := by
  unfold applyAttribute
  split
  · exact (follows_lift _).bind fun form => follows_amend fun _ => rfl
  · exact (follows_lift _).bind fun form => follows_amend fun _ => rfl
  · exact (follows_lift _).bind fun set => follows_amend fun _ => rfl
  · exact (follows_lift _).bind fun set => follows_amend fun _ => rfl
  · rename_i h₁ h₂ h₃ h₄
    rcases ho.strict with heq | ⟨hstrict, hcut⟩
    · rw [heq]
      split
      · exact follows_stop _ _
      · exact follows_emit (.unknownAttribute _)
    · rw [if_pos hstrict]
      exact follows_of_cut (hcut name (notMem_attributeNames h₁ h₂ h₃ h₄)) _

theorem follows_applyEach (ho : Relaxes τ o o') (attributes : List (String × String)) :
    Follows τ id (applyEach ⟨s, k, o⟩ attributes) (applyEach ⟨s, k', o'⟩ attributes) := by
  induction attributes with
  | nil => exact follows_pure _ _
  | cons a rest ih => exact (follows_applyAttribute ho a.1 a.2).bind fun _ => ih

theorem follows_applyNamespaces :
    Follows τ id (applyNamespaces ⟨s, k, o⟩) (applyNamespaces ⟨s, k', o'⟩) := by
  refine (follows_lift _).bind fun table => ?_
  exact Follows.bind (follows_emit (.namespacesBound _)) fun _ => follows_amend fun _ => rfl

/-- **A whole run follows another** under a classifier that answers alike where it is asked, and
under options that let pass what passes. -/
theorem follows_run (h : Retells τ s k k') (ho : Relaxes τ o o') :
    Follows τ id (run ⟨s, k, o⟩) (run ⟨s, k', o'⟩) := by
  refine (follows_applyEach ho _).bind fun _ => (follows_advance _).bind fun _ => ?_
  refine follows_applyNamespaces.bind fun _ => (follows_advance _).bind fun _ => ?_
  refine (follows_advance _).bind fun _ => ?_
  refine (follows_dispatchEach h ho _ _ fun _ hk => hk).bind fun pair => ?_
  refine (follows_finishRoot h ho pair.1 pair.2).bind fun _ => ?_
  exact (follows_advance _).bind fun _ => follows_lift _

end
end Conversion
end XsdSynthesis
