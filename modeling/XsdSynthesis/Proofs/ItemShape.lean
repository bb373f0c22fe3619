import XsdSynthesis.Proofs.KeyOrder
import XsdSynthesis.Proofs.Rendering

/-!
# XsdSynthesis.Proofs.ItemShape

The list of items. Every keyword of the root gives its items where it stands: `info` one
documentation, definitions one named type each, and the first keyword that describes the root gives
the root element, which comes last if there is none (`item_shape`). Types inside elements are
nameless, however deep they are nested (`HasElement.anonymous`).
-/

namespace XsdSynthesis

open Xsd Conversion

variable {source : Source} {ns : Option String} {d : Document}

/-! ## Elements at any depth -/

/-- An element stands in a document: at the top, in a top-level complex type, or nested. -/
inductive HasElement (d : Document) : Element → Prop where
  | top {e : Element} : .element e ∈ d.items → HasElement d e
  | named {type : ComplexType} {e : Element} : .complexType type ∈ d.items → e ∈ type.elements →
      HasElement d e
  | nested {parent e : Element} {type : ComplexType} : HasElement d parent →
      parent.complexType = some type → e ∈ type.elements → HasElement d e

/-- The type inside an element, if any, is made of the members that properties become. -/
def HoldsMembers (source : Source) (ns : Option String) (e : Element) : Prop :=
  ∀ type, e.complexType = some type → ∃ place depth required entries members,
    BecomesMembers source ns place depth required entries members ∧ type = members.type

/-- A property of complex shape becomes an element that holds the members of its own properties. -/
theorem holdsMembers_of_mem {place : Pointer} {depth : Nat} {required : List String}
    {entries : List (String × Schema)} {members : Members} {e : Element}
    (h : BecomesMembers source ns place depth required entries members)
    (he : e ∈ members.type.elements) : HoldsMembers source ns e := by
  intro type htype
  obtain ⟨parts, _, _, hbecomes, rfl⟩ := h
  rw [elements_type, elements_ofParts] at he
  obtain ⟨part, hpart, he⟩ := List.mem_filterMap.1 he
  obtain ⟨_, _, _, inner, hinner, rfl⟩ :=
    (hbecomes part hpart).of_complex (node_of_complexType he htype)
  exact ⟨_, _, _, _, inner, hinner, rfl⟩

/-- Every element holds members, by induction on where it stands. -/
theorem HasElement.holdsMembers (hd : BecomesDocument source d) {e : Element}
    (h : HasElement d e) : HoldsMembers source (d.namespaceOf? "") e := by
  induction h with
  | top he =>
    intro type htype
    have hroot := hd.root_of_element he
    cases hroot with
    | complex _ _ _ hmembers =>
      cases htype
      exact ⟨_, _, _, _, _, hmembers, rfl⟩
    | simple _ _ _ _ => cases htype
    | wrapped _ _ _ _ _ => cases htype
  | named hi he =>
    obtain ⟨c, name, t, _, hitem⟩ := hd.definition_of_item hi rfl
    cases hitem with
    | complex _ hbecomes =>
      obtain ⟨_, _, _, members, hmembers, rfl⟩ := hbecomes.of_complex rfl
      rw [elements_withName] at he
      exact holdsMembers_of_mem hmembers he
  | nested _ htype he ih =>
    obtain ⟨_, _, _, _, members, hmembers, rfl⟩ := ih _ htype
    exact holdsMembers_of_mem hmembers he

/-- **A complex type inside an element has no name.** -/
theorem HasElement.anonymous (hd : BecomesDocument source d) {e : Element} (h : HasElement d e)
    {type : ComplexType} (ht : e.complexType = some type) : type.name = none := by
  obtain ⟨_, _, _, _, members, _, rfl⟩ := h.holdsMembers hd type ht
  rfl

/-! ## What a keyword gives -/

/-- The top-level type of a definition: complex if its place is classified so, and else simple. -/
inductive NamedType (classifier : Classifier) (c : Container) (name : String) : Item → Prop where
  | complex {type : ComplexType} :
      (classifier.shapes (definitionPlace c name)).isComplex = true → type.name = some name →
      NamedType classifier c name (.complexType type)
  | simple {type : SimpleType} :
      (classifier.shapes (definitionPlace c name)).isComplex = false → type.name = name →
      NamedType classifier c name (.simpleType type)

/-- The items that a keyword of the root gives, for a root element that the keyword of the kind
`first` brings about. -/
inductive Gives (classifier : Classifier) (root : Element) (first : Option Kind) :
    Keyword → List Item → Prop where
  | info {entries : List (String × Json)} {markup : List FixedAttribute} :
      List.Forall₂ (fun e entry => e = (entry.name, .str entry.fixed)) entries markup →
      Gives classifier root first (.info entries) [.documentation ⟨[markup]⟩]
  | definitions {c : Container} {entries : List (String × Schema)} {made : List Item} :
      List.Forall₂ (fun e item => NamedType classifier c e.1 item) entries made →
      Gives classifier root first (.definitions c entries) made
  | root {k : Keyword} : k.kind.describesRoot = true → first = some k.kind →
      Gives classifier root first k [.element root]
  | later {k : Keyword} : k.kind.describesRoot = true → first ≠ some k.kind →
      Gives classifier root first k []
  | nothing {k : Keyword} : k.kind.isDispatched = false → Gives classifier root first k []

/-- The kind of the first keyword that describes the root. -/
def firstDescribing (ks : List Keyword) : Option Kind :=
  (ks.map Keyword.kind).find? Kind.describesRoot

theorem firstDescribing_cons_of_not {k : Keyword} (h : k.kind.describesRoot = false)
    (rest : List Keyword) : firstDescribing (k :: rest) = firstDescribing rest := by
  rw [firstDescribing, List.map_cons, List.find?_cons, h]
  rfl

theorem firstDescribing_cons {k : Keyword} (h : k.kind.describesRoot = true)
    (rest : List Keyword) : firstDescribing (k :: rest) = some k.kind := by
  rw [firstDescribing, List.map_cons, List.find?_cons, h]

theorem firstDescribing_eq_none {ks : List Keyword} :
    firstDescribing ks = none ↔ ∀ k ∈ ks, k.kind.describesRoot = false := by
  simp [firstDescribing]

namespace Conversion

theorem BecomesItem.namedType {c : Container} {name : String} {t : Schema} {item : Item}
    (h : BecomesItem source ns c name t item) : NamedType source.classifier c name item := by
  cases h with
  | complex _ hbecomes => exact .complex (hbecomes.of_complex rfl).1.shape (name_withName _ _)
  | simple _ hbecomes _ => exact .simple (hbecomes.of_simple rfl).1.notComplex rfl

theorem gives_info {classifier : Classifier} {root : Element} {first : Option Kind}
    {entries : List (String × Json)} {a : Documentation} (h : documentationOf entries = .ok a) :
    Gives classifier root first (.info entries) [.documentation a] := by
  have hentries := documentationOf_ok h
  obtain ⟨markup, _, h⟩ := Checks.bind_ok.1 h
  cases Checks.pure_ok.1 h
  rw [List.flatten_singleton] at hentries
  exact .info hentries

/-- **Keywords give their items one after the other**, by induction on the rules. Before the root
element is there it will come from the first keyword that describes the root; afterwards from none.
-/
theorem BecomesItems.gives {marked : List Kind} {built final : Bool} {ks : List Keyword}
    {items : List Item} {root : Element} {first : Option Kind}
    (h : BecomesItems source ns marked built ks items final) (hu : Unmarked marked ks)
    (ha : Apart ks) (hroot : ∀ e, .element e ∈ items → e = root)
    (hbefore : built = false → first = firstDescribing ks)
    (hafter : built = true → ∀ k ∈ ks, k.kind.describesRoot = true → first ≠ some k.kind) :
    ∃ parts, List.Forall₂ (Gives source.classifier root first) ks parts ∧
      items = parts.flatten := by
  induction h with
  | nil => exact ⟨[], .nil, rfl⟩
  | @pass marked built final k rest items hk _ ih =>
    have hnot : k.kind.isDispatched = false := by
      rcases hk with hk | hk
      · by_contra hd
        exact hu k List.mem_cons_self (by simpa using hd) hk
      · exact hk
    rw [firstDescribing_cons_of_not (describesRoot_of_notDispatched hnot)] at hbefore
    obtain ⟨parts, hparts, rfl⟩ := ih (List.forall_mem_cons.1 hu).2 (List.pairwise_cons.1 ha).2
      hroot hbefore fun hb => (List.forall_mem_cons.1 (hafter hb)).2
    exact ⟨[] :: parts, .cons (.nothing hnot) hparts, rfl⟩
  | @info marked built final entries a rest items _ hdoc _ ih =>
    rw [firstDescribing_cons_of_not rfl] at hbefore
    obtain ⟨parts, hparts, rfl⟩ := ih (unmarked_tail hu ha rfl) (List.pairwise_cons.1 ha).2
      (fun e he => hroot e (List.mem_cons_of_mem _ he)) hbefore
      fun hb => (List.forall_mem_cons.1 (hafter hb)).2
    exact ⟨_ :: parts, .cons (gives_info hdoc) hparts, rfl⟩
  | @definitions marked built final c entries made items rest _ hmade _ ih =>
    rw [firstDescribing_cons_of_not rfl] at hbefore
    obtain ⟨parts, hparts, rfl⟩ := ih (unmarked_tail hu ha rfl) (List.pairwise_cons.1 ha).2
      (fun e he => hroot e (List.mem_append_right _ he)) hbefore
      fun hb => (List.forall_mem_cons.1 (hafter hb)).2
    exact ⟨made :: parts, .cons (.definitions (hmade.imp fun _ _ h => h.namedType)) hparts, rfl⟩
  | @root marked final k e rest items _ hd _ _ ih =>
    have hfirst : first = some k.kind := (hbefore rfl).trans (firstDescribing_cons hd rest)
    have hothers : ∀ other ∈ rest, other.kind.describesRoot = true → first ≠ some other.kind := by
      intro other ho _ hsame
      have hne := (List.pairwise_cons.1 ha).1 other ho (isDispatched_of_describesRoot hd)
      exact hne (Option.some.inj (hsame.symm.trans hfirst))
    obtain ⟨parts, hparts, rfl⟩ := ih (unmarked_tail hu ha (isDispatched_of_describesRoot hd))
      (List.pairwise_cons.1 ha).2 (fun e he => hroot e (List.mem_cons_of_mem _ he)) nofun
      fun _ => hothers
    cases hroot e List.mem_cons_self
    exact ⟨_ :: parts, .cons (.root hd hfirst) hparts, rfl⟩
  | @again marked final k rest items _ hd _ ih =>
    obtain ⟨hnot, hothers⟩ := List.forall_mem_cons.1 (hafter rfl)
    obtain ⟨parts, hparts, rfl⟩ := ih (unmarked_tail hu ha (isDispatched_of_describesRoot hd))
      (List.pairwise_cons.1 ha).2 hroot nofun fun _ => hothers
    exact ⟨[] :: parts, .cons (.later hd (hnot hd)) hparts, rfl⟩

/-- The root element is there after the keywords exactly if one of them describes the root. -/
theorem BecomesItems.final_eq_false {marked : List Kind} {final : Bool} {ks : List Keyword}
    {items : List Item} (h : BecomesItems source ns marked false ks items final)
    (hu : Unmarked marked ks) (ha : Apart ks) : final = false ↔ firstDescribing ks = none := by
  obtain ⟨_, _, _, hgives, _⟩ := h.contributions hu ha
  rw [firstDescribing_eq_none]
  cases hgives with
  | absent hnone => simpa using hnone
  | made hk hd _ =>
    refine iff_of_false nofun fun hnone => ?_
    rw [hnone _ hk] at hd
    cases hd

theorem BecomesRoot.name {e : Element} (h : BecomesRoot source ns e) :
    e.name = source.classifier.messageName := by
  cases h <;> rfl

theorem BecomesRoot.minOccurs {e : Element} (h : BecomesRoot source ns e) : e.minOccurs = none := by
  cases h <;> rfl

end Conversion

/-! ## The whole list -/

/-- **The shape of the list of items.** The items of a document are what the keywords of the root
give, in source order: documentation for `info`, one named type per definition, the root element for
the first keyword that describes the root, and nothing for the others; if no keyword describes the
root, the root element comes last. So the root element is the only element of the list, it has the
message name and occurs once, and every complex type inside an element is nameless. -/
theorem item_shape {j : Json} (hj : j.Distinct) {classifier : Classifier} {options : Options}
    {d : Document} (h : convertJson j classifier options = .ok d) :
    ∃ s root parts, Schema.ofJson? j = .ok s ∧
      List.Forall₂ (Gives classifier root (firstDescribing s.keywords)) s.keywords parts ∧
      d.items =
        parts.flatten ++ (if firstDescribing s.keywords = none then [.element root] else []) ∧
      d.items.filterMap Item.element? = [root] ∧ root.name = classifier.messageName ∧
      root.minOccurs = none ∧
      ∀ e type, HasElement d e → e.complexType = some type → type.name = none := by
  obtain ⟨s, hs, hd⟩ := convertJson_ok h
  have hread : s.IsRead := ⟨.root, j, hj, hs⟩
  obtain ⟨root, hroot, hall⟩ := hd.element
  obtain ⟨items, built, hitems, hlast⟩ := hd.items
  have hunmarked : Unmarked (rootWorkList s).marked s.keywords := unmarked_rootWorkList s
  have hapart := apart_of_isRead hread
  have hmem : ∀ e, .element e ∈ d.items → e = root := by
    intro e he
    have hm : e ∈ d.items.filterMap Item.element? := List.mem_filterMap.2 ⟨_, he, rfl⟩
    rw [hall] at hm
    exact List.mem_singleton.1 hm
  have hsub : ∀ item ∈ items, item ∈ d.items := by
    rcases hlast with ⟨_, hlast⟩ | ⟨_, _, _, _, hlast⟩ <;> rw [hlast] <;> simp +contextual
  obtain ⟨parts, hparts, rfl⟩ := hitems.gives hunmarked hapart (fun e he => hmem e (hsub _ he))
    (fun _ => rfl) nofun
  refine ⟨s, root, parts, hs, hparts, ?_, hall, hroot.name, hroot.minOccurs,
    fun e type he ht => he.anonymous hd ht⟩
  have hfinal := hitems.final_eq_false hunmarked hapart
  rcases hlast with ⟨hb, hlast⟩ | ⟨hb, _, e, _, hlast⟩
  · have hsome : firstDescribing s.keywords ≠ none :=
      fun hnone => nomatch hb.symm.trans (hfinal.2 hnone)
    rw [hlast, if_neg hsome, List.append_nil]
  · have he : .element e ∈ d.items := hlast ▸ List.mem_append_right _ List.mem_cons_self
    rw [hlast, if_pos (hfinal.1 hb), hmem e he]

/-- A root that wraps a definition, after documentation and the definition. -/
def wrappingSchema : Json :=
  .obj [("info", .obj [("title", .str "Orders")]),
    ("$defs", .obj [("A", .obj [("type", .str "string")])]),
    ("oneOf", .arr [.obj [("$ref", .str "#/$defs/A")]])]

/-- A root that is not inline, and simple shapes everywhere. -/
def wrappingRoot : Classifier := ⟨"Root", false, fun _ => .ofList [.simpleType]⟩

theorem item_shape_wrappingSchema :
    wrappingSchema.Distinct ∧ ∃ d, convertJson wrappingSchema wrappingRoot {} = .ok d ∧
      d.items.length = 3 ∧
      ∃ s root parts, Schema.ofJson? wrappingSchema = .ok s ∧
        List.Forall₂ (Gives wrappingRoot root (firstDescribing s.keywords)) s.keywords parts ∧
        d.items =
          parts.flatten ++ (if firstDescribing s.keywords = none then [.element root] else []) ∧
        d.items.filterMap Item.element? = [root] ∧ root.name = "Root" ∧ root.minOccurs = none ∧
        ∀ e type, HasElement d e → e.complexType = some type → type.name = none := by
  have hdistinct : wrappingSchema.Distinct := Json.distinct_of_merged (by rfl)
  have hrun : (convertJson wrappingSchema wrappingRoot {}).toOption.any
      (fun d => d.items.length == 3) = true := by decide +kernel
  obtain ⟨d, hd, hlength⟩ := Checks.exists_of_any hrun
  exact ⟨hdistinct, d, hd, beq_iff_eq.1 hlength, item_shape hdistinct hd⟩

end XsdSynthesis
