import XsdSynthesis.Proofs.Lossless
import XsdSynthesis.Proofs.Transfer

/-!
# XsdSynthesis.Proofs.Independence

Definitions do not depend on each other, but for references. A definition that no reference points to
is taken out of the document (`Json.withoutEntry`) and out of the schema that is read from it
(`Schema.withoutDefinition`). All other subschemas stay as they are, and their references and chains of
bases lead where they led before. So what they become is the same, and the document loses just the type
of that definition (`definitions_independent`).
-/

namespace XsdSynthesis

open Xsd Conversion

/-! ## Taking a definition out -/

namespace Json

/-- An object without its members of the given name. -/
def without (name : String) : Json → Json
  | .obj members => .obj (members.filter (·.1 != name))
  | j => j

/-- An object with the entry `name` taken out of its member `key`. -/
def withoutEntry (key name : String) : Json → Json
  | .obj members => .obj (members.map fun m => if m.1 = key then (m.1, m.2.without name) else m)
  | j => j

theorem distinct_without {j : Json} (hj : j.Distinct) (name : String) : (j.without name).Distinct := by
  cases hj with
  | obj hnames hall =>
    refine .obj ((List.filter_sublist.map Prod.fst).nodup hnames) fun m hm => ?_
    exact hall m (List.mem_filter.1 hm).1
  | null => exact .null
  | bool => exact .bool
  | num => exact .num
  | str => exact .str
  | arr hall => exact .arr hall

theorem distinct_withoutEntry {j : Json} (hj : j.Distinct) (key name : String) :
    (j.withoutEntry key name).Distinct := by
  cases hj with
  | @obj members hnames hall =>
    refine .obj ?_ fun m hm => ?_
    · rw [List.map_map]
      have hsame : (Prod.fst ∘ fun m : String × Json =>
          if m.1 = key then (m.1, m.2.without name) else m) = Prod.fst := by
        funext m
        dsimp only [Function.comp]
        split <;> rfl
      rwa [hsame]
    · obtain ⟨m', hm', rfl⟩ := List.mem_map.1 hm
      split
      · exact distinct_without (hall m' hm') name
      · exact hall m' hm'
  | null => exact .null
  | bool => exact .bool
  | num => exact .num
  | str => exact .str
  | arr hall => exact .arr hall

end Json

namespace Keyword

variable {k : Keyword} {c : Container} {name : String}

/-- A keyword without the definition of the given name, if it is the container of that. -/
def withoutDefinition (c : Container) (name : String) : Keyword → Keyword
  | .definitions c' entries =>
    .definitions c' (if c' = c then entries.filter (·.1 != name) else entries)
  | k => k

@[simp] theorem kind_withoutDefinition (c : Container) (name : String) (k : Keyword) :
    (k.withoutDefinition c name).kind = k.kind := by
  cases k <;> rfl

theorem withoutDefinition_of_ne (h : k.kind ≠ .definitions c) : k.withoutDefinition c name = k := by
  cases k with
  | definitions c' entries =>
    have hc : c' ≠ c := fun hc => h (congrArg Kind.definitions hc)
    rw [withoutDefinition, if_neg hc]
  | _ => rfl

end Keyword

namespace Schema

variable {s : Schema} {c : Container} {name : String} {j : Json}

/-- A schema without a definition. -/
def withoutDefinition (c : Container) (name : String) (s : Schema) : Schema :=
  .mk (s.keywords.map (Keyword.withoutDefinition c name))

theorem get?_withoutDefinition (kind : Kind) :
    (s.withoutDefinition c name).get? kind =
      (s.get? kind).map (Keyword.withoutDefinition c name) :=
  get?_map Function.injective_id (Keyword.kind_withoutDefinition c name) s kind

theorem get?_withoutDefinition_of_ne (kind : Kind) (h : kind ≠ .definitions c) :
    (s.withoutDefinition c name).get? kind = s.get? kind := by
  rw [get?_withoutDefinition]
  cases hg : s.get? kind with
  | none => rfl
  | some k =>
    have hk : k.kind ≠ .definitions c := (mem_of_get? hg).2 ▸ h
    rw [Option.map_some, Keyword.withoutDefinition_of_ne hk]

theorem definitions_withoutDefinition (c' : Container) :
    (s.withoutDefinition c name).definitions c' =
      if c' = c then (s.definitions c').filter (·.1 != name) else s.definitions c' := by
  rw [definitions, definitions, get?_withoutDefinition]
  cases hg : s.get? (.definitions c') with
  | none => exact (ite_self []).symm
  | some k =>
    have hk := (mem_of_get? hg).2
    cases k with
    | definitions c'' entries =>
      cases hk
      rfl
    | _ => cases hk

theorem definition?_withoutDefinition {c' : Container} {n : String} (h : (c', n) ≠ (c, name)) :
    (s.withoutDefinition c name).definition? c' n = s.definition? c' n := by
  rw [definition?, definition?, definitions_withoutDefinition]
  split
  · rename_i hc
    subst hc
    exact Tables.lookup_filter (fun hn => h (by rw [hn])) _
  · rfl

theorem findDefinition?_withoutDefinition {n : String} (h : n ≠ name) :
    (s.withoutDefinition c name).findDefinition? n = s.findDefinition? n := by
  have hne : ∀ c', (c', n) ≠ (c, name) := fun c' heq => h (Prod.mk.inj heq).2
  rw [findDefinition?, findDefinition?, definition?_withoutDefinition (hne .defs),
    definition?_withoutDefinition (hne .definitions)]

section Others

variable (s : Schema) (c : Container) (name : String)

theorem types?_withoutDefinition : (s.withoutDefinition c name).types? = s.types? := by
  rw [types?, types?, get?_withoutDefinition_of_ne .type (by simp)]

theorem reference?_withoutDefinition : (s.withoutDefinition c name).reference? = s.reference? := by
  rw [reference?, reference?, get?_withoutDefinition_of_ne .ref (by simp)]

theorem requiredNames_withoutDefinition :
    (s.withoutDefinition c name).requiredNames = s.requiredNames := by
  rw [requiredNames, requiredNames, get?_withoutDefinition_of_ne .required (by simp)]

theorem properties_withoutDefinition : (s.withoutDefinition c name).properties = s.properties := by
  rw [properties, properties, get?_withoutDefinition_of_ne .properties (by simp)]

theorem declaredAttributes_withoutDefinition :
    declaredAttributes (s.withoutDefinition c name) = declaredAttributes s := by
  rw [declaredAttributes, declaredAttributes,
    get?_withoutDefinition_of_ne .documentAttributes (by simp)]

theorem declaredNamespaces_withoutDefinition :
    declaredNamespaces (s.withoutDefinition c name) = declaredNamespaces s := by
  rw [declaredNamespaces, declaredNamespaces, get?_withoutDefinition_of_ne .namespaces (by simp)]

theorem combinators_withoutDefinition :
    (s.withoutDefinition c name).combinators = s.combinators := by
  rw [combinators, combinators, withoutDefinition, keywords_mk, List.filterMap_map]
  congr 1
  funext k
  cases k <;> rfl

end Others

/-- A reference that leads to something else leads there without the definition, too. -/
theorem target?_withoutDefinition {r : String} (hd : (s.definition? c name).isSome)
    (h : s.target? r ≠ some (c, name)) :
    (s.withoutDefinition c name).target? r = s.target? r := by
  revert h
  unfold target?
  split
  · split
    · rename_i container n _
      cases Container.ofName? container with
      | none => exact fun _ => rfl
      | some c' =>
        simp only [Option.bind_eq_bind, Option.bind_some]
        intro h
        have hne : (c', n) ≠ (c, name) := by
          intro heq
          cases heq
          obtain ⟨t, ht⟩ := Option.isSome_iff_exists.1 hd
          rw [ht] at h
          exact h rfl
        rw [definition?_withoutDefinition hne]
    · exact fun _ => rfl
  · exact fun _ => rfl

/-! ## Reading without the definition -/

theorem forall₂_filter {members : List (String × Json)} {entries : List (String × Schema)}
    (h : List.Forall₂ EntryReads members entries) (name : String) :
    List.Forall₂ EntryReads (members.filter (·.1 != name)) (entries.filter (·.1 != name)) := by
  refine List.rel_filter ?_ h
  rintro m e ⟨hname, _⟩
  dsimp only
  rw [hname]

theorem denotes_withoutDefinition {n : String} {v : Json} {k : Keyword}
    (h : Keyword.Denotes n v k) (c : Container) (name : String) :
    Keyword.Denotes n (if n = c.name then v.without name else v) (k.withoutDefinition c name) := by
  cases h with
  | @definitions c' members entries hall =>
    by_cases hc : c' = c
    · rw [if_pos (by rw [hc]), Keyword.withoutDefinition, if_pos hc]
      exact .definitions (forall₂_filter hall name)
    · rw [if_neg (mt Container.name_inj.1 hc), Keyword.withoutDefinition, if_neg hc]
      exact .definitions hall
  | properties hall =>
    rw [if_neg (name_ne_properties c).symm]
    exact .properties hall
  | @combinator c' items branches hall =>
    have hname : c'.name ≠ c.name := by cases c' <;> cases c <;> decide
    rw [if_neg hname]
    exact .combinator hall
  | leaf hleaf =>
    have hname : n ≠ c.name := by
      rintro rfl
      exact hleaf.name_notMem.1 c.name_mem_ofEntries
    rw [if_neg hname, Keyword.withoutDefinition_of_ne (hleaf.kind_ne_definitions c)]
    exact .leaf hleaf

/-- **Without the entry the value is read as the schema without the definition.** -/
theorem ofJson?_withoutEntry (h : ofJson? j = .ok s) (c : Container) (name : String) :
    ofJson? (j.withoutEntry c.name name) = .ok (s.withoutDefinition c name) := by
  rcases ofJson?_ok.1 h with ⟨members, rfl, hall⟩ | ⟨rfl, rfl⟩
  · rw [Json.withoutEntry, ofJson?_obj, withoutDefinition, keywords_mk, List.forall₂_map_left_iff,
      List.forall₂_map_right_iff]
    refine hall.imp fun m k hk => ?_
    have hdenotes := denotes_withoutDefinition hk c name
    split
    · rename_i hm
      rwa [if_pos hm] at hdenotes
    · rename_i hm
      rwa [if_neg hm] at hdenotes
  · rfl

/-! ## What is left -/

/-- Some subschema of a schema, at any depth. -/
def HasSubschema (s t : Schema) : Prop := ∃ path, s.SubschemaAt path t

/-- No reference of a schema, at any depth, points to a definition. -/
def Unreferenced (s : Schema) (c : Container) (name : String) : Prop :=
  ∀ path t r, s.SubschemaAt path t → .ref r ∈ t.keywords → s.target? r ≠ some (c, name)

variable {t u : Schema} {n r : String} {c' : Container}

mutual

/-- The references in a schema, at any depth. -/
def references : Schema → List String
  | .mk keywords => keywordReferences keywords

def keywordReferences : List Keyword → List String
  | [] => []
  | k :: rest => referencesOf k ++ keywordReferences rest

def referencesOf : Keyword → List String
  | .ref reference => [reference]
  | .definitions _ entries | .properties entries => entryReferences entries
  | .combinator _ branches => branchReferences branches
  | _ => []

def entryReferences : List (String × Schema) → List String
  | [] => []
  | (_, t) :: rest => references t ++ entryReferences rest

def branchReferences : List Schema → List String
  | [] => []
  | t :: rest => references t ++ branchReferences rest

end

theorem mem_references : r ∈ t.references ↔ ∃ k ∈ t.keywords, r ∈ referencesOf k := by
  obtain ⟨keywords⟩ := t
  rw [references, keywords_mk]
  induction keywords with
  | nil => simp [keywordReferences]
  | cons k rest ih => simp [keywordReferences, ih]

theorem mem_entryReferences {entries : List (String × Schema)} :
    r ∈ entryReferences entries ↔ ∃ e ∈ entries, r ∈ e.2.references := by
  induction entries with
  | nil => simp [entryReferences]
  | cons e rest ih => simp [entryReferences, ih]

theorem mem_branchReferences {branches : List Schema} :
    r ∈ branchReferences branches ↔ ∃ t ∈ branches, r ∈ t.references := by
  induction branches with
  | nil => simp [branchReferences]
  | cons t rest ih => simp [branchReferences, ih]

theorem mem_referencesOf_entries {k : Keyword} {entries : List (String × Schema)}
    (h : k.entries? = some entries) :
    r ∈ referencesOf k ↔ ∃ e ∈ entries, r ∈ e.2.references := by
  cases k with
  | definitions c' _ =>
    cases h
    exact mem_entryReferences
  | properties _ =>
    cases h
    exact mem_entryReferences
  | _ => cases h

theorem mem_referencesOf_branches {k : Keyword} {branches : List Schema}
    (h : k.branches? = some branches) :
    r ∈ referencesOf k ↔ ∃ t ∈ branches, r ∈ t.references := by
  cases k with
  | combinator c' _ =>
    cases h
    exact mem_branchReferences
  | _ => cases h

/-- The references in a subschema are among those of the schema, by induction on its path. -/
theorem SubschemaAt.references_subset {path : List String} (h : s.SubschemaAt path t) :
    t.references ⊆ s.references := by
  induction h with
  | root => exact List.Subset.refl _
  | entry _ hk he hu ih =>
    exact fun r hr => ih (mem_references.2 ⟨_, hk, (mem_referencesOf_entries he).2 ⟨_, hu, hr⟩⟩)
  | branch _ hk hb hu ih =>
    have hmem := List.mem_of_getElem? hu
    exact fun r hr => ih (mem_references.2 ⟨_, hk, (mem_referencesOf_branches hb).2 ⟨_, hmem, hr⟩⟩)

/-- A definition is unreferenced if none of the references in the schema points to it. -/
theorem unreferenced_of_references (h : ∀ r ∈ s.references, s.target? r ≠ some (c, name)) :
    s.Unreferenced c name := by
  intro path t r ht hr
  refine h r (ht.references_subset (mem_references.2 ⟨_, hr, ?_⟩))
  exact List.mem_singleton.2 rfl

theorem hasSubschema_property (h : s.HasSubschema t) (hu : (n, u) ∈ t.properties) :
    s.HasSubschema u := by
  obtain ⟨path, ht⟩ := h
  obtain ⟨entries, hk, hm⟩ := mem_properties hu
  exact ⟨_, .entry ht hk rfl hm⟩

theorem hasSubschema_definition (h : (n, t) ∈ s.definitions c) : s.HasSubschema t := by
  obtain ⟨entries, hk, hm⟩ := mem_definitions h
  exact ⟨_, .entry .root hk rfl hm⟩

theorem hasSubschema_branch {combinator : Combinator}
    (h : s.combinators = [(combinator, [t])]) : s.HasSubschema t := by
  have hm : (combinator, [t]) ∈ s.combinators := h ▸ List.mem_cons_self
  obtain ⟨k, hk, hsome⟩ := List.mem_filterMap.1 hm
  cases k with
  | combinator c' branches =>
    cases hsome
    exact ⟨_, .branch .root hk rfl (show [t][0]? = some t from rfl)⟩
  | _ => cases hsome

/-- A definition that is the only one of its name, and that no reference points to. -/
structure Spare (s : Schema) (c : Container) (name : String) : Prop where
  present : (s.definition? c name).isSome
  only : ∀ c' t, (name, t) ∈ s.definitions c' → c' = c
  free : s.Unreferenced c name

namespace Spare

/-- References lead where they led before. -/
theorem target?_eq (h : s.Spare c name) (ht : s.HasSubschema t) (hr : t.reference? = some r) :
    (s.withoutDefinition c name).target? r = s.target? r := by
  obtain ⟨path, ht⟩ := ht
  exact target?_withoutDefinition h.present (h.free path t r ht (mem_of_reference? hr))

theorem name_ne (h : s.Spare c name) (ht : s.HasSubschema t) (hr : t.reference? = some r)
    (htarget : s.target? r = some (c', n)) : n ≠ name := by
  rintro rfl
  obtain ⟨v, hv⟩ := definition?_of_target? htarget
  obtain ⟨path, ht⟩ := ht
  refine h.free path t r ht (mem_of_reference? hr) ?_
  rw [htarget, h.only c' v (Tables.mem_of_lookup hv)]

end Spare
end Schema

namespace Conversion

open Schema

variable {s t : Schema} {c : Container} {name : String} {k : Classifier} {o : Options}
  {ns : Option String}

/-! ## What subschemas become -/

theorem NamesType.withoutDefinition {t' : Schema} {q : Option QualifiedName}
    (hspare : s.Spare c name) (ht : s.HasSubschema t) (hr : t'.reference? = t.reference?)
    (htypes : t'.types? = t.types?) (h : NamesType s ns t q) :
    NamesType (s.withoutDefinition c name) ns t' q := by
  cases h with
  | untyped href hnone => exact .untyped (hr.trans href) (htypes.trans hnone)
  | primitive href hsome hv => exact .primitive (hr.trans href) (htypes.trans hsome) hv
  | @reference r c' n href hnone htarget hns =>
    have htarget' := (hspare.target?_eq ht href).trans htarget
    exact .reference (hr.trans href) (htypes.trans hnone) htarget' hns

/-- A subschema becomes what it became before, by induction on the rules. -/
theorem Becomes.withoutDefinition {place : Pointer} {depth : Nat} {made : Synthesized}
    (hspare : s.Spare c name) (h : Becomes ⟨s, k, o⟩ ns place depth t made)
    (ht : s.HasSubschema t) :
    Becomes ⟨s.withoutDefinition c name, k, o⟩ ns place depth t made := by
  induction h with
  | @complex place depth t parts hd hopens hflag hkinds hparts hnames _ ih =>
    refine .complex hd ⟨hopens.shape, hopens.plain, hopens.types, hopens.required⟩ hflag hkinds
      hparts hnames fun p hp => ih p hp (hasSubschema_property (n := p.name) ht ?_)
    rw [← hparts]
    exact List.mem_map_of_mem hp
  | simple hd hopens hkinds hname =>
    exact .simple hd ⟨hopens.notComplex, hopens.shape, hopens.plain⟩ hkinds
      (hname.withoutDefinition hspare ht rfl rfl)

theorem nextBase?_withoutDefinition (hspare : s.Spare c name) (ht : s.HasSubschema t)
    (place : Pointer) :
    nextBase? (s.withoutDefinition c name) ns place t = nextBase? s ns place t := by
  rw [nextBase?, nextBase?]
  cases hr : t.reference? with
  | none => rfl
  | some r => rw [Option.bind_some, Option.bind_some, resolve, resolve, hspare.target?_eq ht hr]

theorem name_ne_of_nextBase? {place : Pointer} {next : String} (hspare : s.Spare c name)
    (ht : s.HasSubschema t) (h : nextBase? s ns place t = some next) : next ≠ name := by
  obtain ⟨_, r, c', hr, htarget⟩ := nextBase?_eq_some.1 h
  exact hspare.name_ne ht hr htarget

/-- Chains of bases do not come to the definition. -/
theorem checkChain_withoutDefinition (hspare : s.Spare c name) (item : String)
    (chain : List String) {current : String} (h : current ≠ name) :
    checkChain ⟨s.withoutDefinition c name, k, o⟩ ns item chain current =
      checkChain ⟨s, k, o⟩ ns item chain current := by
  have hdefinition : ∀ {n : String} {c' : Container} {t : Schema},
      s.findDefinition? n = some (c', t) → s.HasSubschema t := fun hf =>
    hasSubschema_definition (mem_of_findDefinition? hf)
  refine checkChain_congr (P := fun n => n ≠ name) (fun n hn => ?_) (fun n next _ hlink => ?_) chain h
  · rw [link?, link?]
    dsimp only
    rw [findDefinition?_withoutDefinition hn]
    cases hf : s.findDefinition? n with
    | none => rfl
    | some found =>
      obtain ⟨c', t⟩ := found
      rw [Option.map_some, Option.map_some, nextBase?_withoutDefinition hspare (hdefinition hf)]
  · rw [link?] at hlink
    obtain ⟨⟨c', t⟩, hf, hfound⟩ := Option.map_eq_some_iff.1 hlink
    exact name_ne_of_nextBase? hspare (hdefinition hf) (Prod.mk.inj hfound).2

theorem checkBase_withoutDefinition {place : Pointer} {item : String} {base : QualifiedName}
    (hspare : s.Spare c name) (ht : s.HasSubschema t) (hbase : NamesType s ns t (some base)) :
    checkBase ⟨s.withoutDefinition c name, k, o⟩ ns place item base =
      checkBase ⟨s, k, o⟩ ns place item base := by
  cases hbase with
  | primitive _ _ _ => rfl
  | reference hr _ htarget _ =>
    simp only [checkBase, QualifiedName.plain,
      checkChain_withoutDefinition hspare item [item] (hspare.name_ne ht hr htarget)]

theorem BecomesItem.withoutDefinition {c' : Container} {n : String} {item : Item}
    (hspare : s.Spare c name) (ht : s.HasSubschema t)
    (h : BecomesItem ⟨s, k, o⟩ ns c' n t item) :
    BecomesItem ⟨s.withoutDefinition c name, k, o⟩ ns c' n t item := by
  cases h with
  | complex hname hbecomes => exact .complex hname (hbecomes.withoutDefinition hspare ht)
  | simple hname hbecomes hbase =>
    refine .simple hname (hbecomes.withoutDefinition hspare ht) ?_
    rw [checkBase_withoutDefinition hspare ht (hbecomes.of_simple rfl).2.2.2]
    exact hbase

/-! ## The root -/

theorem BecomesRoot.withoutDefinition {e : Element} (hspare : s.Spare c name)
    (h : BecomesRoot ⟨s, k, o⟩ ns e) :
    BecomesRoot ⟨s.withoutDefinition c name, k, o⟩ ns e := by
  have hroot : s.HasSubschema s := ⟨_, .root⟩
  have hc' := combinators_withoutDefinition s c name
  cases h with
  | complex hi hc hopens hmembers =>
    obtain ⟨parts, hparts, hnames, hbecomes, rfl⟩ := hmembers
    dsimp only at hparts
    refine .complex hi (hc'.trans hc) ⟨hopens.shape, hopens.plain, ?_, ?_⟩
      ⟨parts, ?_, hnames, fun p hp => ?_, ?_⟩
    · rw [types?_withoutDefinition]
      exact hopens.types
    · rw [requiredNames_withoutDefinition, properties_withoutDefinition]
      exact hopens.required
    · rw [properties_withoutDefinition, hparts]
    · refine (hbecomes p hp).withoutDefinition hspare (hasSubschema_property (n := p.name) hroot ?_)
      rw [← hparts]
      exact List.mem_map_of_mem hp
    · rw [requiredNames_withoutDefinition]
  | simple hi hc hopens hname =>
    refine .simple hi (hc'.trans hc) ⟨hopens.notComplex, hopens.shape, hopens.plain⟩ ?_
    exact hname.withoutDefinition hspare hroot (reference?_withoutDefinition s c name)
      (types?_withoutDefinition s c name)
  | @wrapped combinator r target n hi hp hc htarget hns =>
    have hbranch : s.HasSubschema (.mk [.ref r]) := hasSubschema_branch hc
    have htarget' := (hspare.target?_eq hbranch rfl).trans htarget
    have hp' : (s.withoutDefinition c name).get? .properties = none :=
      (get?_withoutDefinition_of_ne .properties (by simp)).trans hp
    exact .wrapped hi hp' (hc'.trans hc) htarget' hns

/-! ## The items of the document -/

/-- Whether an item is other than the type of a name. -/
def isOther (name : String) (item : Item) : Bool := item.declaredName? != some name

/-- Definitions without the one become the types without that of it. -/
theorem becomeItems_filter {c' : Container} {entries : List (String × Schema)} {made : List Item}
    (hspare : s.Spare c name) (hin : ∀ e ∈ entries, s.HasSubschema e.2)
    (h : BecomeItems ⟨s, k, o⟩ ns c' entries made) :
    BecomeItems ⟨s.withoutDefinition c name, k, o⟩ ns c' (entries.filter (·.1 != name))
      (made.filter (isOther name)) := by
  have hboth := Tables.forall₂_imp h fun e he item hitem =>
    And.intro hitem.declaredName (hitem.withoutDefinition hspare (hin e he))
  refine (List.rel_filter ?_ hboth).imp fun _ _ => And.right
  rintro e item ⟨hname, _⟩
  simp [isOther, hname]

/-- Only in one container is there anything to take out. -/
theorem definitions_withoutEntry {c' : Container} {entries : List (String × Schema)}
    (hs : s.IsRead) (hspare : s.Spare c name) (hk : .definitions c' entries ∈ s.keywords) :
    (Keyword.definitions c' entries).withoutDefinition c name =
      .definitions c' (entries.filter (·.1 != name)) := by
  rw [Keyword.withoutDefinition]
  split
  · rfl
  · rename_i hc
    rw [List.filter_eq_self.2]
    rintro ⟨n, t⟩ he
    rw [bne_iff_ne]
    rintro rfl
    exact hc (hspare.only c' t (hs.definitions_eq hk ▸ he))

/-- **The items of the document lose the type of the definition only**, by induction on the rules for
the keywords of the root. -/
theorem BecomesItems.withoutDefinition {marked : List Kind} {built final : Bool}
    {keywords : List Keyword} {items : List Item} (hs : s.IsRead) (hspare : s.Spare c name)
    (hk : ∀ keyword ∈ keywords, keyword ∈ s.keywords)
    (h : BecomesItems ⟨s, k, o⟩ ns marked built keywords items final) :
    BecomesItems ⟨s.withoutDefinition c name, k, o⟩ ns marked built
      (keywords.map (Keyword.withoutDefinition c name)) (items.filter (isOther name)) final := by
  induction h with
  | nil => exact .nil
  | pass hpass _ ih =>
    obtain ⟨_, hrest⟩ := List.forall_mem_cons.1 hk
    exact .pass (by rwa [Keyword.kind_withoutDefinition]) (ih hrest)
  | info hm ha _ ih =>
    obtain ⟨_, hrest⟩ := List.forall_mem_cons.1 hk
    rw [List.filter_cons_of_pos rfl]
    exact .info hm ha (ih hrest)
  | @definitions marked built final c' entries made items rest hm hmade _ ih =>
    obtain ⟨hmem, hrest⟩ := List.forall_mem_cons.1 hk
    rw [List.map_cons, definitions_withoutEntry hs hspare hmem, List.filter_append]
    refine .definitions hm (becomeItems_filter hspare (fun e he => ?_) hmade) (ih hrest)
    exact hasSubschema_definition (n := e.1) (hs.definitions_eq hmem ▸ he)
  | @root marked final keyword e rest items hm hd he _ ih =>
    obtain ⟨_, hrest⟩ := List.forall_mem_cons.1 hk
    have hkind := Keyword.kind_withoutDefinition c name keyword
    rw [List.filter_cons_of_pos rfl, List.map_cons]
    exact .root (hkind ▸ hm) (hkind ▸ hd) (he.withoutDefinition hspare) (hkind ▸ ih hrest)
  | @again marked final keyword rest items hm hd _ ih =>
    obtain ⟨_, hrest⟩ := List.forall_mem_cons.1 hk
    have hkind := Keyword.kind_withoutDefinition c name keyword
    rw [List.map_cons]
    exact .again (hkind ▸ hm) (hkind ▸ hd) (hkind ▸ ih hrest)

theorem BecomesAll.withoutDefinition {all : List Item} (hs : s.IsRead) (hspare : s.Spare c name)
    (h : BecomesAll ⟨s, k, o⟩ ns all) :
    BecomesAll ⟨s.withoutDefinition c name, k, o⟩ ns (all.filter (isOther name)) := by
  obtain ⟨items, built, hitems, hall⟩ := h
  refine ⟨items.filter (isOther name), built,
    hitems.withoutDefinition hs hspare fun _ hk => hk, ?_⟩
  rcases hall with ⟨hb, rfl⟩ | ⟨hb, hi, e, he, rfl⟩
  · exact .inl ⟨hb, rfl⟩
  · exact .inr ⟨hb, hi, e, he.withoutDefinition hspare, List.filter_append ..⟩

/-- **Without the definition the schema yields the document without its type.** -/
theorem Yields.withoutDefinition {d : Document} (hs : s.IsRead) (hspare : s.Spare c name)
    (h : Yields ⟨s, k, o⟩ d) :
    Yields ⟨s.withoutDefinition c name, k, o⟩
      { d with items := d.items.filter (isOther name) } := by
  refine ⟨?_, fun n v => ?_, ?_, h.named, ?_, ?_, h.items.withoutDefinition hs hspare⟩
  · rw [declaredAttributes_withoutDefinition]
    exact h.accepted
  · rw [declaredAttributes_withoutDefinition]
    exact h.attributes n v
  · rw [declaredNamespaces_withoutDefinition]
    exact h.table
  · exact (List.filter_sublist.filterMap Item.declaredName?).nodup h.names
  · intro keyword hk
    obtain ⟨original, ho, rfl⟩ := List.mem_map.1 hk
    rw [Keyword.kind_withoutDefinition]
    exact h.kinds original ho

theorem BecomesDocument.spare {d : Document} (hd : BecomesDocument ⟨s, k, o⟩ d) (hs : s.IsRead)
    (hm : (name, t) ∈ s.definitions c) (hfree : s.Unreferenced c name) : s.Spare c name := by
  refine ⟨?_, fun c' u hu => ?_, hfree⟩
  · rw [definition?, Tables.lookup_of_mem (hs.definitions_nodup c) hm]
    rfl
  · have hsame := (hd.findDefinition? hu).symm.trans (hd.findDefinition? hm)
    exact congrArg Prod.fst (Option.some.inj hsame)

/-- The type of a definition, and the items before and after it. -/
theorem BecomesDocument.split {d : Document} (hd : BecomesDocument ⟨s, k, o⟩ d)
    (hm : (name, t) ∈ s.definitions c) :
    ∃ before item after, d.items = before ++ item :: after ∧ item.isType = true ∧
      item.declaredName? = some name ∧ d.items.filter (isOther name) = before ++ after := by
  obtain ⟨item, hi, hitem, _⟩ := hd.item_of_definition hm
  obtain ⟨before, after, hitems⟩ := List.append_of_mem hi
  have hnames := hd.names
  rw [Document.declaredNames, hitems, List.filterMap_append,
    List.filterMap_cons_some hitem.declaredName] at hnames
  have hothers := (List.nodup_middle.1 hnames)
  rw [List.nodup_cons, ← List.filterMap_append] at hothers
  have hkept : ∀ other ∈ before ++ after, isOther name other = true := fun other ho =>
    bne_iff_ne.2 fun hname => hothers.1 (List.mem_filterMap.2 ⟨other, ho, hname⟩)
  refine ⟨before, item, after, hitems, hitem.isType, hitem.declaredName, ?_⟩
  have hgone : ¬ isOther name item = true := by simp [isOther, hitem.declaredName]
  rw [hitems, List.filter_append, List.filter_cons_of_neg hgone, ← List.filter_append,
    List.filter_eq_self.2 hkept]

end Conversion

/-- **Definitions are independent of one another.** A definition that no reference points to can be
taken out of a document that converts: what is left converts, too, and to the same but for the type
of that definition. -/
theorem definitions_independent {j : Json} (hj : j.Distinct) {classifier : Classifier}
    {options : Options} {d : Document} (h : convertJson j classifier options = .ok d) {s : Schema}
    (hs : Schema.ofJson? j = .ok s) {c : Container} {name : String} {t : Schema}
    (hm : (name, t) ∈ s.definitions c) (hfree : s.Unreferenced c name) :
    ∃ before item after, d.items = before ++ item :: after ∧ item.isType = true ∧
      item.declaredName? = some name ∧
      convertJson (j.withoutEntry c.name name) classifier options =
        .ok { d with items := before ++ after } := by
  have hread : s.IsRead := ⟨_, _, hj, hs⟩
  obtain ⟨s₁, hs₁, hd⟩ := convertJson_ok h
  obtain ⟨s₂, hs₂, hyields⟩ := (convertJson_ok_iff hj).1 h
  cases hs.symm.trans hs₁
  cases hs.symm.trans hs₂
  have hspare := hd.spare hread hm hfree
  obtain ⟨before, item, after, hitems, htype, hname, hrest⟩ := hd.split hm
  refine ⟨before, item, after, hitems, htype, hname, ?_⟩
  rw [convertJson_ok_iff (Json.distinct_withoutEntry hj c.name name), ← hrest]
  exact ⟨_, Schema.ofJson?_withoutEntry hs c name, hyields.withoutDefinition hread hspare⟩

/-- `attributeSchema` with a definition that nothing refers to. -/
def spareSchema : Json :=
  .obj [("properties", .obj [("x", .obj [("$ref", .str "#/$defs/P"),
      ("@xsdAttribute", .bool true)])]),
    ("$defs", .obj [("P", .obj [("$ref", .str "#/$defs/Q")]),
      ("R", .obj [("$ref", .str "#/$defs/P")]), ("Q", .obj [("type", .str "string")])])]

theorem definitions_independent_spareSchema :
    ∃ d before item after, convertJson spareSchema complexRoot {} = .ok d ∧
      d.items = before ++ item :: after ∧ item.declaredName? = some "R" ∧
      convertJson attributeSchema complexRoot {} = .ok { d with items := before ++ after } := by
  have hdistinct : spareSchema.Distinct := Json.distinct_of_merged (by rfl)
  have hrun : (convertJson spareSchema complexRoot {}).toOption.any (fun _ => true) = true := by
    decide +kernel
  obtain ⟨d, hd, _⟩ := Checks.exists_of_any hrun
  have hs : Schema.ofJson? spareSchema = .ok (.mk [
      .properties [("x", .mk [.ref "#/$defs/P", .asAttribute true])],
      .definitions .defs [("P", .mk [.ref "#/$defs/Q"]), ("R", .mk [.ref "#/$defs/P"]),
        ("Q", .mk [.type [.string]])]]) := by
    rfl
  obtain ⟨before, item, after, hitems, _, hname, hless⟩ :=
    definitions_independent (c := .defs) hdistinct hd hs
      (List.mem_cons_of_mem _ List.mem_cons_self)
      (Schema.unreferenced_of_references (by decide +kernel))
  exact ⟨d, before, item, after, hd, hitems, hname, hless⟩

end XsdSynthesis
