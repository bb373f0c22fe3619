import XsdSynthesis.Proofs.Derivation
import XsdSynthesis.Proofs.Reading
import XsdSynthesis.Proofs.StartTags

/-!
# XsdSynthesis.Proofs.Capture

No declared prefix captures a name. A converted document binds its prefixes well (`bindsPrefixes_of`): what the
schema declares comes from one object, and a built-in prefix is added only if it is free. Every type
name of the document can be written (`canWrite_of`): it is built in, or the name of a definition,
and then there is no default namespace. So every type name and every tag is read as what it is
(`written_names_denote`).
-/

namespace XsdSynthesis

open Xsd Conversion

namespace Conversion

variable {source : Source} {l l' : Ledger} {table table' declared : List (String × String)}
  {binding : String × String}

/-! ## The table of prefixes -/

/-- A built-in namespace is bound already, or its prefix is free and it is added. -/
theorem addBuiltIn_ok :
    addBuiltIn table binding = .ok table' ↔
      (binding.2 ∈ table.map Prod.snd ∧ table' = table) ∨
        (binding.2 ∉ table.map Prod.snd ∧ binding.1 ∉ table.map Prod.fst ∧
          table' = table ++ [binding]) := by
  obtain ⟨p, uri⟩ := binding
  have hbound : table.any (·.2 == uri) = true ↔ uri ∈ table.map Prod.snd := by simp
  by_cases hu : table.any (·.2 == uri) = true
  · simp only [addBuiltIn, if_pos hu, Except.ok.injEq, hbound.1 hu, not_true, false_and, or_false,
      true_and]
    exact eq_comm
  · have hnot : uri ∉ table.map Prod.snd := fun hm => hu (hbound.2 hm)
    cases hl : table.lookup p with
    | some bound =>
      have hm : p ∈ table.map Prod.fst := Tables.exists_lookup_iff.1 ⟨bound, hl⟩
      simp [addBuiltIn, hu, hl, hnot, hm]
    | none =>
      have hm : p ∉ table.map Prod.fst := Tables.lookup_eq_none.1 hl
      simp only [addBuiltIn, if_neg hu, hl, Except.ok.injEq, hnot, hm, false_and, false_or,
        not_false_eq_true, true_and]
      exact eq_comm

/-- Prefixes that differ, each empty or a name. -/
structure PrefixesFit (table : List (String × String)) : Prop where
  distinct : (table.map Prod.fst).Nodup
  named : ∀ p ∈ table.map Prod.fst, p = "" ∨ Xml.isName p = true

theorem prefixesFit_addBuiltIn (hp : PrefixesFit table) (hname : Xml.isName binding.1 = true)
    (h : addBuiltIn table binding = .ok table') :
    PrefixesFit table' ∧ binding.2 ∈ table'.map Prod.snd := by
  rcases addBuiltIn_ok.1 h with ⟨hu, rfl⟩ | ⟨_, hfree, rfl⟩
  · exact ⟨hp, hu⟩
  · refine ⟨⟨?_, fun p hm => ?_⟩, by simp⟩
    · have hnew := hp.distinct.concat hfree
      rw [List.concat_eq_append] at hnew
      rw [List.map_append]
      exact hnew
    · rw [List.map_append, List.mem_append] at hm
      rcases hm with hm | hm
      · exact hp.named p hm
      · rw [List.map_singleton, List.mem_singleton] at hm
        exact .inr (hm ▸ hname)

theorem checkPrefix_ok {p : String} {u : Unit} :
    checkPrefix p = .ok u ↔ p = "" ∨ Xml.isName p = true := by
  unfold checkPrefix
  split
  · rename_i h
    simp [h]
  · rename_i h
    simp [h, checkName_ok]

theorem checkPrefixes_ok {u : Unit} :
    (declared.forM fun b => checkPrefix b.1) = (.ok u : Except Problem Unit) ↔
      ∀ p ∈ declared.map Prod.fst, p = "" ∨ Xml.isName p = true := by
  induction declared with
  | nil => simp [pure, Except.pure]
  | cons b rest ih =>
    have hstep : ((b :: rest).forM fun b => checkPrefix b.1) = (.ok u : Except Problem Unit) ↔
        ∃ v, checkPrefix b.1 = .ok v ∧ (rest.forM fun b => checkPrefix b.1) = .ok u :=
      Checks.bind_ok
    rw [hstep, ih, List.map_cons, List.forall_mem_cons]
    simp only [checkPrefix_ok, exists_const]

/-- **A table of prefixes fits, and names XML Schema**, if what is declared binds no prefix twice. -/
theorem prefixesFit_namespaceTable (hn : (declared.map Prod.fst).Nodup)
    (h : namespaceTable declared = .ok table) :
    PrefixesFit table ∧ schemaNamespace ∈ table.map Prod.snd := by
  obtain ⟨_, hchecked, h⟩ := Checks.bind_ok.1 h
  simp only [builtInNamespaces, List.foldlM_cons, List.foldlM_nil] at h
  obtain ⟨t₁, h₁, h⟩ := Checks.bind_ok.1 h
  obtain ⟨t₂, h₂, h⟩ := Checks.bind_ok.1 h
  cases Checks.pure_ok.1 h
  obtain ⟨hfit, hschema⟩ :=
    prefixesFit_addBuiltIn ⟨hn, checkPrefixes_ok.1 hchecked⟩ (by decide) h₁
  obtain ⟨prefixes, rfl⟩ := addBuiltIn_extends h₂
  refine ⟨(prefixesFit_addBuiltIn hfit (by decide) h₂).1, ?_⟩
  rw [List.map_append]
  exact List.mem_append_left _ hschema

theorem mem_namespaceTable (h : namespaceTable declared = .ok table) {b : String × String}
    (hb : b ∈ table) : b ∈ declared ∨ b ∈ builtInNamespaces := by
  have hadded : ∀ {before after : List (String × String)} {binding : String × String},
      addBuiltIn before binding = .ok after → b ∈ after → b ∈ before ∨ b = binding := by
    intro before after binding hok hm
    rcases addBuiltIn_ok.1 hok with ⟨_, rfl⟩ | ⟨_, _, rfl⟩
    · exact .inl hm
    · simpa using hm
  obtain ⟨_, _, h⟩ := Checks.bind_ok.1 h
  simp only [builtInNamespaces, List.foldlM_cons, List.foldlM_nil] at h
  obtain ⟨t₁, h₁, h⟩ := Checks.bind_ok.1 h
  obtain ⟨t₂, h₂, h⟩ := Checks.bind_ok.1 h
  cases Checks.pure_ok.1 h
  rcases hadded h₂ hb with hb | rfl
  · rcases hadded h₁ hb with hb | rfl
    · exact .inl hb
    · exact .inr List.mem_cons_self
  · exact .inr (List.mem_cons_of_mem _ List.mem_cons_self)

/-! ## The heading of a document -/

/-- A conversion makes the heading first, and then only adds items. -/
theorem run_heading (h : run source l = (.ok (), l')) :
    ∃ l₁ table, applyEach source (declaredAttributes source.schema) l = (.ok (), l₁) ∧
      namespaceTable (declaredNamespaces source.schema) = .ok table ∧
      l'.document = { l₁.document with namespaces := table, items := l'.document.items } := by
  unfold run at h
  obtain ⟨_, l₁, ha, h⟩ := bind_ok.1 h
  rw [bind_advance_ok] at h
  obtain ⟨_, l₂, hn, h⟩ := bind_ok.1 h
  rw [bind_advance_ok, bind_advance_ok] at h
  obtain ⟨⟨w, built⟩, l₃, hd, h⟩ := bind_ok.1 h
  obtain ⟨w', l₄, hf, h⟩ := bind_ok.1 h
  rw [bind_advance_ok] at h
  obtain ⟨_, rfl⟩ := lift_ok.1 h
  obtain ⟨table, htable, hn⟩ := bind_lift_ok.1 hn
  rw [bind_emit_ok] at hn
  cases hn
  obtain ⟨hs, items, hdoc, _, _⟩ :=
    dispatchEach_ok (rootState_rootWorkList source) (fun _ hk => hk) hd
  obtain ⟨_, more, hlast, _⟩ := finishRoot_ok hs hf
  refine ⟨l₁, table, ha, htable, ?_⟩
  rw [hdoc] at hlast
  change l₄.document = { l₁.document with namespaces := table, items := l₄.document.items }
  rw [hlast]
  rfl

end Conversion

/-- What a schema declares, it declares under different prefixes. -/
theorem declaredNamespaces_nodup {s : Schema} (hs : s.IsRead) :
    ((declaredNamespaces s).map Prod.fst).Nodup := by
  unfold declaredNamespaces
  split
  · rename_i bindings hg
    exact hs.namespaces (mem_of_get? hg).1
  · exact .nil

variable {source : Source} {d : Document} {ns : Option String} {q : QualifiedName}

theorem bindsPrefixes_of_run {l l' : Ledger} (hs : source.schema.IsRead)
    (h : run source l = (.ok (), l')) : l'.document.BindsPrefixes := by
  obtain ⟨l₁, table, _, htable, hdoc⟩ := run_heading h
  obtain ⟨hfit, hschema⟩ := prefixesFit_namespaceTable (declaredNamespaces_nodup hs) htable
  rw [hdoc]
  exact ⟨hfit.distinct, hfit.named, hschema⟩

/-! ## Names that documents refer to -/

/-- A name is built in, or names a definition while there is no default namespace. -/
def Refers (s : Schema) (ns : Option String) (q : QualifiedName) : Prop :=
  (∃ b ∈ primitiveNames, q = .builtIn b) ∨
    ns = none ∧ q.ns = none ∧ ∃ c t, (q.name, t) ∈ s.definitions c

theorem refers_of_target? {s : Schema} {r name : String} {c : Container}
    (h : s.target? r = some (c, name)) : Refers s none (.plain name) := by
  obtain ⟨t, ht⟩ := definition?_of_target? h
  exact .inr ⟨rfl, rfl, c, t, Tables.mem_of_lookup ht⟩

namespace Xsd

theorem mem_typeNamesOf {elements : List Element} :
    q ∈ typeNamesOf elements ↔ ∃ e ∈ elements, q ∈ e.typeNames := by
  induction elements with
  | nil => simp [typeNamesOf]
  | cons e rest ih => simp [typeNamesOf, ih]

theorem ComplexType.mem_typeNames {t : ComplexType} :
    q ∈ t.typeNames ↔ (∃ e ∈ t.elements, q ∈ e.typeNames) ∨
      ∃ a ∈ t.attributes, a.typeName = some q := by
  obtain ⟨name, sequence, attributes⟩ := t
  cases sequence <;>
    simp [typeNames, mem_typeNamesOf, elements, ComplexType.attributes, ComplexType.sequence,
      Option.mem_toList]

end Xsd

namespace Conversion

theorem NamesType.refers {s t : Schema} (h : NamesType s ns t (some q)) : Refers s ns q := by
  cases h with
  | primitive _ _ hv => exact .inl ⟨_, mem_primitiveNames hv, rfl⟩
  | reference _ _ ht hns => exact hns ▸ refers_of_target? ht

/-- The type names in what a subschema becomes. -/
def Node.typeNames : Node → List QualifiedName
  | complex type => type.typeNames
  | simple typeName => typeName.toList

theorem Part.typeNames_element {required : List String} {part : Part} {e : Element}
    (h : part.element? required = some e) : e.typeNames = part.made.node.typeNames := by
  obtain ⟨name, schema, node, flag⟩ := part
  cases node with
  | complex type =>
    cases h
    simp [Element.typeNames, Node.typeNames]
  | simple typeName =>
    cases flag with
    | true => cases h
    | false =>
      cases h
      simp [Element.typeNames, Node.typeNames]

theorem Part.typeName_attribute {required : List String} {part : Part} {a : Attribute}
    (h : part.attribute? required = some a) : a.typeName.toList = part.made.node.typeNames := by
  rw [made_of_attribute h]
  rfl

/-- The type names of members are those of the parts that the members stand for. -/
theorem mem_typeNames_members {required : List String} {parts : List Part}
    (h : q ∈ (Members.ofParts required parts).type.typeNames) :
    ∃ part ∈ parts, q ∈ part.made.node.typeNames := by
  rw [ComplexType.mem_typeNames, elements_type, elements_ofParts, attributes_type,
    attributes_ofParts] at h
  rcases h with ⟨e, he, hq⟩ | ⟨a, ha, hq⟩
  · obtain ⟨part, hm, hpart⟩ := List.mem_filterMap.1 he
    exact ⟨part, hm, Part.typeNames_element hpart ▸ hq⟩
  · obtain ⟨part, hm, hpart⟩ := List.mem_filterMap.1 ha
    refine ⟨part, hm, Part.typeName_attribute hpart ▸ ?_⟩
    rw [hq]
    exact List.mem_singleton_self q

theorem Becomes.refers {place : Pointer} {depth : Nat} {t : Schema} {made : Synthesized}
    (h : Becomes source ns place depth t made) :
    ∀ q ∈ made.node.typeNames, Refers source.schema ns q := by
  induction h with
  | complex _ _ _ _ _ _ _ ih =>
    intro q hq
    obtain ⟨part, hm, hq⟩ := mem_typeNames_members hq
    exact ih part hm q hq
  | simple _ _ _ hname =>
    intro q hq
    rw [Option.mem_toList.1 hq] at hname
    exact hname.refers

theorem BecomesItem.refers {c : Container} {name : String} {t : Schema} {item : Item}
    (h : BecomesItem source ns c name t item) :
    ∀ q ∈ item.typeNames, Refers source.schema ns q := by
  intro q hq
  cases h with
  | @complex type _ hbecomes =>
    refine hbecomes.refers q ?_
    cases type
    exact hq
  | simple _ hbecomes _ => exact hbecomes.refers q (List.mem_singleton.1 hq ▸ List.mem_singleton_self _)

theorem BecomesRoot.refers {e : Element} (h : BecomesRoot source ns e) :
    ∀ q ∈ e.typeNames, Refers source.schema ns q := by
  intro q hq
  cases h with
  | complex _ _ _ hmembers =>
    obtain ⟨parts, _, _, hbecomes, rfl⟩ := hmembers
    obtain ⟨part, hm, hq⟩ := mem_typeNames_members (by simpa [Element.typeNames] using hq)
    exact (hbecomes part hm).refers q hq
  | simple _ _ _ hname =>
    have htype := Option.mem_toList.1 (by simpa [Element.typeNames] using hq)
    rw [htype] at hname
    exact hname.refers
  | @wrapped _ _ _ name _ _ _ ht hns =>
    have hplain : q = .plain name := by simpa [Element.typeNames] using hq
    rw [hplain, hns]
    exact refers_of_target? ht

theorem BecomesDocument.refers (hd : BecomesDocument source d) :
    ∀ q ∈ d.typeNames, Refers source.schema (d.namespaceOf? "") q := by
  intro q hq
  obtain ⟨item, hi, hq⟩ := List.mem_flatMap.1 hq
  cases item with
  | documentation a => cases hq
  | element e => exact (hd.root_of_element hi).refers q hq
  | complexType type =>
    obtain ⟨c, name, t, _, hitem⟩ := hd.definition_of_item hi rfl
    exact hitem.refers q hq
  | simpleType type =>
    obtain ⟨c, name, t, _, hitem⟩ := hd.definition_of_item hi rfl
    exact hitem.refers q hq

theorem BecomesDocument.isName_definition (hd : BecomesDocument source d) {c : Container}
    {name : String} {t : Schema} (hm : (name, t) ∈ source.schema.definitions c) :
    Xml.isName name = true := by
  obtain ⟨item, _, hitem, _⟩ := hd.item_of_definition hm
  cases hitem with
  | complex hname _ => exact hname
  | simple hname _ _ => exact hname

/-- **Every type name can be written.** -/
theorem BecomesDocument.canWrite (hd : BecomesDocument source d) (hb : d.BindsPrefixes) :
    ∀ q ∈ d.typeNames, d.CanWrite q := by
  intro q hq
  rcases hd.refers q hq with ⟨b, hprimitive, rfl⟩ | ⟨hns, hplain, c, t, hm⟩
  · refine ⟨?_, ?_, nofun⟩
    · have hall : ∀ b ∈ primitiveNames, ':' ∉ b.toList := by decide
      exact hall b hprimitive
    · rintro uri ⟨⟩
      exact hb.schema
  · refine ⟨Xml.not_mem_of_isName (hd.isName_definition hm) Xml.isNameChar_colon, ?_, fun _ => ?_⟩
    · intro uri huri
      rw [hplain] at huri
      cases huri
    · exact Tables.lookup_eq_none.1 hns

end Conversion

theorem convertJson_bindsPrefixes {j : Json} {classifier : Classifier} {options : Options}
    (hj : j.Distinct) (h : convertJson j classifier options = .ok d) :
    d.BindsPrefixes ∧ ∀ q ∈ d.typeNames, d.CanWrite q := by
  obtain ⟨s, hs, l, l', _, hrun, rfl⟩ := convertJson_run h
  have hread : (⟨s, classifier, options⟩ : Source).schema.IsRead := ⟨_, _, hj, hs⟩
  have hb := bindsPrefixes_of_run hread hrun
  obtain ⟨s', hs', hd⟩ := convertJson_ok h
  exact ⟨hb, hd.canWrite hb⟩

theorem colon_notMem_tagNames : ∀ name ∈ Document.tagNames, ':' ∉ name.toList := by decide

/-- **No name is captured.** In the scope of a converted document's prefixes, every type name is read as
the name that it was written for, and every tag as a name of XML Schema. -/
theorem written_names_denote {j : Json} {classifier : Classifier} {options : Options}
    {d : Document} (hj : j.Distinct) (h : convertJson j classifier options = .ok d) :
    (∀ q ∈ d.typeNames, resolveName? d.namespaces (d.lexical q) = some q) ∧
      ∀ tag ∈ d.toXml.tags, ∃ name ∈ Document.tagNames,
        resolveName? d.namespaces tag = some (.builtIn name) := by
  obtain ⟨hb, hw⟩ := convertJson_bindsPrefixes hj h
  refine ⟨fun q hq => Document.resolveName?_lexical hb (hw q hq), fun tag ht => ?_⟩
  obtain ⟨name, hname, rfl⟩ := Document.mem_tags_toXml ht
  exact ⟨name, hname, Document.resolveName?_tag hb (colon_notMem_tagNames name hname)⟩

/-- A root that binds the namespace of XML Schema twice, and refers to a definition. -/
def aliasedSchema : Json :=
  .obj [("properties", .obj [("x", .obj [("$ref", .str "#/$defs/P")])]),
    ("$defs", .obj [("P", .obj [("type", .str "string")])]),
    (Spelling.namespaces, .obj [("q", .str "urn:q"), ("xs", .str schemaNamespace),
      ("other", .str schemaNamespace)])]

theorem written_names_denote_aliased :
    aliasedSchema.Distinct ∧ ∃ d, convertJson aliasedSchema complexRoot {} = .ok d ∧
      d.typeNames.map d.lexical = ["P", "xs:string"] ∧
      (∀ q ∈ d.typeNames, resolveName? d.namespaces (d.lexical q) = some q) ∧
      ∀ tag ∈ d.toXml.tags, ∃ name ∈ Document.tagNames,
        resolveName? d.namespaces tag = some (.builtIn name) := by
  have hmerged : aliasedSchema.merged = aliasedSchema := by rfl
  have hdistinct : aliasedSchema.Distinct := hmerged ▸ Json.distinct_merged aliasedSchema
  have hrun : (convertJson aliasedSchema complexRoot {}).toOption.any
      (fun d => d.typeNames.map d.lexical == ["P", "xs:string"]) = true := by decide +kernel
  obtain ⟨d, hd, hnames⟩ := Checks.exists_of_any hrun
  exact ⟨hdistinct, d, hd, beq_iff_eq.1 hnames, written_names_denote hdistinct hd⟩

end XsdSynthesis
