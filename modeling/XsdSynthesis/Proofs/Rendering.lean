import XsdSynthesis.Proofs.Capture
import XsdSynthesis.Proofs.Coverage
import XsdSynthesis.Proofs.XmlProcessor

/-!
# XsdSynthesis.Proofs.Rendering

When the text of a converted document is well-formed XML that holds what the document holds. Names are
checked when they are converted; prefixes are checked by a wider notion of names than that of
XML, and the namespaces and documentation of a schema are not checked at all. So a processor
reports the document exactly if these may stand in XML (`report?_text_iff`).
-/

namespace XsdSynthesis

open Xsd Conversion

namespace Xml

/-- A text whose characters an attribute value keeps. -/
def KeptText (s : String) : Prop := ∀ c ∈ s.toList, isKept c = true

instance (s : String) : Decidable (KeptText s) := decidable_of_iff _ List.all_eq_true

theorem keptText_append {s t : String} (hs : KeptText s) (ht : KeptText t) : KeptText (s ++ t) := by
  intro c hc
  rw [String.toList_append, List.mem_append] at hc
  exact hc.elim (hs c) (ht c)

theorem keptText_intercalate {words : List String} (h : ∀ word ∈ words, KeptText word) :
    KeptText (" ".intercalate words) := by
  induction words with
  | nil => decide
  | cons word rest ih =>
    obtain ⟨hword, hrest⟩ := List.forall_mem_cons.1 h
    cases rest with
    | nil => exact hword
    | cons next rest =>
      rw [String.intercalate_cons_cons]
      exact keptText_append (keptText_append hword (by decide)) (ih hrest)

theorem keptText_toString (n : Nat) : KeptText (toString n) := by
  have hdigit : ∀ c : Char, c.isDigit = true → isKept c = true := by
    intro c hc
    have hrange : 48 ≤ c.toNat ∧ c.toNat ≤ 57 := by
      simpa [Char.isDigit, UInt32.le_iff_toNat_le] using hc
    refine isKept_of (List.any_eq_true.2 ⟨(0x20, 0xD7FF), by decide, ?_⟩) (.inr ?_)
    · simp only [Bool.and_eq_true, decide_eq_true_eq]
      omega
    · simp only [isSpace, Bool.or_eq_false_iff, beq_eq_false_iff_ne]
      refine ⟨⟨⟨?_, ?_⟩, ?_⟩, ?_⟩
      all_goals
        rintro rfl
        revert hrange
        decide
  intro c hc
  have hdigits : (toString n).toList = Nat.toDigits 10 n := Nat.toList_repr
  rw [hdigits] at hc
  exact hdigit c (Nat.isDigit_of_mem_toDigits (by decide) (by decide) hc)

/-! ## Names -/

/-- The characters of names are allowed: each range of letters and numbers lies in a range of XML. -/
theorem isAllowed_of_contains {table : Text.Ranges} {c : Char} (h : table.contains c.toNat = true)
    (hall : table.all (fun r => charRanges.any fun x => x.1 ≤ r.1 && r.2 ≤ x.2) = true) :
    isAllowed c = true := by
  obtain ⟨r, hr, hlo, hhi⟩ := Text.Ranges.exists_of_contains h
  obtain ⟨x, hx, hin⟩ := List.any_eq_true.1 (List.all_eq_true.1 hall r hr)
  simp only [Bool.and_eq_true, decide_eq_true_eq] at hin
  refine List.any_eq_true.2 ⟨x, hx, ?_⟩
  simp only [Bool.and_eq_true, decide_eq_true_eq]
  omega

theorem isAllowed_of_isNameChar {c : Char} (h : isNameChar c = true) : isAllowed c = true := by
  have hletters : Text.letters.all (fun r => charRanges.any fun x => x.1 ≤ r.1 && r.2 ≤ x.2) =
      true := by decide +kernel
  have hnumbers : Text.numbers.all (fun r => charRanges.any fun x => x.1 ≤ r.1 && r.2 ≤ x.2) =
      true := by decide +kernel
  simp only [isNameChar, isNameStart, Bool.or_eq_true, beq_iff_eq] at h
  rcases h with (((h | rfl) | h) | rfl) | rfl
  · exact isAllowed_of_contains h hletters
  · decide
  · exact isAllowed_of_contains h hnumbers
  · decide
  · decide

theorem keptText_of_isName {s : String} (h : isName s = true) : KeptText s := by
  intro c hc
  have hname := isNameChar_of_mem h hc
  exact isKept_of (isAllowed_of_isNameChar hname)
    (.inr (plainChar_of (Document.isPlain_of_isNameChar hname)).notSpace)

theorem splitName?_unprefixed {name : String} (hc : ':' ∉ name.toList) (h : isNCName name = true) :
    splitName? name = some ("", name) := by
  rw [splitName?, List.splitOn_eq_singleton hc]
  simp [h]

theorem splitName?_prefixed {p name : String} (hp : ':' ∉ p.toList) (hc : ':' ∉ name.toList)
    (hp' : isNCName p = true) (h : isNCName name = true) :
    splitName? (p ++ ":" ++ name) = some (p, name) := by
  have hsplit : (p ++ ":" ++ name).toList.splitOn ':' = [p.toList, name.toList] := by
    rw [String.toList_append, String.toList_append, List.append_assoc,
      show ":".toList ++ name.toList = ':' :: name.toList from rfl,
      List.splitOn_append_cons_self_of_not_mem hp, List.splitOn_eq_singleton hc]
  rw [splitName?, hsplit]
  simp [hp', h]

/-! ## Elements without declarations -/

/-- A start tag fits if its tag is bound and its other names have no prefix. -/
theorem startFits_of {scope attributes : List (String × String)} {tag : String}
    (hn : (attributes.map Prod.fst).Nodup)
    (hb : (declaredPrefixes attributes).all mayBind = true) (ht : isBound scope tag = true)
    (ho : ∀ name ∈ attributes.map Prod.fst, declaredPrefix? name = none →
      splitName? name = some ("", name)) :
    startFits scope tag attributes = true := by
  have hsplit : ∀ name ∈ (attributes.map Prod.fst).filter fun name => (declaredPrefix? name).isNone,
      splitName? name = some ("", name) := by
    intro name hm
    obtain ⟨hm, hnone⟩ := List.mem_filter.1 hm
    exact ho name hm (Option.isNone_iff_eq_none.1 hnone)
  have hothers := hn.filter fun name => (declaredPrefix? name).isNone
  unfold startFits
  generalize (attributes.map Prod.fst).filter (fun name => (declaredPrefix? name).isNone) = others
    at hsplit hothers
  have hall : others.all (isBound scope) = true :=
    List.all_eq_true.2 fun name hm => by simp [isBound, hsplit name hm]
  have hexpanded : others.map (expandedName scope) = others.map fun name => (none, name) :=
    List.map_congr_left fun name hm => by simp [expandedName, hsplit name hm]
  have hdistinct : (others.map (expandedName scope)).Nodup := by
    rw [hexpanded]
    exact hothers.map fun _ _ h => (Prod.mk.inj h).2
  simp only [hn, hb, ht, hall, hdistinct, decide_true, Bool.and_self]

mutual

/-- Where no start tag declares a prefix, each has to fit as it stands. -/
theorem wellFormed_of {scope : List (String × String)} : ∀ e : Element,
    (∀ x ∈ e.starts, declaredPrefixes x.2 = [] ∧ startFits scope x.1 x.2 = true) →
      e.wellFormed scope = true
  | .mk tag attributes none, h => by
    obtain ⟨hnone, hfits⟩ := h _ List.mem_cons_self
    rw [Element.wellFormed, hnone]
    exact hfits
  | .mk tag attributes (some content), h => by
    obtain ⟨⟨hnone, hfits⟩, hcontent⟩ := List.forall_mem_cons.1 h
    rw [Element.wellFormed, hnone, List.nil_append, hfits, wellFormedAll_of content hcontent]
    rfl

theorem wellFormedAll_of {scope : List (String × String)} : ∀ es : List Element,
    (∀ x ∈ Element.startsOf es, declaredPrefixes x.2 = [] ∧ startFits scope x.1 x.2 = true) →
      Element.wellFormedAll scope es = true
  | [], _ => rfl
  | e :: rest, h => by
    obtain ⟨hfirst, hrest⟩ := List.forall_mem_append.1 h
    rw [Element.wellFormedAll, wellFormed_of e hfirst, wellFormedAll_of rest hrest]
    rfl

end

end Xml

namespace Xsd.Document

variable {d : Document}

/-! ## Documents -/

theorem isNCName_of_mem {name : String} (h : name ∈ tagNames ++ innerAttributes ++ defaultNames) :
    ':' ∉ name.toList ∧ Xml.isNCName name = true := by
  revert name
  decide

theorem isBound_tag (hd : d.BindsPrefixes) (hb : ∀ b ∈ d.namespaces, Xml.mayBind b = true)
    {name : String} (h : name ∈ tagNames) : Xml.isBound d.namespaces (d.tag name) = true := by
  have hm : name ∈ tagNames ++ innerAttributes ++ defaultNames := by simp [h]
  obtain ⟨hcolon, hname⟩ := isNCName_of_mem hm
  obtain ⟨p, hp⟩ := exists_prefixOf? hd.schema
  have hm := mem_of_prefixOf? hp
  rw [tag, hp, prefixed]
  split
  · simp [Xml.isBound, Xml.splitName?_unprefixed hcolon hname]
  · rename_i hne
    have hcolon' := Xml.not_mem_of_isName
      ((hd.named p (List.mem_map.2 ⟨_, hm, rfl⟩)).resolve_left hne) Xml.isNameChar_colon
    have hp' : Xml.isNCName p = true := by
      have hbind := hb _ hm
      simp only [Xml.mayBind, Bool.and_eq_true, Bool.or_eq_true, beq_iff_eq, hne, false_or] at hbind
      exact hbind.1.1.1.1
    have hany : d.namespaces.any (·.1 == p) = true :=
      List.any_eq_true.2 ⟨_, hm, beq_self_eq_true _⟩
    simp [Xml.isBound, Xml.splitName?_prefixed hcolon' hcolon hp' hname, hany]

theorem names_attributesXml (hd : d.BindsPrefixes) : (d.attributesXml.map Prod.fst).Nodup := by
  have hbound : ((d.namespaces.map bindingAttribute).map Prod.fst).Nodup := by
    refine List.Nodup.of_map declaredPrefix? ?_
    have hmap : ((d.namespaces.map bindingAttribute).map Prod.fst).map declaredPrefix? =
        (d.namespaces.map Prod.fst).map some := by
      simp [Function.comp_def, declaredPrefix?_bindingAttribute]
    rw [hmap]
    exact hd.distinct.map fun _ _ h => Option.some.inj h
  have hdefault : (d.defaultAttributes.map Prod.fst).Nodup :=
    (names_defaultAttributes d).nodup (by decide)
  rw [attributesXml_eq, List.map_append]
  refine hbound.append hdefault fun name hb hm => ?_
  obtain ⟨_, ha, rfl⟩ := List.mem_map.1 hb
  obtain ⟨b, _, rfl⟩ := List.mem_map.1 ha
  have hnone := declaredPrefix?_default _ ((names_defaultAttributes d).subset hm)
  rw [declaredPrefix?_bindingAttribute] at hnone
  cases hnone

theorem startFits_root (hd : d.BindsPrefixes) (hb : ∀ b ∈ d.namespaces, Xml.mayBind b = true) :
    Xml.startFits (declaredPrefixes d.attributesXml ++ []) (d.tag "schema") d.attributesXml =
      true := by
  rw [declaredPrefixes_attributesXml, List.append_nil]
  refine Xml.startFits_of (names_attributesXml hd) ?_ (isBound_tag hd hb (by decide)) ?_
  · rw [declaredPrefixes_attributesXml]
    exact List.all_eq_true.2 hb
  · intro name hm hnone
    obtain ⟨a, ha, rfl⟩ := List.mem_map.1 hm
    rw [attributesXml_eq, List.mem_append] at ha
    rcases ha with ha | ha
    · obtain ⟨b, _, rfl⟩ := List.mem_map.1 ha
      rw [declaredPrefix?_bindingAttribute] at hnone
      cases hnone
    · have hname := (names_defaultAttributes d).subset (List.mem_map.2 ⟨a, ha, rfl⟩)
      have hm : a.1 ∈ tagNames ++ innerAttributes ++ defaultNames := by simp [hname]
      exact Xml.splitName?_unprefixed (isNCName_of_mem hm).1 (isNCName_of_mem hm).2

theorem startFits_of_fits (hd : d.BindsPrefixes) (hb : ∀ b ∈ d.namespaces, Xml.mayBind b = true)
    {V : String → Prop} {x : String × List (String × String)} (h : d.Fits V x) :
    declaredPrefixes x.2 = [] ∧ Xml.startFits d.namespaces x.1 x.2 = true := by
  have hnone : ∀ name ∈ innerAttributes, declaredPrefix? name = none := by decide
  have hdeclares : declaredPrefixes x.2 = [] := by
    refine List.filterMap_eq_nil_iff.2 fun a ha => ?_
    rw [hnone a.1 (h.names a.1 (List.mem_map.2 ⟨a, ha, rfl⟩)), Option.map_none]
  obtain ⟨name, hname, htag⟩ := h.tag
  refine ⟨hdeclares, Xml.startFits_of h.distinct ?_ ?_ ?_⟩
  · rw [hdeclares]
    rfl
  · rw [htag]
    exact isBound_tag hd hb hname
  · intro other hm _
    have hmem : other ∈ tagNames ++ innerAttributes ++ defaultNames := by simp [h.names other hm]
    exact Xml.splitName?_unprefixed (isNCName_of_mem hmem).1 (isNCName_of_mem hmem).2

/-- The start tags of a document fit exactly if its prefixes may be bound as they are. -/
theorem wellFormed_toXml_iff (hd : d.BindsPrefixes) :
    d.toXml.wellFormed [] = true ↔ ∀ b ∈ d.namespaces, Xml.mayBind b = true := by
  constructor
  · intro h
    have hroot : Xml.startFits (declaredPrefixes d.attributesXml ++ []) (d.tag "schema")
        d.attributesXml = true := by
      unfold toXml at h
      split at h
      · exact h
      · exact (Bool.and_eq_true_iff.1 h).1
    simp only [Xml.startFits, Bool.and_eq_true, declaredPrefixes_attributesXml] at hroot
    exact List.all_eq_true.1 hroot.1.1.1.2
  · intro hb
    have hroot := startFits_root hd hb
    unfold toXml
    split
    · exact hroot
    · rw [Xml.Element.wellFormed, hroot, Bool.true_and, declaredPrefixes_attributesXml,
        List.append_nil]
      refine Xml.wellFormedAll_of _ fun x hx => ?_
      obtain ⟨e, he, hx⟩ := Xml.Element.mem_startsOf.1 hx
      obtain ⟨item, _, rfl⟩ := List.mem_map.1 he
      have hany := Values.any d item.texts item.typeNames
      exact startFits_of_fits hd hb (allFit_itemXml item hany x hx)

/-- What the documentation of a document holds. -/
def entries (d : Document) : List FixedAttribute :=
  d.items.flatMap fun
    | .documentation a => a.parts.flatten
    | _ => []

/-- The names in a document are names, all but those of its documentation. -/
structure Named (d : Document) : Prop where
  texts : ∀ s ∈ d.texts, Xml.isName s = true ∨ ∃ entry ∈ d.entries, s = entry.name ∨ s = entry.fixed
  typeNames : ∀ q ∈ d.typeNames, Xml.isName q.name = true

theorem keptText_prefixed (hd : d.BindsPrefixes) {name : String} {p : Option String}
    (hp : ∀ q, p = some q → q ∈ d.namespaces.map Prod.fst) (h : Xml.KeptText name) :
    Xml.KeptText (prefixed p name) := by
  unfold prefixed
  split
  · split
    · exact h
    · rename_i q hne
      have hname := Xml.keptText_of_isName ((hd.named q (hp q rfl)).resolve_left hne)
      exact Xml.keptText_append (Xml.keptText_append hname (by decide)) h
  · exact h

theorem keptText_lexical (hd : d.BindsPrefixes) {q : QualifiedName} (h : Xml.KeptText q.name) :
    Xml.KeptText (d.lexical q) := by
  refine keptText_prefixed hd (fun p hp => ?_) h
  obtain ⟨uri, _, hp⟩ := Option.bind_eq_some_iff.1 hp
  exact List.mem_map.2 ⟨_, mem_of_prefixOf? hp, rfl⟩

theorem keptText_defaultAttributes (d : Document) :
    ∀ a ∈ d.defaultAttributes, Xml.KeptText a.1 ∧ Xml.KeptText a.2 := by
  have hnames : ∀ name ∈ defaultNames, Xml.KeptText name := by decide
  have hforms : ∀ f : Form, Xml.KeptText f.name := by
    intro f
    cases f <;> decide
  have htokens : ∀ m : Derivation, Xml.KeptText m.token := by
    intro m
    cases m <;> decide
  have hset : ∀ set, Xml.KeptText (Derivation.setText set) := by
    intro set
    refine Xml.keptText_intercalate fun word hw => ?_
    obtain ⟨m, _, rfl⟩ := List.mem_map.1 (List.mem_filter.1 hw).1
    exact htokens m
  intro a ha
  refine ⟨hnames a.1 ((names_defaultAttributes d).subset (List.mem_map.2 ⟨a, ha, rfl⟩)), ?_⟩
  simp only [defaultAttributes, List.mem_append] at ha
  rcases ha with ((ha | ha) | ha) | ha
  · obtain ⟨f, _, rfl⟩ := List.mem_map.1 ha
    exact hforms f
  · obtain ⟨f, _, rfl⟩ := List.mem_map.1 ha
    exact hforms f
  · obtain ⟨set, _, rfl⟩ := List.mem_map.1 ha
    exact hset set
  · obtain ⟨set, _, rfl⟩ := List.mem_map.1 ha
    exact hset set

theorem keptText_tag (hd : d.BindsPrefixes) {name : String} (h : name ∈ tagNames) :
    Xml.KeptText (d.tag name) := by
  have hnames : ∀ name ∈ tagNames, Xml.KeptText name := by decide
  exact keptText_prefixed hd (fun p hp => List.mem_map.2 ⟨_, mem_of_prefixOf? hp, rfl⟩)
    (hnames name h)

theorem kept_of_texts {x : String × List (String × String)} (ht : Xml.KeptText x.1)
    (ha : ∀ a ∈ x.2, Xml.KeptText a.1 ∧ Xml.KeptText a.2) :
    ∀ c ∈ Xml.startChars x, Xml.isKept c = true := by
  intro c hc
  rcases List.mem_append.1 hc with hc | hc
  · exact ht c hc
  · obtain ⟨a, hm, hc⟩ := List.mem_flatMap.1 hc
    rcases List.mem_append.1 hc with hc | hc
    · exact (ha a hm).1 c hc
    · exact (ha a hm).2 c hc

theorem values_keptText (hd : d.BindsPrefixes) (hn : d.Named)
    (he : ∀ entry ∈ d.entries, Xml.KeptText entry.name ∧ Xml.KeptText entry.fixed) :
    Values d Xml.KeptText d.texts d.typeNames := by
  refine ⟨Xml.keptText_toString, by decide, fun s hs => ?_, fun q hq => ?_⟩
  · rcases hn.texts s hs with hname | ⟨entry, hm, rfl | rfl⟩
    · exact Xml.keptText_of_isName hname
    · exact (he entry hm).1
    · exact (he entry hm).2
  · exact keptText_lexical hd (Xml.keptText_of_isName (hn.typeNames q hq))

/-- Every entry of the documentation has its start tag. -/
theorem mem_starts_entry {entry : FixedAttribute} (h : entry ∈ d.entries) :
    (d.tag "attribute", [("name", entry.name), ("fixed", entry.fixed)]) ∈ d.toXml.starts := by
  obtain ⟨item, hi, he⟩ := List.mem_flatMap.1 h
  refine mem_starts_toXml.2 (.inr ⟨item, hi, ?_⟩)
  cases item with
  | documentation a =>
    obtain ⟨part, hp, he⟩ := List.mem_flatten.1 he
    refine List.mem_cons_of_mem _ (Xml.Element.mem_startsOf.2 ⟨_, List.mem_map.2 ⟨part, hp, rfl⟩, ?_⟩)
    refine List.mem_cons_of_mem _ (Xml.Element.mem_startsOf.2 ⟨_, List.mem_map.2 ⟨entry, he, rfl⟩, ?_⟩)
    exact List.mem_singleton_self _
  | _ => cases he

/-- **The characters of a document are kept** exactly if those of its namespaces and of its
documentation are. -/
theorem kept_toXml_iff (hd : d.BindsPrefixes) (hn : d.Named) :
    d.toXml.Kept ↔ (∀ b ∈ d.namespaces, Xml.KeptText b.2) ∧
      ∀ entry ∈ d.entries, Xml.KeptText entry.name ∧ Xml.KeptText entry.fixed := by
  constructor
  · intro h
    constructor
    · intro b hb c hc
      refine h (d.tag "schema", d.attributesXml) (mem_starts_toXml.2 (.inl rfl)) c ?_
      have hm : bindingAttribute b ∈ d.attributesXml := by
        rw [attributesXml_eq]
        exact List.mem_append_left _ (List.mem_map.2 ⟨b, hb, rfl⟩)
      refine List.mem_append_right _ (List.mem_flatMap.2 ⟨_, hm, ?_⟩)
      exact List.mem_append_right _ hc
    · intro entry he
      have hstart := h _ (mem_starts_entry he)
      constructor
      · intro c hc
        exact hstart c (List.mem_append_right _ (List.mem_append_left _
          (List.mem_append_right _ hc)))
      · intro c hc
        refine hstart c (List.mem_append_right _ (List.mem_append_right _ ?_))
        exact List.mem_append_left _ (List.mem_append_right _ hc)
  · rintro ⟨huris, hentries⟩ x hx
    rcases fits_toXml (values_keptText hd hn hentries) hx with rfl | hfits
    · refine kept_of_texts (keptText_tag hd (by decide)) fun a ha => ?_
      -- the outermost tag holds the bindings, then forms and defaults under fixed names
      rw [attributesXml_eq, List.mem_append] at ha
      rcases ha with ha | ha
      · obtain ⟨⟨p, uri⟩, hb, rfl⟩ := List.mem_map.1 ha
        refine ⟨?_, huris (p, uri) hb⟩
        by_cases hp : p = ""
        · simp only [bindingAttribute, if_pos hp]
          decide
        · simp only [bindingAttribute, if_neg hp]
          have hname := (hd.named p (List.mem_map.2 ⟨_, hb, rfl⟩)).resolve_left hp
          exact Xml.keptText_append (by decide) (Xml.keptText_of_isName hname)
      · exact keptText_defaultAttributes d a ha
    · obtain ⟨name, hname, htag⟩ := hfits.tag
      have hinner : ∀ name ∈ innerAttributes, Xml.KeptText name := by decide
      refine kept_of_texts (htag ▸ keptText_tag hd hname) fun a ha => ⟨?_, ?_⟩
      · exact hinner a.1 (hfits.names a.1 (List.mem_map.2 ⟨a, ha, rfl⟩))
      · exact hfits.values a.2 (List.mem_map.2 ⟨a, ha, rfl⟩)

end Xsd.Document

namespace Conversion

variable {source : Source} {d : Document} {ns : Option String}

/-! ## Names in converted documents -/

/-- The names in what a subschema becomes. -/
def Node.texts : Node → List String
  | complex type => type.texts
  | simple _ => []

theorem Part.texts_element {required : List String} {part : Part} {e : Element}
    (h : part.element? required = some e) : e.texts = part.name :: part.made.node.texts := by
  obtain ⟨name, schema, node, flag⟩ := part
  cases node with
  | complex type =>
    cases h
    simp [Element.texts, Node.texts]
  | simple typeName =>
    cases flag with
    | true => cases h
    | false =>
      cases h
      simp [Element.texts, Node.texts]

theorem texts_members {required : List String} {parts : List Part} {s : String}
    (h : s ∈ (Members.ofParts required parts).type.texts) :
    ∃ part ∈ parts, s = part.name ∨ s ∈ part.made.node.texts := by
  rw [ComplexType.mem_texts, elements_type, elements_ofParts, attributes_type,
    attributes_ofParts] at h
  rcases h with hname | ⟨e, he, hs⟩ | ⟨a, ha, rfl⟩
  · cases hname
  · obtain ⟨part, hm, hpart⟩ := List.mem_filterMap.1 he
    rw [Part.texts_element hpart] at hs
    exact ⟨part, hm, List.mem_cons.1 hs⟩
  · obtain ⟨part, hm, hpart⟩ := List.mem_filterMap.1 ha
    exact ⟨part, hm, .inl (name_of_attribute? hpart)⟩

theorem Becomes.texts {place : Pointer} {depth : Nat} {t : Schema} {made : Synthesized}
    (h : Becomes source ns place depth t made) :
    ∀ s ∈ made.node.texts, Xml.isName s = true := by
  induction h with
  | complex _ _ _ _ _ hnames _ ih =>
    intro s hs
    obtain ⟨part, hm, rfl | hs⟩ := texts_members hs
    · exact hnames part hm
    · exact ih part hm s hs
  | simple _ _ _ _ => exact nofun

theorem texts_withName {type : ComplexType} {name s : String}
    (h : s ∈ (type.withName name).texts) : s = name ∨ s ∈ type.texts := by
  rw [ComplexType.mem_texts, name_withName, elements_withName, attributes_withName] at h
  rw [ComplexType.mem_texts]
  rcases h with hname | h
  · exact .inl (Option.some.inj hname).symm
  · exact .inr (.inr h)

theorem BecomesItem.texts {c : Container} {name : String} {t : Schema} {item : Item}
    (h : BecomesItem source ns c name t item) : ∀ s ∈ item.texts, Xml.isName s = true := by
  intro s hs
  cases h with
  | @complex type hname hbecomes =>
    rcases texts_withName hs with rfl | hs
    · exact hname
    · exact hbecomes.texts s hs
  | simple hname _ _ =>
    rw [List.mem_singleton.1 hs]
    exact hname

theorem BecomesRoot.texts {e : Element} (h : BecomesRoot source ns e)
    (hname : Xml.isName source.classifier.messageName = true) :
    ∀ s ∈ e.texts, Xml.isName s = true := by
  intro s hs
  cases h with
  | complex _ _ _ hmembers =>
    obtain ⟨parts, _, hnames, hbecomes, rfl⟩ := hmembers
    rcases List.mem_cons.1 hs with rfl | hs
    · exact hname
    · obtain ⟨part, hm, rfl | hs⟩ := texts_members hs
      · exact hnames part hm
      · exact (hbecomes part hm).texts s hs
  | simple _ _ _ _ | wrapped _ _ _ _ _ =>
    rw [List.mem_singleton.1 hs]
    exact hname

theorem BecomesDocument.named (hd : BecomesDocument source d)
    (hname : Xml.isName source.classifier.messageName = true) : d.Named := by
  constructor
  · intro s hs
    obtain ⟨item, hi, hs⟩ := List.mem_flatMap.1 hs
    cases item with
    | documentation a =>
      obtain ⟨entry, he, hs⟩ := List.mem_flatMap.1 hs
      refine .inr ⟨entry, List.mem_flatMap.2 ⟨_, hi, he⟩, ?_⟩
      simpa using hs
    | element e => exact .inl ((hd.root_of_element hi).texts hname s hs)
    | complexType type =>
      obtain ⟨c, name, t, _, hitem⟩ := hd.definition_of_item hi rfl
      exact .inl (hitem.texts s hs)
    | simpleType type =>
      obtain ⟨c, name, t, _, hitem⟩ := hd.definition_of_item hi rfl
      exact .inl (hitem.texts s hs)
  · intro q hq
    rcases hd.refers q hq with ⟨b, hprimitive, rfl⟩ | ⟨_, _, c, t, hm⟩
    · have hall : ∀ b ∈ primitiveNames, Xml.isName b = true := by decide +kernel
      exact hall b hprimitive
    · exact hd.isName_definition hm

/-! ## Documentation -/

theorem documentationOf_ok {entries : List (String × Json)} {a : Documentation}
    (h : documentationOf entries = .ok a) :
    List.Forall₂ (fun e entry => e = (entry.name, .str entry.fixed)) entries a.parts.flatten := by
  obtain ⟨markup, hm, h⟩ := Checks.bind_ok.1 h
  cases Checks.pure_ok.1 h
  rw [List.flatten_singleton]
  refine (Checks.mapM_ok.1 hm).imp fun e entry he => ?_
  obtain ⟨name, value⟩ := e
  cases value with
  | str fixed =>
    cases he
    rfl
  | _ => cases he

/-- Documentation among the items comes from a keyword. -/
theorem BecomesItems.info_of_documentation {marked : List Kind} {built final : Bool}
    {ks : List Keyword} {items : List Item} {a : Documentation}
    (h : BecomesItems source ns marked built ks items final) (ha : .documentation a ∈ items) :
    ∃ entries, .info entries ∈ ks ∧ documentationOf entries = .ok a := by
  induction h with
  | nil => cases ha
  | pass _ _ ih | again _ _ _ ih =>
    obtain ⟨entries, hk, hok⟩ := ih ha
    exact ⟨entries, List.mem_cons_of_mem _ hk, hok⟩
  | info _ hok _ ih =>
    rcases List.mem_cons.1 ha with heq | ha
    · cases heq
      exact ⟨_, List.mem_cons_self, hok⟩
    · obtain ⟨entries, hk, hok⟩ := ih ha
      exact ⟨entries, List.mem_cons_of_mem _ hk, hok⟩
  | definitions _ hmade _ ih =>
    rcases List.mem_append.1 ha with ha | ha
    · obtain ⟨e, _, hitem⟩ := Tables.exists_of_mem_right hmade ha
      cases hitem
    · obtain ⟨entries, hk, hok⟩ := ih ha
      exact ⟨entries, List.mem_cons_of_mem _ hk, hok⟩
  | root _ _ _ _ ih =>
    rcases List.mem_cons.1 ha with heq | ha
    · cases heq
    · obtain ⟨entries, hk, hok⟩ := ih ha
      exact ⟨entries, List.mem_cons_of_mem _ hk, hok⟩

theorem BecomesDocument.info_of_documentation (hd : BecomesDocument source d) {a : Documentation}
    (ha : .documentation a ∈ d.items) :
    ∃ entries, .info entries ∈ source.schema.keywords ∧ documentationOf entries = .ok a := by
  obtain ⟨items, built, hitems, hlast⟩ := hd.items
  rcases hlast with ⟨_, hlast⟩ | ⟨_, _, e, _, hlast⟩
  · rw [hlast] at ha
    exact hitems.info_of_documentation ha
  · rw [hlast, List.mem_append] at ha
    rcases ha with ha | ha
    · exact hitems.info_of_documentation ha
    · cases List.mem_singleton.1 ha

end Conversion

/-- The documentation that a schema holds. -/
def Schema.info (s : Schema) : List (String × Json) :=
  match s.get? .info with
  | some (.info entries) => entries
  | _ => []

namespace Conversion

variable {source : Source} {d : Document}

/-- The entries of the document are those of the schema. -/
theorem BecomesDocument.entries (hd : BecomesDocument source d) (hs : source.schema.IsRead) :
    (∀ entry ∈ d.entries, (entry.name, .str entry.fixed) ∈ source.schema.info) ∧
      ∀ e ∈ source.schema.info, ∃ entry ∈ d.entries, e = (entry.name, .str entry.fixed) := by
  constructor
  · intro entry he
    obtain ⟨item, hi, he⟩ := List.mem_flatMap.1 he
    cases item with
    | documentation a =>
      obtain ⟨entries, hk, hok⟩ := hd.info_of_documentation hi
      have hinfo : source.schema.info = entries := by
        rw [Schema.info, show source.schema.get? .info = _ from hs.get? hk nofun]
      obtain ⟨e, hm, rfl⟩ := Tables.exists_of_mem_right (documentationOf_ok hok) he
      exact hinfo ▸ hm
    | _ => cases he
  · intro e he
    unfold Schema.info at he
    split at he
    · rename_i entries hg
      obtain ⟨a, hok, ha⟩ := hd.documentation hg
      obtain ⟨entry, hm, heq⟩ := Tables.exists_of_mem_left (documentationOf_ok hok) he
      exact ⟨entry, List.mem_flatMap.2 ⟨_, ha, hm⟩, heq⟩
    · cases he

end Conversion

/-! ## Schemas -/

/-- What a schema declares may stand in XML: its prefixes may be bound as they are, and its namespaces
and documentation have characters that attribute values keep. -/
structure FitsXml (s : Schema) : Prop where
  bindings : ∀ b ∈ declaredNamespaces s, Xml.mayBind b = true
  uris : ∀ b ∈ declaredNamespaces s, Xml.KeptText b.2
  info : ∀ e ∈ s.info, Xml.KeptText e.1 ∧ ∀ fixed, e.2 = .str fixed → Xml.KeptText fixed

/-- What holds of the declared namespaces and of the built-in ones holds of all. -/
theorem forall_namespaces {source : Source} {l l' : Ledger} {P : String × String → Prop}
    (hP : ∀ b ∈ builtInNamespaces, P b) (h : run source l = (.ok (), l')) :
    (∀ b ∈ l'.document.namespaces, P b) ↔ ∀ b ∈ declaredNamespaces source.schema, P b := by
  obtain ⟨l₁, table, _, htable, hdoc⟩ := run_heading h
  have hnamespaces : l'.document.namespaces = table := by rw [hdoc]
  rw [hnamespaces]
  constructor
  · exact fun hall b hb => hall b ((namespaceTable_extends htable).subset hb)
  · intro hall b hb
    rcases mem_namespaceTable htable hb with hb | hb
    · exact hall b hb
    · exact hP b hb

theorem forall_entries {source : Source} {d : Document} (hd : BecomesDocument source d)
    (hs : source.schema.IsRead) :
    (∀ entry ∈ d.entries, Xml.KeptText entry.name ∧ Xml.KeptText entry.fixed) ↔
      ∀ e ∈ source.schema.info, Xml.KeptText e.1 ∧ ∀ fixed, e.2 = .str fixed → Xml.KeptText fixed := by
  obtain ⟨hfrom, hto⟩ := hd.entries hs
  constructor
  · intro hall e he
    obtain ⟨entry, hm, rfl⟩ := hto e he
    refine ⟨(hall entry hm).1, ?_⟩
    rintro fixed ⟨⟩
    exact (hall entry hm).2
  · intro hall entry he
    obtain ⟨hname, hfixed⟩ := hall _ (hfrom entry he)
    exact ⟨hname, hfixed _ rfl⟩

/-- **When the text is reported.** A processor reports the text of a converted document as what the
document is written as, exactly if what the schema declares may stand in XML. -/
theorem text_reported_iff {j : Json} {classifier : Classifier} {options : Options} {d : Document}
    (hj : j.Distinct) (h : convertJson j classifier options = .ok d) :
    ∃ s, Schema.ofJson? j = .ok s ∧ (Xml.report? d.text = some d.toXml ↔ FitsXml s) := by
  obtain ⟨hb, _⟩ := convertJson_bindsPrefixes hj h
  obtain ⟨s, hs, l, l', hfresh, hrun, rfl⟩ := convertJson_run h
  have hread : (⟨s, classifier, options⟩ : Source).schema.IsRead := ⟨_, _, hj, hs⟩
  have hitems : l.document.items = [] := by rw [hfresh]
  have hd := run_ok hitems hrun
  have hnamed := hd.named (run_isName hrun)
  refine ⟨s, hs, ?_⟩
  rw [Document.text, Xml.report?_documentText_iff (Document.plain_toXml hb),
    Document.kept_toXml_iff hb hnamed, Document.wellFormed_toXml_iff hb, forall_entries hd hread,
    forall_namespaces (P := fun b => Xml.mayBind b = true) (by decide) hrun,
    forall_namespaces (P := fun b => Xml.KeptText b.2) (by decide) hrun]
  constructor
  · rintro ⟨⟨huris, hinfo⟩, hbind⟩
    exact ⟨hbind, huris, hinfo⟩
  · rintro ⟨hbind, huris, hinfo⟩
    exact ⟨⟨huris, hinfo⟩, hbind⟩

/-- A root with documentation and a namespace that have to be escaped. -/
def escapedSchema : Json :=
  .obj [("type", .str "string"), ("info", .obj [("title", .str "Fish & <Chips>")]),
    (Spelling.namespaces, .obj [("q", .str "urn:\"q\"")])]

theorem text_reported_iff_escaped :
    escapedSchema.Distinct ∧ ∃ d, convertJson escapedSchema simpleRoot {} = .ok d ∧
      ∃ s, Schema.ofJson? escapedSchema = .ok s ∧
        (Xml.report? d.text = some d.toXml ↔ FitsXml s) := by
  have hmerged : escapedSchema.merged = escapedSchema := by rfl
  have hdistinct : escapedSchema.Distinct := hmerged ▸ Json.distinct_merged escapedSchema
  have hrun : (convertJson escapedSchema simpleRoot {}).toOption.any (fun _ => true) = true := by
    decide +kernel
  obtain ⟨d, hd, _⟩ := Checks.exists_of_any hrun
  exact ⟨hdistinct, d, hd, text_reported_iff hdistinct hd⟩

/-- A root with documentation of two lines. -/
def brokenSchema : Json := .obj [("type", .str "string"), ("info", .obj [("title", .str "a\nb")])]

/-- Such a schema is converted, and no processor reports the line break. -/
theorem break_not_reported :
    ∃ d, convertJson brokenSchema simpleRoot {} = .ok d ∧ Xml.report? d.text ≠ some d.toXml := by
  have hmerged : brokenSchema.merged = brokenSchema := by rfl
  have hdistinct : brokenSchema.Distinct := hmerged ▸ Json.distinct_merged brokenSchema
  have hrun : (convertJson brokenSchema simpleRoot {}).toOption.any
      (fun d => d.toXml.starts.any fun x => (Xml.startChars x).any (· == '\n')) = true := by
    decide +kernel
  obtain ⟨d, hd, hbreak⟩ := Checks.exists_of_any hrun
  obtain ⟨x, hx, hbreak⟩ := List.any_eq_true.1 hbreak
  obtain ⟨c, hc, hbreak⟩ := List.any_eq_true.1 hbreak
  refine ⟨d, hd, fun hreport => ?_⟩
  have hplain := Document.plain_toXml (convertJson_bindsPrefixes hdistinct hd).1
  have hkept := (Xml.kept_of_report? hplain hreport).1 x hx c hc
  rw [beq_iff_eq.1 hbreak] at hkept
  exact absurd hkept (by decide)

end XsdSynthesis
