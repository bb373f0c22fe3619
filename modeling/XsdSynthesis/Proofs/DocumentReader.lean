import Mathlib.Data.Option.Basic
import XsdSynthesis.Proofs.StartTags
import XsdSynthesis.Proofs.XmlReader

/-!
# XsdSynthesis.Proofs.DocumentReader

Documents read back from their text. `Document.ofText?` reads tags and type names by the prefixes that
the outermost tag declares. What it makes of the text of a document is that document, with
nothing lost but what is not written: the form `none`, and the empty method in a set
(`ofText?_text`).
-/

namespace XsdSynthesis
namespace Xsd

/-! ## Values -/

/-- The value of an attribute, if there is one; a value that cannot be read is an error. -/
def field? {α : Type} (attributes : List (String × String)) (name : String)
    (read : String → Option α) : Option (Option α) :=
  match attributes.lookup name with
  | some value => (read value).map some
  | none => some none

/-- The number that digits stand for. -/
def number? (digits : String) : Option Nat :=
  if digits.toList.all Char.isDigit then some (Nat.ofDigitChars 10 digits.toList 0) else none

def Form.ofName? (name : String) : Option Form :=
  [none, qualified, unqualified].find? (·.name == name)

/-- The set that a text names, its tokens apart by blanks. -/
def Derivation.setOfTokens? (text : String) : Option (List Derivation) :=
  ((text.toList.splitOn ' ').filter (· ≠ [])).mapM fun word =>
    methods.find? (·.token == String.ofList word)

/-- The prefix that an attribute declares. -/
def declaredPrefix? (name : String) : Option String :=
  if name = "xmlns" then some ""
  else if name.toList.take 6 = "xmlns:".toList ∧ name ≠ "xmlns:" then
    some (String.ofList (name.toList.drop 6))
  else none

/-- The prefixes that attributes declare, in order. -/
def declaredPrefixes (attributes : List (String × String)) : List (String × String) :=
  attributes.filterMap fun a => (declaredPrefix? a.1).map (·, a.2)

/-- The local name of a tag that stands for a name of XML Schema. -/
def schemaName? (namespaces : List (String × String)) (tag : String) : Option String :=
  ((resolveName? namespaces tag).filter (·.ns == some schemaNamespace)).map QualifiedName.name

/-! ## Elements -/

def readAttribute? (namespaces : List (String × String)) : Xml.Element → Option Attribute
  | .mk tag attributes none => do
    guard (schemaName? namespaces tag = some "attribute")
    let name ← attributes.lookup "name"
    let typeName ← field? attributes "type" (resolveName? namespaces)
    return ⟨name, typeName, attributes.lookup "use" == some "required"⟩
  | .mk _ _ (some _) => none

mutual

def readElement? (namespaces : List (String × String)) : Xml.Element → Option Element
  | .mk tag attributes content => do
    guard (schemaName? namespaces tag = some "element")
    let name ← attributes.lookup "name"
    let minOccurs ← field? attributes "minOccurs" number?
    let typeName ← field? attributes "type" (resolveName? namespaces)
    match content with
    | none => return .mk name minOccurs typeName none
    | some [t] => return .mk name minOccurs typeName (some (← readComplexType? namespaces t))
    | some _ => none

def readComplexType? (namespaces : List (String × String)) : Xml.Element → Option ComplexType
  | .mk tag attributes content => do
    guard (schemaName? namespaces tag = some "complexType")
    let name := attributes.lookup "name"
    match content with
    | none => return .mk name none []
    | some [] => none
    | some (.mk first own inner :: rest) =>
      if schemaName? namespaces first = some "sequence" then
        match inner with
        | some elements =>
          return .mk name (some (← readElements? namespaces elements))
            (← rest.mapM (readAttribute? namespaces))
        | none => none
      else
        return .mk name none (← (.mk first own inner :: rest).mapM (readAttribute? namespaces))

def readElements? (namespaces : List (String × String)) : List Xml.Element → Option (List Element)
  | [] => some []
  | e :: rest => do return (← readElement? namespaces e) :: (← readElements? namespaces rest)

end

/-! ## Items -/

def readSimpleType? (namespaces : List (String × String)) : Xml.Element → Option SimpleType
  | .mk _ attributes (some [.mk inner own none]) => do
    guard (schemaName? namespaces inner = some "restriction")
    return ⟨← attributes.lookup "name", ← resolveName? namespaces (← own.lookup "base")⟩
  | _ => none

def readFixed? (namespaces : List (String × String)) : Xml.Element → Option FixedAttribute
  | .mk tag attributes none => do
    guard (schemaName? namespaces tag = some "attribute")
    return ⟨← attributes.lookup "name", ← attributes.lookup "fixed"⟩
  | .mk _ _ (some _) => none

def readPart? (namespaces : List (String × String)) : Xml.Element → Option (List FixedAttribute)
  | .mk tag _ (some entries) => do
    guard (schemaName? namespaces tag = some "documentation")
    entries.mapM (readFixed? namespaces)
  | .mk _ _ none => none

def readDocumentation? (namespaces : List (String × String)) : Xml.Element → Option Documentation
  | .mk _ _ (some parts) => do return ⟨← parts.mapM (readPart? namespaces)⟩
  | .mk _ _ none => none

/-- The item that an element stands for, by its tag. -/
def readItem? (namespaces : List (String × String)) (e : Xml.Element) : Option Item :=
  match e with
  | .mk tag _ _ =>
    match schemaName? namespaces tag with
    | some "annotation" => (readDocumentation? namespaces e).map .documentation
    | some "element" => (readElement? namespaces e).map .element
    | some "complexType" => (readComplexType? namespaces e).map .complexType
    | some "simpleType" => (readSimpleType? namespaces e).map .simpleType
    | _ => none

namespace Document

/-- The document that an element stands for. -/
def ofXml? : Xml.Element → Option Document
  | .mk tag attributes content => do
    let namespaces := declaredPrefixes attributes
    guard (schemaName? namespaces tag = some "schema")
    let attributeForm ← field? attributes "attributeFormDefault" Form.ofName?
    let elementForm ← field? attributes "elementFormDefault" Form.ofName?
    let blockDefault ← field? attributes "blockDefault" Derivation.setOfTokens?
    let finalDefault ← field? attributes "finalDefault" Derivation.setOfTokens?
    let items ← (content.getD []).mapM (readItem? namespaces)
    return ⟨namespaces, attributeForm, elementForm, blockDefault, finalDefault, items⟩

/-- The document that a text stands for, its attribute values without their escapes. -/
def ofText? (text : String) : Option Document :=
  ((Xml.parse? text).bind (Xml.Element.mapValues? Xml.unescape?)).bind ofXml?

/-- The document without what is not written: the form `none` and the empty method. -/
def plain (d : Document) : Document :=
  { d with
    attributeForm := d.attributeForm.filter (· != .none)
    elementForm := d.elementForm.filter (· != .none)
    blockDefault := d.blockDefault.map (·.filter (· != .empty))
    finalDefault := d.finalDefault.map (·.filter (· != .empty)) }

end Document

/-! ## Values read back -/

theorem number?_toString (n : Nat) : number? (toString n) = some n := by
  have hdigits : (toString n).toList = Nat.toDigits 10 n := Nat.toList_repr
  have hall : (Nat.toDigits 10 n).all Char.isDigit = true :=
    List.all_eq_true.2 fun c hc => Nat.isDigit_of_mem_toDigits (by decide) (by decide) hc
  rw [number?, hdigits, if_pos hall, Nat.ofDigitChars_ten_toDigits]

theorem Form.ofName?_name (f : Form) : Form.ofName? f.name = some f := by
  cases f <;> decide

theorem Derivation.find?_token (m : Derivation) : methods.find? (·.token == m.token) = some m := by
  cases m <;> rfl

theorem Derivation.token_eq_empty (m : Derivation) : m.token = "" ↔ m = .empty := by
  cases m <;> decide

theorem Derivation.blank_notMem_token (m : Derivation) : ' ' ∉ m.token.toList := by
  cases m <;> decide

/-- A set's tokens that are written are those of its methods besides the empty one. -/
theorem Derivation.tokens_eq (set : List Derivation) :
    (set.map token).filter (· != "") = (set.filter (· != .empty)).map token := by
  rw [List.filter_map]
  congr 1
  refine List.filter_congr fun m _ => ?_
  cases m <;> decide

/-- The words of a set's text are its tokens. -/
theorem Derivation.words_setText (set : List Derivation) :
    ((setText set).toList.splitOn ' ').filter (· ≠ []) =
      (set.filter (· != .empty)).map fun m => m.token.toList := by
  rw [setText, tokens_eq, String.toList_intercalate, List.map_map]
  cases hset : set.filter (· != .empty) with
  | nil => rfl
  | cons m rest =>
    have hne : ∀ m ∈ set.filter (· != .empty), m ≠ .empty := by simp
    rw [hset] at hne
    rw [show " ".toList = [' '] from rfl, List.splitOn_intercalate]
    · refine List.filter_eq_self.2 fun word hw => ?_
      obtain ⟨m', hm, rfl⟩ := List.mem_map.1 hw
      have htoken : m'.token ≠ "" := fun h => hne m' hm ((token_eq_empty m').1 h)
      simpa using htoken
    · intro word hw
      obtain ⟨m', _, rfl⟩ := List.mem_map.1 hw
      exact blank_notMem_token m'
    · exact List.cons_ne_nil _ _

theorem Derivation.setOfTokens?_setText (set : List Derivation) :
    setOfTokens? (setText set) = some (set.filter (· != .empty)) := by
  rw [setOfTokens?, words_setText]
  generalize set.filter (· != .empty) = ms
  induction ms with
  | nil => rfl
  | cons m rest ih =>
    rw [List.map_cons, List.mapM_cons, ih, String.ofList_toList, find?_token]
    rfl

/-! ## Elements read back -/

theorem field?_of_lookup {α : Type} {attributes : List (String × String)} {name : String}
    {read : String → Option α} {write : α → String} {value : Option α}
    (h : attributes.lookup name = value.map write)
    (hread : ∀ a, value = some a → read (write a) = some a) :
    field? attributes name read = some value := by
  rw [field?, h]
  cases value with
  | none => rfl
  | some a =>
    change (read (write a)).map some = _
    rw [hread a rfl, Option.map_some]

namespace Document

variable {d : Document}

theorem schemaName?_tag (hd : d.BindsPrefixes) {name : String} (h : name ∈ tagNames) :
    schemaName? d.namespaces (d.tag name) = some name := by
  have hcolon : ∀ name ∈ tagNames, ':' ∉ name.toList := by decide
  rw [schemaName?, resolveName?_tag hd (hcolon name h)]
  rfl

/-- The type names that are given can all be read back. -/
def ReadsBack (d : Document) (names : List QualifiedName) : Prop :=
  ∀ q ∈ names, resolveName? d.namespaces (d.lexical q) = some q

theorem field?_type {attributes : List (String × String)} {typeName : Option QualifiedName}
    (h : attributes.lookup "type" = typeName.map d.lexical) (hq : d.ReadsBack typeName.toList) :
    field? attributes "type" (resolveName? d.namespaces) = some typeName :=
  field?_of_lookup h fun q hsome => hq q (Option.mem_toList.2 hsome)

theorem readAttribute?_attributeXml (hd : d.BindsPrefixes) (a : Attribute)
    (hq : d.ReadsBack a.typeName.toList) :
    readAttribute? d.namespaces (d.attributeXml a) = some a := by
  obtain ⟨name, typeName, isRequired⟩ := a
  have htype : field? (("name", name) :: d.typeAttribute typeName ++
      if isRequired then [("use", "required")] else []) "type" (resolveName? d.namespaces) =
        some typeName := by
    refine field?_type ?_ hq
    cases typeName <;> cases isRequired <;> rfl
  rw [attributeXml, readAttribute?, schemaName?_tag hd (by decide), htype]
  cases typeName <;> cases isRequired <;> rfl

theorem mapM_readAttribute? (hd : d.BindsPrefixes) {attributes : List Attribute}
    (hq : d.ReadsBack (attributes.flatMap (·.typeName.toList))) :
    (attributes.map d.attributeXml).mapM (readAttribute? d.namespaces) = some attributes := by
  induction attributes with
  | nil => rfl
  | cons a rest ih =>
    obtain ⟨hfirst, hrest⟩ := List.forall_mem_append.1 hq
    rw [List.map_cons, List.mapM_cons, readAttribute?_attributeXml hd a hfirst, ih hrest]
    rfl

theorem lookup_elementAttributes (name : String) (minOccurs : Option Nat)
    (typeName : Option QualifiedName) :
    (d.elementAttributes name minOccurs typeName).lookup "name" = some name ∧
      (d.elementAttributes name minOccurs typeName).lookup "minOccurs" = minOccurs.map toString ∧
      (d.elementAttributes name minOccurs typeName).lookup "type" = typeName.map d.lexical := by
  cases minOccurs <;> cases typeName <;> exact ⟨rfl, rfl, rfl⟩

theorem lookup_nameAttribute (name : Option String) :
    (name.toList.map fun n => ("name", n)).lookup "name" = name := by
  cases name <;> rfl

mutual

/-- **An element is read back**, by induction on it. -/
theorem readElement?_elementXml (hd : d.BindsPrefixes) : ∀ e : Element,
    d.ReadsBack e.typeNames → readElement? d.namespaces (d.elementXml e) = some e
  | .mk name minOccurs typeName none, hq => by
    obtain ⟨hname, hmin, htype⟩ := lookup_elementAttributes (d := d) name minOccurs typeName
    have hown := field?_type htype (List.forall_mem_append.1 hq).1
    have hnumber := field?_of_lookup hmin fun n _ => number?_toString n
    rw [elementXml, ← elementAttributes, readElement?, schemaName?_tag hd (by decide), hname,
      hnumber, hown]
    rfl
  | .mk name minOccurs typeName (some t), hq => by
    obtain ⟨hname, hmin, htype⟩ := lookup_elementAttributes (d := d) name minOccurs typeName
    obtain ⟨howned, hinner⟩ := List.forall_mem_append.1 hq
    have hown := field?_type htype howned
    have hnumber := field?_of_lookup hmin fun n _ => number?_toString n
    have ht := readComplexType?_complexTypeXml hd t hinner
    rw [elementXml, ← elementAttributes, readElement?, schemaName?_tag hd (by decide), hname,
      hnumber, hown]
    simp [ht]

theorem readComplexType?_complexTypeXml (hd : d.BindsPrefixes) : ∀ t : ComplexType,
    d.ReadsBack t.typeNames → readComplexType? d.namespaces (d.complexTypeXml t) = some t
  | .mk name none [], _ => by
    rw [complexTypeXml, readComplexType?, schemaName?_tag hd (by decide), lookup_nameAttribute]
    rfl
  | .mk name none (a :: rest), hq => by
    have hattributes := mapM_readAttribute? hd hq
    have hfirst : schemaName? d.namespaces (d.tag "attribute") = some "attribute" :=
      schemaName?_tag hd (by decide)
    rw [List.map_cons, attributeXml] at hattributes
    rw [complexTypeXml, readComplexType?, schemaName?_tag hd (by decide), lookup_nameAttribute,
      List.isEmpty_cons, List.map_cons, attributeXml]
    simp only [Bool.false_eq_true, if_false, hfirst, hattributes]
    rfl
  | .mk name (some elements) attributes, hq => by
    obtain ⟨hinner, hown⟩ := List.forall_mem_append.1 hq
    have hattributes := mapM_readAttribute? hd hown
    have helements := readElements?_elementsXml hd elements hinner
    have hsequence : schemaName? d.namespaces (d.tag "sequence") = some "sequence" :=
      schemaName?_tag hd (by decide)
    rw [complexTypeXml, readComplexType?, schemaName?_tag hd (by decide), lookup_nameAttribute]
    simp [hsequence, helements, hattributes]

theorem readElements?_elementsXml (hd : d.BindsPrefixes) : ∀ es : List Element,
    d.ReadsBack (typeNamesOf es) → readElements? d.namespaces (d.elementsXml es) = some es
  | [], _ => rfl
  | e :: rest, hq => by
    obtain ⟨hfirst, hrest⟩ := List.forall_mem_append.1 hq
    rw [elementsXml, readElements?, readElement?_elementXml hd e hfirst,
      readElements?_elementsXml hd rest hrest]
    rfl

end

/-! ## Items read back -/

theorem readFixed?_ok (hd : d.BindsPrefixes) (entry : FixedAttribute) :
    readFixed? d.namespaces (.mk (d.tag "attribute")
      [("name", entry.name), ("fixed", entry.fixed)] none) = some entry := by
  rw [readFixed?, schemaName?_tag hd (by decide)]
  rfl

theorem readPart?_ok (hd : d.BindsPrefixes) (entries : List FixedAttribute) :
    readPart? d.namespaces (.mk (d.tag "documentation") [] (some (entries.map fun entry =>
      .mk (d.tag "attribute") [("name", entry.name), ("fixed", entry.fixed)] none))) =
        some entries := by
  have hentries : (entries.map fun entry => Xml.Element.mk (d.tag "attribute")
      [("name", entry.name), ("fixed", entry.fixed)] none).mapM (readFixed? d.namespaces) =
        some entries := by
    induction entries with
    | nil => rfl
    | cons entry rest ih =>
      rw [List.map_cons, List.mapM_cons, readFixed?_ok hd, ih]
      rfl
  rw [readPart?, schemaName?_tag hd (by decide), hentries]
  rfl

theorem readDocumentation?_documentationXml (hd : d.BindsPrefixes) (a : Documentation) :
    readDocumentation? d.namespaces (d.documentationXml a) = some a := by
  obtain ⟨parts⟩ := a
  have hparts : (parts.map fun entries => Xml.Element.mk (d.tag "documentation") []
      (some (entries.map fun entry => .mk (d.tag "attribute")
        [("name", entry.name), ("fixed", entry.fixed)] none))).mapM (readPart? d.namespaces) =
          some parts := by
    induction parts with
    | nil => rfl
    | cons entries rest ih =>
      rw [List.map_cons, List.mapM_cons, readPart?_ok hd, ih]
      rfl
  rw [documentationXml, readDocumentation?, hparts]
  rfl

theorem readSimpleType?_simpleTypeXml (hd : d.BindsPrefixes) (t : SimpleType)
    (hq : d.ReadsBack [t.base]) : readSimpleType? d.namespaces (d.simpleTypeXml t) = some t := by
  have hbase := hq t.base List.mem_cons_self
  rw [simpleTypeXml, readSimpleType?, schemaName?_tag hd (by decide)]
  simp [hbase]

theorem elementXml_tag (e : Element) :
    ∃ attributes content, d.elementXml e = .mk (d.tag "element") attributes content := by
  obtain ⟨name, minOccurs, typeName, complexType⟩ := e
  cases complexType with
  | none => exact ⟨_, _, rfl⟩
  | some t => exact ⟨_, _, rfl⟩

theorem complexTypeXml_tag (t : ComplexType) :
    ∃ attributes content, d.complexTypeXml t = .mk (d.tag "complexType") attributes content := by
  obtain ⟨name, sequence, attributes⟩ := t
  cases sequence with
  | none => exact ⟨_, _, rfl⟩
  | some elements => exact ⟨_, _, rfl⟩

/-- **An item is read back.** -/
theorem readItem?_itemXml (hd : d.BindsPrefixes) : ∀ item : Item, d.ReadsBack item.typeNames →
    readItem? d.namespaces (d.itemXml item) = some item
  | .documentation a, _ => by
    have hread := readDocumentation?_documentationXml hd a
    rw [documentationXml] at hread
    rw [itemXml, documentationXml, readItem?, schemaName?_tag hd (by decide)]
    simp only [hread, Option.map_some]
  | .element e, hq => by
    have hread := readElement?_elementXml hd e hq
    obtain ⟨attributes, content, htag⟩ := elementXml_tag (d := d) e
    rw [htag] at hread
    rw [itemXml, htag, readItem?, schemaName?_tag hd (by decide)]
    simp only [hread, Option.map_some]
  | .complexType t, hq => by
    have hread := readComplexType?_complexTypeXml hd t hq
    obtain ⟨attributes, content, htag⟩ := complexTypeXml_tag (d := d) t
    rw [htag] at hread
    rw [itemXml, htag, readItem?, schemaName?_tag hd (by decide)]
    simp only [hread, Option.map_some]
  | .simpleType t, hq => by
    have hread := readSimpleType?_simpleTypeXml hd t hq
    rw [simpleTypeXml] at hread
    rw [itemXml, simpleTypeXml, readItem?, schemaName?_tag hd (by decide)]
    simp only [hread, Option.map_some]

theorem mapM_readItem? (hd : d.BindsPrefixes) {items : List Item}
    (hq : d.ReadsBack (items.flatMap Item.typeNames)) :
    (items.map d.itemXml).mapM (readItem? d.namespaces) = some items := by
  induction items with
  | nil => rfl
  | cons item rest ih =>
    obtain ⟨hfirst, hrest⟩ := List.forall_mem_append.1 hq
    rw [List.map_cons, List.mapM_cons, readItem?_itemXml hd item hfirst, ih hrest]
    rfl

/-! ## The outermost tag read back -/

theorem declaredPrefix?_bindingAttribute (b : String × String) :
    declaredPrefix? (bindingAttribute b).1 = some b.1 := by
  obtain ⟨p, uri⟩ := b
  by_cases hp : p = ""
  · subst hp
    rfl
  · have hlist : ("xmlns:" ++ p).toList = "xmlns:".toList ++ p.toList := String.toList_append
    have hne : "xmlns:" ++ p ≠ "xmlns" := by
      intro h
      rw [h] at hlist
      simp at hlist
    have hmore : "xmlns:" ++ p ≠ "xmlns:" := by
      intro h
      rw [h] at hlist
      exact hp (String.toList_eq_nil_iff.1 (List.self_eq_append_right.1 hlist))
    have htake : ("xmlns:".toList ++ p.toList).take 6 = "xmlns:".toList := rfl
    have hdrop : ("xmlns:".toList ++ p.toList).drop 6 = p.toList := rfl
    simp only [bindingAttribute, if_neg hp]
    rw [declaredPrefix?, if_neg hne, hlist, htake, if_pos ⟨rfl, hmore⟩, hdrop, String.ofList_toList]

/-- The attributes of the outermost tag that declare no prefix. -/
def defaultNames : List String :=
  ["attributeFormDefault", "elementFormDefault", "blockDefault", "finalDefault"]

theorem declaredPrefix?_default : ∀ name ∈ defaultNames, declaredPrefix? name = none := by
  decide

/-- The attributes of the outermost tag behind the declarations. -/
def defaultAttributes (d : Document) : List (String × String) :=
  formAttribute "attributeFormDefault" d.attributeForm ++
    formAttribute "elementFormDefault" d.elementForm ++
    derivationAttribute "blockDefault" d.blockDefault ++
    derivationAttribute "finalDefault" d.finalDefault

theorem attributesXml_eq (d : Document) :
    d.attributesXml = d.namespaces.map bindingAttribute ++ d.defaultAttributes := by
  simp [attributesXml, defaultAttributes, List.append_assoc]

theorem names_defaultAttributes (d : Document) :
    ((d.defaultAttributes).map Prod.fst).Sublist defaultNames := by
  obtain ⟨namespaces, attributeForm, elementForm, blockDefault, finalDefault, items⟩ := d
  have hform : ∀ name form, ((formAttribute name form).map Prod.fst).Sublist [name] := by
    intro name form
    unfold formAttribute
    cases form.filter (· != .none) <;> simp
  have hset : ∀ name set, ((derivationAttribute name set).map Prod.fst).Sublist [name] := by
    intro name set
    cases set <;> simp [derivationAttribute]
  simp only [defaultAttributes, List.map_append]
  exact (((hform _ _).append (hform _ _)).append (hset _ _)).append (hset _ _)

theorem declaredPrefixes_map (bindings : List (String × String)) :
    declaredPrefixes (bindings.map bindingAttribute) = bindings := by
  induction bindings with
  | nil => rfl
  | cons b rest ih =>
    have hfirst : declaredPrefixes (bindingAttribute b :: rest.map bindingAttribute) =
        b :: declaredPrefixes (rest.map bindingAttribute) := by
      refine List.filterMap_cons_some ?_
      rw [declaredPrefix?_bindingAttribute]
      rfl
    rw [List.map_cons, hfirst, ih]

theorem declaredPrefixes_attributesXml (d : Document) :
    declaredPrefixes d.attributesXml = d.namespaces := by
  have hrest : declaredPrefixes d.defaultAttributes = [] := by
    refine List.filterMap_eq_nil_iff.2 fun a ha => ?_
    have hname := (names_defaultAttributes d).subset (List.mem_map.2 ⟨a, ha, rfl⟩)
    rw [declaredPrefix?_default a.1 hname, Option.map_none]
  rw [attributesXml_eq, declaredPrefixes, List.filterMap_append]
  exact (congrArg₂ (· ++ ·) (declaredPrefixes_map _) hrest).trans (List.append_nil _)

theorem lookup_attributesXml {name : String} (h : name ∈ defaultNames) :
    d.attributesXml.lookup name = d.defaultAttributes.lookup name := by
  have hnone : (d.namespaces.map bindingAttribute).lookup name = none := by
    refine List.lookup_eq_none_iff.2 fun a ha => ?_
    obtain ⟨b, _, rfl⟩ := List.mem_map.1 ha
    rw [bne_iff_ne]
    rintro rfl
    have hprefix := declaredPrefix?_bindingAttribute b
    rw [declaredPrefix?_default _ h] at hprefix
    cases hprefix
  rw [attributesXml_eq, List.lookup_append, hnone, Option.none_or]

theorem lookup_singleton (name other value : String) :
    [(name, value)].lookup other = if other = name then some value else none := by
  by_cases h : other = name
  · subst h
    rw [List.lookup_cons_self, if_pos rfl]
  · rw [List.lookup_cons, beq_eq_false_iff_ne.2 h, if_neg h]
    rfl

theorem lookup_formAttribute (name other : String) (form : Option Form) :
    (formAttribute name form).lookup other =
      if other = name then (form.filter (· != .none)).map Form.name else none := by
  unfold formAttribute
  cases form.filter (· != .none) with
  | none => simp
  | some f => exact lookup_singleton name other f.name

theorem lookup_derivationAttribute (name other : String) (set : Option (List Derivation)) :
    (derivationAttribute name set).lookup other =
      if other = name then set.map Derivation.setText else none := by
  unfold derivationAttribute
  cases set with
  | none => simp
  | some s => exact lookup_singleton name other (Derivation.setText s)

/-- What the outermost tag has under each name. -/
theorem lookup_defaults (d : Document) :
    d.attributesXml.lookup "attributeFormDefault" =
        (d.attributeForm.filter (· != .none)).map Form.name ∧
      d.attributesXml.lookup "elementFormDefault" =
        (d.elementForm.filter (· != .none)).map Form.name ∧
      d.attributesXml.lookup "blockDefault" = d.blockDefault.map Derivation.setText ∧
      d.attributesXml.lookup "finalDefault" = d.finalDefault.map Derivation.setText := by
  refine ⟨?_, ?_, ?_, ?_⟩
  all_goals
    rw [lookup_attributesXml (by decide)]
    simp [defaultAttributes, List.lookup_append, lookup_formAttribute, lookup_derivationAttribute]

theorem field?_form {attributes : List (String × String)} {name : String} {form : Option Form}
    (h : attributes.lookup name = form.map Form.name) :
    field? attributes name Form.ofName? = some form :=
  field?_of_lookup h fun f _ => Form.ofName?_name f

theorem field?_set {attributes : List (String × String)} {name : String}
    {set : Option (List Derivation)} (h : attributes.lookup name = set.map Derivation.setText) :
    field? attributes name Derivation.setOfTokens? =
      some (set.map (·.filter (· != .empty))) := by
  rw [field?, h]
  cases set with
  | none => rfl
  | some s =>
    change (Derivation.setOfTokens? (Derivation.setText s)).map some = _
    rw [Derivation.setOfTokens?_setText]
    rfl

/-- **The elements of a document are read back as the document.** -/
theorem ofXml?_toXml (hd : d.BindsPrefixes) (hq : d.ReadsBack d.typeNames) :
    ofXml? d.toXml = some d.plain := by
  have hprefixes := declaredPrefixes_attributesXml d
  have hschema : schemaName? d.namespaces (d.tag "schema") = some "schema" :=
    schemaName?_tag hd (by decide)
  obtain ⟨hattributeForm, helementForm, hblock, hfinal⟩ := lookup_defaults d
  have hitems : ((if d.items.isEmpty then none else some (d.items.map d.itemXml)).getD []).mapM
      (readItem? d.namespaces) = some d.items := by
    have hread := mapM_readItem? hd hq
    cases hempty : d.items with
    | nil => rfl
    | cons item rest =>
      rw [hempty] at hread
      exact hread
  rw [toXml, ofXml?, hprefixes, hschema, field?_form hattributeForm, field?_form helementForm,
    field?_set hblock, field?_set hfinal, hitems]
  rfl

/-! ## The text read back -/

theorem isPlain_of_isNameChar {c : Char} (h : Xml.isNameChar c = true) : Xml.isPlain c = true := by
  by_contra hnot
  simp only [Xml.isPlain, Xml.endsName, Xml.isSpace, Bool.not_eq_true', Bool.not_eq_false,
    Bool.or_eq_true, beq_iff_eq] at hnot
  rcases hnot with (((((((rfl | rfl) | rfl) | rfl) | rfl) | rfl) | rfl) | rfl) | rfl
  all_goals exact absurd h (by decide)

theorem plainName_of_isName {s : String} (h : Xml.isName s = true) : Xml.PlainName s := by
  refine ⟨?_, fun c hc => isPlain_of_isNameChar (Xml.isNameChar_of_mem h hc)⟩
  rintro rfl
  cases h

theorem plainName_of_all {s : String} (h : s ≠ "" ∧ s.toList.all Xml.isPlain = true) :
    Xml.PlainName s := ⟨h.1, List.all_eq_true.1 h.2⟩

theorem plainName_append {s t : String} (hs : Xml.PlainName s) (ht : Xml.PlainName t) :
    Xml.PlainName (s ++ t) := by
  refine ⟨fun h => hs.nonempty (String.append_eq_empty_iff.1 h).1, fun c hc => ?_⟩
  rw [String.toList_append, List.mem_append] at hc
  rcases hc with hc | hc
  · exact hs.plain c hc
  · exact ht.plain c hc

theorem plainName_of_mem {s : String}
    (h : s ∈ tagNames ++ innerAttributes ++ defaultNames ++ [":", "xmlns", "xmlns:"]) :
    Xml.PlainName s := by
  have hall : ∀ s ∈ tagNames ++ innerAttributes ++ defaultNames ++ [":", "xmlns", "xmlns:"],
      s ≠ "" ∧ s.toList.all Xml.isPlain = true := by decide
  exact plainName_of_all (hall s h)

theorem plainName_tag (hd : d.BindsPrefixes) {name : String} (h : name ∈ tagNames) :
    Xml.PlainName (d.tag name) := by
  have hname : Xml.PlainName name := plainName_of_mem (by simp [h])
  obtain ⟨p, hp⟩ := exists_prefixOf? hd.schema
  rw [tag, hp, prefixed]
  split
  · exact hname
  · rename_i hne
    have hm : p ∈ d.namespaces.map Prod.fst := List.mem_map.2 ⟨_, mem_of_prefixOf? hp, rfl⟩
    have hprefix := plainName_of_isName ((hd.named p hm).resolve_left hne)
    exact plainName_append (plainName_append hprefix (plainName_of_mem (by decide))) hname

theorem plainName_attributesXml (hd : d.BindsPrefixes) :
    ∀ a ∈ d.attributesXml, Xml.PlainName a.1 := by
  intro a ha
  rw [attributesXml_eq, List.mem_append] at ha
  rcases ha with ha | ha
  · obtain ⟨⟨p, uri⟩, hb, rfl⟩ := List.mem_map.1 ha
    by_cases hp : p = ""
    · simp only [bindingAttribute, if_pos hp]
      exact plainName_of_mem (by decide)
    · simp only [bindingAttribute, if_neg hp]
      have hname := (hd.named p (List.mem_map.2 ⟨_, hb, rfl⟩)).resolve_left hp
      exact plainName_append (plainName_of_mem (by decide)) (plainName_of_isName hname)
  · have hname := (names_defaultAttributes d).subset (List.mem_map.2 ⟨a, ha, rfl⟩)
    exact plainName_of_mem (by simp [hname])

theorem plain_toXml (hd : d.BindsPrefixes) : d.toXml.Plain := by
  intro x hx
  rcases fits_toXml (.any d d.texts d.typeNames) hx with rfl | hfits
  · exact ⟨plainName_tag hd (by decide), plainName_attributesXml hd⟩
  · obtain ⟨name, hname, htag⟩ := hfits.tag
    refine ⟨htag ▸ plainName_tag hd hname, fun a ha => ?_⟩
    exact plainName_of_mem (by simp [hfits.names a.1 (List.mem_map.2 ⟨a, ha, rfl⟩)])

/-- **The text determines the document.** Where the prefixes are bound well and the type names can be
written, the text is read back as the document without what is not written. -/
theorem ofText?_text (hd : d.BindsPrefixes) (hq : ∀ q ∈ d.typeNames, d.CanWrite q) :
    ofText? d.text = some d.plain := by
  have hreads : d.ReadsBack d.typeNames := fun q hm => resolveName?_lexical hd (hq q hm)
  have hdecoded : d.toXml.escaped.mapValues? Xml.unescape? = some d.toXml :=
    Xml.Element.mapValues?_escaped d.toXml fun _ _ v _ => Xml.unescape?_escape v
  rw [ofText?, text, Xml.parse?_documentText (plain_toXml hd), Option.bind_some, hdecoded,
    Option.bind_some, ofXml?_toXml hd hreads]

/-- A document with nested types, absent and empty sequences, and values of all kinds. -/
def nestedDocument : Document where
  namespaces := [("", schemaNamespace), ("q", "urn:<&\"'>"), ("xs", schemaNamespace)]
  attributeForm := some .none
  elementForm := some .qualified
  blockDefault := some [.empty, .extension, .restriction]
  items := [.documentation ⟨[[⟨"title", "a\n\t& b"⟩], []]⟩,
    .element (.mk "Root" none none (some (.mk none (some [
      .mk "a" (some 10) (some (.builtIn "string")) none,
      .mk "b" none none (some (.mk none (some []) [])),
      .mk "c" none none (some (.mk none none []))])
      [⟨"d", some ⟨some "urn:<&\"'>", "T"⟩, true⟩, ⟨"e", none, false⟩]))),
    .simpleType ⟨"S", .builtIn "integer"⟩]

theorem ofText?_text_nested :
    nestedDocument.BindsPrefixes ∧ (∀ q ∈ nestedDocument.typeNames, nestedDocument.CanWrite q) ∧
      ofText? nestedDocument.text = some nestedDocument.plain := by
  have hd : nestedDocument.BindsPrefixes := ⟨by decide, by decide, by decide⟩
  have hq : ∀ q ∈ nestedDocument.typeNames, nestedDocument.CanWrite q := by
    have hname : ∀ q ∈ nestedDocument.typeNames, ':' ∉ q.name.toList := by decide
    have hns : ∀ q ∈ nestedDocument.typeNames, ∃ uri ∈ nestedDocument.namespaces.map Prod.snd,
        q.ns = some uri := by decide
    intro q hm
    obtain ⟨uri, hbound, huri⟩ := hns q hm
    refine ⟨hname q hm, fun other hother => ?_, fun hnone => ?_⟩
    · rw [huri] at hother
      cases hother
      exact hbound
    · rw [huri] at hnone
      cases hnone
  exact ⟨hd, hq, ofText?_text hd hq⟩

end Document
end Xsd
end XsdSynthesis
