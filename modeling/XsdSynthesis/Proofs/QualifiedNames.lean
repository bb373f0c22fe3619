import XsdSynthesis.Proofs.Tables
import XsdSynthesis.Xml.Name
import XsdSynthesis.Xsd.Text

/-!
# XsdSynthesis.Proofs.QualifiedNames

Qualified names as they are written and as they are read. `resolveName?` reads a lexical name by a table of
prefixes. If the table binds no prefix twice and every prefix is empty or a name, then what a
document writes for a type name is read as that name (`resolveName?_lexical`), and every tag as a
name of XML Schema (`resolveName?_tag`).
-/

namespace XsdSynthesis

namespace Xml

theorem isNameChar_of_mem {s : String} (h : isName s = true) {c : Char} (hc : c ∈ s.toList) :
    isNameChar c = true := by
  unfold isName at h
  generalize s.toList = cs at h hc
  cases cs with
  | nil => cases hc
  | cons first rest =>
    obtain ⟨hstart, hrest⟩ := Bool.and_eq_true_iff.1 h
    rcases List.mem_cons.1 hc with rfl | hc
    · simp [isNameChar, hstart]
    · exact List.all_eq_true.1 hrest c hc

theorem not_mem_of_isName {s : String} (h : isName s = true) {c : Char}
    (hc : isNameChar c = false) : c ∉ s.toList := by
  intro hm
  rw [isNameChar_of_mem h hm] at hc
  cases hc

theorem isNameChar_colon : isNameChar ':' = false := by decide

namespace Element

mutual

/-- The start tags of an element and of all that it contains, each a tag with its attributes. -/
def starts : Element → List (String × List (String × String))
  | mk tag attributes none => [(tag, attributes)]
  | mk tag attributes (some content) => (tag, attributes) :: startsOf content

def startsOf : List Element → List (String × List (String × String))
  | [] => []
  | e :: rest => starts e ++ startsOf rest

end

def tags (e : Element) : List String := e.starts.map Prod.fst

theorem mem_startsOf {x : String × List (String × String)} {es : List Element} :
    x ∈ startsOf es ↔ ∃ e ∈ es, x ∈ e.starts := by
  induction es with
  | nil => simp [startsOf]
  | cons e rest ih => simp [startsOf, ih]

end Element

end Xml

namespace Xsd

/-- The name that a lexical name denotes under a table of prefixes. Without a prefix it is in the
default namespace, or in none if there is no default. -/
def resolveName? (namespaces : List (String × String)) (lexical : String) :
    Option QualifiedName :=
  match lexical.toList.splitOn ':' with
  | [name] => some ⟨namespaces.lookup "", String.ofList name⟩
  | [[], _] => none
  | [p, name] => (namespaces.lookup (String.ofList p)).map (⟨some ·, String.ofList name⟩)
  | _ => none

/-! ## The type names of a document -/

mutual

def Element.typeNames : Element → List QualifiedName
  | .mk _ _ typeName complexType =>
    typeName.toList ++ match complexType with
      | some t => t.typeNames
      | none => []

def ComplexType.typeNames : ComplexType → List QualifiedName
  | .mk _ sequence attributes =>
    (match sequence with
      | some elements => typeNamesOf elements
      | none => []) ++ attributes.flatMap (·.typeName.toList)

def typeNamesOf : List Element → List QualifiedName
  | [] => []
  | e :: rest => e.typeNames ++ typeNamesOf rest

end

def Item.typeNames : Item → List QualifiedName
  | .documentation _ => []
  | .element e => e.typeNames
  | .complexType t => t.typeNames
  | .simpleType t => [t.base]

namespace Document

/-- The names of types that a document refers to, at any depth. -/
def typeNames (d : Document) : List QualifiedName := d.items.flatMap Item.typeNames

/-- The prefixes of a document differ, each is empty or a name, and XML Schema has one. -/
structure BindsPrefixes (d : Document) : Prop where
  distinct : (d.namespaces.map Prod.fst).Nodup
  named : ∀ p ∈ d.namespaces.map Prod.fst, p = "" ∨ Xml.isName p = true
  schema : schemaNamespace ∈ d.namespaces.map Prod.snd

/-- A name can be written in a document: its local part has no colon, its namespace is bound, and
if it has none there is no default namespace. -/
structure CanWrite (d : Document) (q : QualifiedName) : Prop where
  name : ':' ∉ q.name.toList
  bound : ∀ uri, q.ns = some uri → uri ∈ d.namespaces.map Prod.snd
  free : q.ns = none → "" ∉ d.namespaces.map Prod.fst

variable {d : Document} {q : QualifiedName} {uri p name : String}

theorem mem_of_prefixOf? (h : d.prefixOf? uri = some p) : (p, uri) ∈ d.namespaces := by
  obtain ⟨⟨p', uri'⟩, hf, rfl⟩ := Option.map_eq_some_iff.1 h
  have huri : uri' = uri := by simpa using List.find?_some hf
  exact huri ▸ List.mem_of_find?_eq_some hf

theorem exists_prefixOf? (h : uri ∈ d.namespaces.map Prod.snd) : ∃ p, d.prefixOf? uri = some p := by
  obtain ⟨b, hb, rfl⟩ := List.mem_map.1 h
  have hsome : (d.namespaces.find? (·.2 == b.2)).isSome = true :=
    List.find?_isSome.2 ⟨b, hb, beq_self_eq_true _⟩
  obtain ⟨found, hf⟩ := Option.isSome_iff_exists.1 hsome
  exact ⟨found.1, by rw [prefixOf?, hf, Option.map_some]⟩

theorem resolveName?_unprefixed {namespaces : List (String × String)} (h : ':' ∉ name.toList) :
    resolveName? namespaces name = some ⟨namespaces.lookup "", name⟩ := by
  rw [resolveName?, List.splitOn_eq_singleton h]
  simp only [String.ofList_toList]

theorem resolveName?_prefixed {namespaces : List (String × String)} (hp : ':' ∉ p.toList)
    (hne : p ≠ "") (h : ':' ∉ name.toList) :
    resolveName? namespaces (p ++ ":" ++ name) =
      (namespaces.lookup p).map (⟨some ·, name⟩) := by
  have hsplit : (p ++ ":" ++ name).toList.splitOn ':' = [p.toList, name.toList] := by
    rw [String.toList_append, String.toList_append, List.append_assoc,
      show ":".toList ++ name.toList = ':' :: name.toList from rfl,
      List.splitOn_append_cons_self_of_not_mem hp, List.splitOn_eq_singleton h]
  rw [resolveName?, hsplit]
  split
  · rename_i heq
    cases heq
  · rename_i heq
    have hnil : p.toList = [] := (List.cons.inj heq).1
    exact absurd (String.toList_eq_nil_iff.1 hnil) hne
  · rename_i heq
    cases heq
    simp only [String.ofList_toList]
  · rename_i hno
    exact absurd rfl (hno _ _)

theorem resolveName?_of_mem (hd : d.BindsPrefixes) (hm : (p, uri) ∈ d.namespaces)
    (h : ':' ∉ name.toList) :
    resolveName? d.namespaces (prefixed (some p) name) = some ⟨some uri, name⟩ := by
  have hlookup := Tables.lookup_of_mem hd.distinct hm
  rw [prefixed]
  split
  · rename_i hp
    rw [resolveName?_unprefixed h, ← hp, hlookup]
  · rename_i hp
    have hname := (hd.named p (List.mem_map.2 ⟨_, hm, rfl⟩)).resolve_left hp
    rw [resolveName?_prefixed (Xml.not_mem_of_isName hname Xml.isNameChar_colon) hp h, hlookup,
      Option.map_some]

/-- **A type name is read as it is meant.** -/
theorem resolveName?_lexical (hd : d.BindsPrefixes) (hq : d.CanWrite q) :
    resolveName? d.namespaces (d.lexical q) = some q := by
  obtain ⟨ns, name⟩ := q
  cases ns with
  | none =>
    rw [lexical, Option.bind_none, prefixed, resolveName?_unprefixed hq.name,
      Tables.lookup_eq_none.2 (hq.free rfl)]
  | some uri =>
    obtain ⟨p, hp⟩ := exists_prefixOf? (hq.bound uri rfl)
    rw [lexical, Option.bind_some, hp, resolveName?_of_mem hd (mem_of_prefixOf? hp) hq.name]

/-- **A tag is read as a name of XML Schema.** -/
theorem resolveName?_tag (hd : d.BindsPrefixes) (h : ':' ∉ name.toList) :
    resolveName? d.namespaces (d.tag name) = some (.builtIn name) := by
  obtain ⟨p, hp⟩ := exists_prefixOf? hd.schema
  rw [tag, hp, resolveName?_of_mem hd (mem_of_prefixOf? hp) h, QualifiedName.builtIn]

end Document
end Xsd
end XsdSynthesis
