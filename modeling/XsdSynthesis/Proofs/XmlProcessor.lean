import XsdSynthesis.Proofs.DocumentReader

/-!
# XsdSynthesis.Proofs.XmlProcessor

What a conforming processor makes of XML text. `report?` follows XML 1.0 and its namespaces where they
bear on text as it is written here: characters, line breaks, names, attributes, the declarations
of prefixes, and the blanks in attribute values, which are normalized. The text of an element is
reported as this element exactly when its characters are allowed, no value holds a tab or a line
break, and its names and declarations are well-formed (`report?_documentText_iff`).
-/

namespace XsdSynthesis
namespace Xml

open Xsd (declaredPrefix? declaredPrefixes)

/-! ## Characters and names -/

/-- The code points that XML 1.0 allows. -/
def charRanges : List (Nat × Nat) :=
  [(0x9, 0xA), (0xD, 0xD), (0x20, 0xD7FF), (0xE000, 0xFFFD), (0x10000, 0x10FFFF)]

/-- The code points that a name without colon may begin with. -/
def nameStartRanges : List (Nat × Nat) :=
  [(0x41, 0x5A), (0x5F, 0x5F), (0x61, 0x7A), (0xC0, 0xD6), (0xD8, 0xF6), (0xF8, 0x2FF),
    (0x370, 0x37D), (0x37F, 0x1FFF), (0x200C, 0x200D), (0x2070, 0x218F), (0x2C00, 0x2FEF),
    (0x3001, 0xD7FF), (0xF900, 0xFDCF), (0xFDF0, 0xFFFD), (0x10000, 0xEFFFF)]

/-- The other code points that a name may hold. -/
def nameMoreRanges : List (Nat × Nat) :=
  [(0x2D, 0x2E), (0x30, 0x39), (0xB7, 0xB7), (0x300, 0x36F), (0x203F, 0x2040)]

def inRanges (ranges : List (Nat × Nat)) (c : Char) : Bool :=
  ranges.any fun r => r.1 ≤ c.toNat && c.toNat ≤ r.2

def isAllowed (c : Char) : Bool := inRanges charRanges c

/-- Whether a text is a name without colon. -/
def isNCName (s : String) : Bool :=
  match s.toList with
  | [] => false
  | c :: rest =>
    inRanges nameStartRanges c && rest.all (inRanges (nameStartRanges ++ nameMoreRanges))

/-- The prefix and the local part of a name. The prefix is empty if there is none. -/
def splitName? (name : String) : Option (String × String) :=
  match (name.toList.splitOn ':').map String.ofList with
  | [part] => if isNCName part then some ("", part) else none
  | [boundPrefix, part] =>
    if isNCName boundPrefix && isNCName part then some (boundPrefix, part) else none
  | _ => none

/-! ## Well-formed elements -/

def xmlNamespace : String := "http://www.w3.org/XML/1998/namespace"

def xmlnsNamespace : String := "http://www.w3.org/2000/xmlns/"

/-- Whether a prefix may be declared for a namespace. -/
def mayBind (b : String × String) : Bool :=
  (b.1 == "" || isNCName b.1) && b.1 != "xmlns" && ((b.1 == "xml") == (b.2 == xmlNamespace)) &&
    b.2 != xmlnsNamespace && (b.1 == "" || b.2 != "")

/-- Whether a name has no prefix, or one that is declared. -/
def isBound (scope : List (String × String)) (name : String) : Bool :=
  match splitName? name with
  | some (p, _) => p == "" || p == "xml" || scope.any (·.1 == p)
  | none => false

/-- The namespace and the local part that the name of an attribute stands for. -/
def expandedName (scope : List (String × String)) (name : String) : Option String × String :=
  match splitName? name with
  | some (p, part) => if p = "" then (none, part) else (scope.lookup p, part)
  | none => (none, name)

/-- Whether a start tag is well-formed where some prefixes are declared. -/
def startFits (scope : List (String × String)) (tag : String)
    (attributes : List (String × String)) : Bool :=
  let others := (attributes.map Prod.fst).filter fun name => (declaredPrefix? name).isNone
  decide (attributes.map Prod.fst).Nodup && (declaredPrefixes attributes).all mayBind &&
    isBound scope tag && others.all (isBound scope) &&
    decide (others.map (expandedName scope)).Nodup

namespace Element

mutual

/-- Whether an element is well-formed where some prefixes are declared around it. -/
def wellFormed (scope : List (String × String)) : Element → Bool
  | mk tag attributes none => startFits (declaredPrefixes attributes ++ scope) tag attributes
  | mk tag attributes (some content) =>
    startFits (declaredPrefixes attributes ++ scope) tag attributes &&
      wellFormedAll (declaredPrefixes attributes ++ scope) content

def wellFormedAll (scope : List (String × String)) : List Element → Bool
  | [] => true
  | e :: rest => wellFormed scope e && wellFormedAll scope rest

end

end Element

/-! ## The report -/

/-- Line breaks as one character each. -/
def unifyBreaks : List Char → List Char
  | '\r' :: '\n' :: rest => '\n' :: unifyBreaks rest
  | '\r' :: rest => '\n' :: unifyBreaks rest
  | c :: rest => c :: unifyBreaks rest
  | [] => []

/-- A blank of any kind as a space. -/
def normalizeSpace (c : Char) : Char := if isSpace c then ' ' else c

/-- The value of an attribute that stands in a text, with its blanks normalized. -/
def reportValue? (s : String) : Option String :=
  unescape? (String.ofList (s.toList.map normalizeSpace))

/-- The root element of a text as a processor reports it, if the text is well-formed. -/
def report? (text : String) : Option Element :=
  if text.toList.all isAllowed then
    ((parse? (String.ofList (unifyBreaks text.toList))).bind
      (Element.mapValues? reportValue?)).filter (Element.wellFormed [])
  else none

/-! ## Values -/

/-- A character that a value keeps: an allowed one, and no tab or line break. -/
def isKept (c : Char) : Bool := isAllowed c && (c == ' ' || !isSpace c)

theorem normalizeSpace_of_isKept {c : Char} (h : isKept c = true) : normalizeSpace c = c := by
  unfold normalizeSpace
  split
  · rename_i hspace
    simp only [isKept, hspace, Bool.not_true, Bool.or_false, Bool.and_eq_true, beq_iff_eq] at h
    exact h.2.symm
  · rfl

/-- The characters that markup and escapes are made of. -/
def markupChars : List Char := ("<>/ =\"'&;amp" ++ "ltgquos").toList

theorem mem_escapeChar {c e : Char} (h : e ∈ escapeChar c) : e ∈ markupChars ∨ e = c := by
  unfold escapeChar at h
  split at h
  · exact .inl ((by decide : _ ⊆ markupChars) h)
  · exact .inl ((by decide : _ ⊆ markupChars) h)
  · exact .inl ((by decide : _ ⊆ markupChars) h)
  · exact .inl ((by decide : _ ⊆ markupChars) h)
  · exact .inl ((by decide : _ ⊆ markupChars) h)
  · exact .inr (List.mem_singleton.1 h)

theorem self_mem_escapeChar {c : Char} (h : c ∉ markupChars) : c ∈ escapeChar c := by
  unfold escapeChar
  split
  · exact absurd (by decide) h
  · exact absurd (by decide) h
  · exact absurd (by decide) h
  · exact absurd (by decide) h
  · exact absurd (by decide) h
  · exact List.mem_singleton_self _

theorem isKept_markup : ∀ c ∈ markupChars, isKept c = true := List.all_eq_true.1 (by decide)

theorem isKept_escape {s : String} (h : ∀ c ∈ s.toList, isKept c = true) :
    ∀ c ∈ (escape s).toList, isKept c = true := by
  intro c hc
  rw [escape, String.toList_ofList] at hc
  obtain ⟨e, he, hc⟩ := List.mem_flatMap.1 hc
  rcases mem_escapeChar hc with hm | rfl
  · exact isKept_markup c hm
  · exact h c he

/-- **A value of kept characters is reported as it is.** -/
theorem reportValue?_escape {s : String} (h : ∀ c ∈ s.toList, isKept c = true) :
    reportValue? (escape s) = some s := by
  have hmap : (escape s).toList.map normalizeSpace = (escape s).toList :=
    (List.map_congr_left fun c hc => normalizeSpace_of_isKept (isKept_escape h c hc)).trans
      (List.map_id _)
  rw [reportValue?, hmap, String.ofList_toList, unescape?_escape]

theorem isBreak_normalizeSpace (c : Char) :
    normalizeSpace c = ' ' ∨ isSpace (normalizeSpace c) = false := by
  unfold normalizeSpace
  split
  · exact .inl rfl
  · rename_i h
    exact .inr (by simpa using h)

/-- Undoing escapes brings in no blanks. -/
theorem notBreak_of_unescapeList {cs ds : List Char} (h : unescapeList cs = some ds)
    (hc : ∀ c ∈ cs, c = ' ' ∨ isSpace c = false) : ∀ c ∈ ds, c = ' ' ∨ isSpace c = false := by
  fun_induction unescapeList cs generalizing ds with
  | case1 =>
    cases h
    simp
  | case2 rest ih | case3 rest ih | case4 rest ih | case5 rest ih | case6 rest ih =>
    obtain ⟨es, hes, rfl⟩ := Option.map_eq_some_iff.1 h
    refine List.forall_mem_cons.2 ⟨.inr rfl, ih hes fun c hm => hc c ?_⟩
    simp [hm]
  | case7 => cases h
  | case8 c rest =>
    rename_i ih
    obtain ⟨es, hes, rfl⟩ := Option.map_eq_some_iff.1 h
    obtain ⟨hfirst, hrest⟩ := List.forall_mem_cons.1 hc
    exact List.forall_mem_cons.2 ⟨hfirst, ih hes hrest⟩

theorem notBreak_of_reportValue? {w v : String} (h : reportValue? w = some v) :
    ∀ c ∈ v.toList, c = ' ' ∨ isSpace c = false := by
  obtain ⟨cs, hcs, rfl⟩ := Option.map_eq_some_iff.1 h
  rw [String.toList_ofList] at hcs ⊢
  refine notBreak_of_unescapeList hcs fun c hc => ?_
  obtain ⟨e, _, rfl⟩ := List.mem_map.1 hc
  exact isBreak_normalizeSpace e

theorem decoded_of_mapM {f : String → Option String} {attributes decoded : List (String × String)}
    (h : (attributes.mapM fun a => do return (a.1, ← f a.2)) = some decoded) :
    ∀ v ∈ decoded.map Prod.snd, ∃ w, f w = some v := by
  induction attributes generalizing decoded with
  | nil =>
    cases h
    simp
  | cons a rest ih =>
    rw [List.mapM_cons] at h
    obtain ⟨first, hfirst, h⟩ := Option.bind_eq_some_iff.1 h
    obtain ⟨others, hothers, h⟩ := Option.bind_eq_some_iff.1 h
    obtain ⟨value, hvalue, hpair⟩ := Option.bind_eq_some_iff.1 hfirst
    cases hpair
    cases h
    exact List.forall_mem_cons.2 ⟨⟨a.2, hvalue⟩, ih hothers⟩

namespace Element

mutual

/-- Every decoded value comes from some value. -/
theorem decoded_of_mapValues? {f : String → Option String} : ∀ e e' : Element,
    mapValues? f e = some e' →
      ∀ x ∈ e'.starts, ∀ v ∈ x.2.map Prod.snd, ∃ w, f w = some v
  | mk tag attributes none, e', h => by
    rw [mapValues?] at h
    obtain ⟨decoded, hdecoded, h⟩ := Option.bind_eq_some_iff.1 h
    cases h
    exact List.forall_mem_singleton.2 (decoded_of_mapM hdecoded)
  | mk tag attributes (some content), e', h => by
    rw [mapValues?] at h
    obtain ⟨decoded, hdecoded, h⟩ := Option.bind_eq_some_iff.1 h
    obtain ⟨inner, hinner, h⟩ := Option.bind_eq_some_iff.1 h
    cases h
    exact List.forall_mem_cons.2
      ⟨decoded_of_mapM hdecoded, decoded_of_mapValuesOf? content inner hinner⟩

theorem decoded_of_mapValuesOf? {f : String → Option String} : ∀ es es' : List Element,
    mapValuesOf? f es = some es' →
      ∀ x ∈ startsOf es', ∀ v ∈ x.2.map Prod.snd, ∃ w, f w = some v
  | [], es', h => by
    cases h
    exact nofun
  | e :: rest, es', h => by
    rw [mapValuesOf?] at h
    obtain ⟨first, hfirst, h⟩ := Option.bind_eq_some_iff.1 h
    obtain ⟨others, hothers, h⟩ := Option.bind_eq_some_iff.1 h
    cases h
    exact List.forall_mem_append.2
      ⟨decoded_of_mapValues? e first hfirst, decoded_of_mapValuesOf? rest others hothers⟩

end

end Element

/-! ## The characters of a text -/

/-- The characters of a start tag, its values without escapes. -/
def startChars (x : String × List (String × String)) : List Char :=
  x.1.toList ++ x.2.flatMap fun a => a.1.toList ++ a.2.toList

theorem mem_escape {c : Char} (hc : c ∉ markupChars) (s : String) :
    c ∈ (escape s).toList ↔ c ∈ s.toList := by
  rw [escape, String.toList_ofList]
  constructor
  · intro h
    obtain ⟨e, he, h⟩ := List.mem_flatMap.1 h
    rcases mem_escapeChar h with hm | rfl
    · exact absurd hm hc
    · exact he
  · intro h
    exact List.mem_flatMap.2 ⟨c, h, self_mem_escapeChar hc⟩

theorem mem_attributeText {c : Char} (hc : c ∉ markupChars) (a : String × String) :
    c ∈ (attributeText a).toList ↔ c ∈ a.1.toList ∨ c ∈ a.2.toList := by
  have hblank : c ∉ " ".toList := fun h => hc ((by decide : " ".toList ⊆ markupChars) h)
  have hequals : c ∉ "=\"".toList := fun h => hc ((by decide : "=\"".toList ⊆ markupChars) h)
  have hquote : c ∉ "\"".toList := fun h => hc ((by decide : "\"".toList ⊆ markupChars) h)
  obtain ⟨name, value⟩ := a
  simp only [attributeText, String.toList_append, List.mem_append, hblank, hequals, hquote,
    mem_escape hc, false_or, or_false]

theorem mem_tagText {c : Char} (hc : c ∉ markupChars) {left right : String}
    (hl : left.toList ⊆ markupChars) (hr : right.toList ⊆ markupChars) (tag : String)
    (attributes : List (String × String)) :
    c ∈ (tagText left tag attributes right).toList ↔ c ∈ startChars (tag, attributes) := by
  have hleft : c ∉ left.toList := fun h => hc (hl h)
  have hright : c ∉ right.toList := fun h => hc (hr h)
  simp only [State.toList_tagText, startChars, List.mem_append, List.mem_flatMap, hleft, hright,
    mem_attributeText hc, false_or, or_false]

theorem mem_line {c : Char} (hc : c ∉ '\n' :: markupChars) (level : Nat) (text : String) :
    c ∈ State.linesText [line level text] ↔ c ∈ text.toList := by
  have hblank : c ≠ ' ' := by
    rintro rfl
    exact hc (by decide)
  have hbreak : c ≠ '\n' := by
    rintro rfl
    exact hc (by decide)
  simp [State.linesText, line, String.toList_append, hblank, hbreak]

namespace Element

mutual

/-- The characters of an element's text, but for the markup, are those of its start tags. -/
theorem mem_lines {c : Char} (hc : c ∉ '\n' :: markupChars) : ∀ (e : Element) (level : Nat),
    c ∈ State.linesText (e.lines level) ↔ ∃ x ∈ e.starts, c ∈ startChars x
  | mk tag attributes none, level => by
    have hmarkup : c ∉ markupChars := fun h => hc (List.mem_cons_of_mem _ h)
    rw [lines, mem_line hc, mem_tagText hmarkup (by decide) (by decide)]
    simp [starts]
  | mk tag attributes (some content), level => by
    have hmarkup : c ∉ markupChars := fun h => hc (List.mem_cons_of_mem _ h)
    have htag : c ∈ startChars (tag, []) → c ∈ startChars (tag, attributes) := by
      simp only [startChars, List.flatMap_nil, List.append_nil, List.mem_append]
      exact .inl
    rw [lines, ← List.singleton_append, State.linesText_append, State.linesText_append,
      List.mem_append, List.mem_append, mem_line hc, mem_line hc,
      mem_tagText hmarkup (by decide) (by decide), mem_tagText hmarkup (by decide) (by decide),
      mem_linesOf hc content]
    simp only [starts, List.mem_cons, exists_eq_or_imp]
    constructor
    · rintro (h | h | h)
      · exact .inl h
      · exact .inr h
      · exact .inl (htag h)
    · rintro (h | h)
      · exact .inl h
      · exact .inr (.inl h)

theorem mem_linesOf {c : Char} (hc : c ∉ '\n' :: markupChars) :
    ∀ (es : List Element) (level : Nat),
      c ∈ State.linesText (linesOf level es) ↔ ∃ x ∈ startsOf es, c ∈ startChars x
  | [], level => by simp [linesOf, startsOf, State.linesText]
  | e :: rest, level => by
    rw [linesOf, State.linesText_append, List.mem_append, mem_lines hc e, mem_linesOf hc rest]
    simp only [startsOf, List.mem_append, or_and_right, exists_or]

end

end Element

/-- The characters that every text is made of, besides its start tags. -/
def fixedChars : List Char := '\n' :: (markupChars ++ declaration.toList)

theorem mem_documentText {e : Element} {c : Char} (hc : c ∉ fixedChars) :
    c ∈ (documentText e).toList ↔ ∃ x ∈ e.starts, c ∈ startChars x := by
  have hlines : c ∉ '\n' :: markupChars := fun h =>
    hc (List.cons_subset_cons _ (List.subset_append_left _ _) h)
  have hdeclaration : c ∉ declaration.toList ++ ['\n'] := by
    intro h
    rcases List.mem_append.1 h with h | h
    · exact hc (List.mem_cons_of_mem _ (List.mem_append_right _ h))
    · exact hc (List.mem_singleton.1 h ▸ List.mem_cons_self)
  have htext : (documentText e).toList =
      (declaration.toList ++ ['\n']) ++ State.linesText (e.lines 0) := by
    simp [documentText, State.linesText, String.toList_join, String.toList_append,
      List.flatMap_map]
  rw [htext, List.mem_append, Element.mem_lines hlines e]
  exact or_iff_right hdeclaration

theorem unifyBreaks_eq {cs : List Char} (h : '\r' ∉ cs) : unifyBreaks cs = cs := by
  fun_induction unifyBreaks cs with
  | case1 rest ih => exact absurd List.mem_cons_self h
  | case2 rest _ ih => exact absurd List.mem_cons_self h
  | case3 c rest _ _ ih => rw [ih fun hm => h (List.mem_cons_of_mem _ hm)]
  | case4 => rfl

/-- Every character of an element's start tags is allowed and no tab or line break. -/
def Element.Kept (e : Element) : Prop := ∀ x ∈ e.starts, ∀ c ∈ startChars x, isKept c = true

theorem isKept_of {c : Char} (h : isAllowed c = true) (hc : c = ' ' ∨ isSpace c = false) :
    isKept c = true := by
  rw [isKept, h, Bool.true_and, Bool.or_eq_true, beq_iff_eq, Bool.not_eq_true']
  exact hc

theorem isAllowed_documentText_iff {e : Element} :
    (documentText e).toList.all isAllowed = true ↔
      ∀ x ∈ e.starts, ∀ c ∈ startChars x, isAllowed c = true := by
  have hfixed : ∀ c ∈ fixedChars, isAllowed c = true := List.all_eq_true.1 (by decide)
  rw [List.all_eq_true]
  constructor
  · intro h x hx c hc
    -- a character of markup says nothing about where it stands, but it is allowed anyway
    by_cases hm : c ∈ fixedChars
    · exact hfixed c hm
    · exact h c ((mem_documentText hm).2 ⟨x, hx, hc⟩)
  · intro h c hc
    by_cases hm : c ∈ fixedChars
    · exact hfixed c hm
    · obtain ⟨x, hx, hc⟩ := (mem_documentText hm).1 hc
      exact h x hx c hc

theorem kept_of_report? {e : Element} (h : e.Plain) (hr : report? (documentText e) = some e) :
    e.Kept ∧ e.wellFormed [] = true := by
  unfold report? at hr
  split at hr
  · rename_i hallowed
    obtain ⟨hdecoded, hwf⟩ := Option.filter_eq_some_iff.1 hr
    obtain ⟨raw, _, hdecoded⟩ := Option.bind_eq_some_iff.1 hdecoded
    refine ⟨fun x hx c hc => ?_, hwf⟩
    refine isKept_of (isAllowed_documentText_iff.1 hallowed x hx c hc) ?_
    -- plain names have no blanks, and a value with one is not reported as it stands
    obtain ⟨htag, hnames⟩ := h x hx
    rcases List.mem_append.1 hc with hc | hc
    · exact .inr (plainChar_of (htag.plain c hc)).notSpace
    · obtain ⟨a, ha, hc⟩ := List.mem_flatMap.1 hc
      rcases List.mem_append.1 hc with hc | hc
      · exact .inr (plainChar_of ((hnames a ha).plain c hc)).notSpace
      · obtain ⟨w, hw⟩ := Element.decoded_of_mapValues? raw e hdecoded x hx a.2
          (List.mem_map.2 ⟨a, ha, rfl⟩)
        exact notBreak_of_reportValue? hw c hc
  · cases hr

theorem report?_of_kept {e : Element} (h : e.Plain) (hk : e.Kept)
    (hwf : e.wellFormed [] = true) : report? (documentText e) = some e := by
  have hallowed : (documentText e).toList.all isAllowed = true :=
    isAllowed_documentText_iff.2 fun x hx c hc => (Bool.and_eq_true_iff.1 (hk x hx c hc)).1
  have hbreak : '\r' ∉ (documentText e).toList := by
    intro hm
    obtain ⟨x, hx, hc⟩ := (mem_documentText (by decide)).1 hm
    exact absurd (hk x hx _ hc) (by decide)
  have hdecoded : e.escaped.mapValues? reportValue? = some e := by
    refine Element.mapValues?_escaped e fun x hx v hv => reportValue?_escape fun c hc => ?_
    obtain ⟨a, ha, rfl⟩ := List.mem_map.1 hv
    refine hk x hx c (List.mem_append_right _ (List.mem_flatMap.2 ⟨a, ha, ?_⟩))
    exact List.mem_append_right _ hc
  rw [report?, if_pos hallowed, unifyBreaks_eq hbreak, String.ofList_toList,
    parse?_documentText h, Option.bind_some, hdecoded]
  exact Option.filter_eq_some_iff.2 ⟨rfl, hwf⟩

/-- **When an element is reported as it was written.** -/
theorem report?_documentText_iff {e : Element} (h : e.Plain) :
    report? (documentText e) = some e ↔ e.Kept ∧ e.wellFormed [] = true :=
  ⟨kept_of_report? h, fun hk => report?_of_kept h hk.1 hk.2⟩

end Xml
end XsdSynthesis
