import XsdSynthesis.Proofs.NamespaceTable
import XsdSynthesis.Proofs.Rendering

/-!
# XsdSynthesis.Proofs.XmlNames

Which names are names of XML. `isName` goes by the letters and numbers of Unicode, XML by ranges of
code points of its own; the two part at a few letters and numbers that XML leaves out (`strays`). An
accepted name is a name without colon exactly if it holds none of them, and a conversion accepts
every name that it uses (`accepted_name_iff`).
-/

namespace XsdSynthesis

open Conversion Xsd

namespace Xml

/-- The letters and numbers that no name of XML holds. -/
def strays : Text.Ranges :=
  [(0xAA, 0xAA), (0xB2, 0xB3), (0xB5, 0xB5), (0xB9, 0xBA), (0xBC, 0xBE), (0x2460, 0x249B),
    (0x24EA, 0x24FF), (0x2776, 0x2793)]

def isStray (c : Char) : Bool := inRanges strays c

/-! ## Ranges -/

/-- Whether one range lies in the other. -/
def within (r s : Nat × Nat) : Bool := s.1 ≤ r.1 && r.2 ≤ s.2

/-- Whether two ranges share no code point. -/
def apart (r s : Nat × Nat) : Bool := r.2 < s.1 || s.2 < r.1

def nameRanges : List (Nat × Nat) := nameStartRanges ++ nameMoreRanges

/-- Whether a range lies in one of the given ranges and apart from the strays, or among the strays
and apart from all names. -/
def isParted (ranges : List (Nat × Nat)) (r : Nat × Nat) : Bool :=
  ranges.any (within r) && strays.all (apart r) ||
    strays.any (within r) && nameRanges.all (apart r)

variable {ranges : List (Nat × Nat)} {r : Nat × Nat} {c : Char}

theorem inRanges_of_within (hc : r.1 ≤ c.toNat ∧ c.toNat ≤ r.2)
    (h : ranges.any (within r) = true) : inRanges ranges c = true := by
  obtain ⟨s, hs, hin⟩ := List.any_eq_true.1 h
  refine List.any_eq_true.2 ⟨s, hs, ?_⟩
  simp only [within, Bool.and_eq_true, decide_eq_true_eq] at hin ⊢
  omega

theorem inRanges_of_apart (hc : r.1 ≤ c.toNat ∧ c.toNat ≤ r.2)
    (h : ranges.all (apart r) = true) : inRanges ranges c = false := by
  refine List.any_eq_false.2 fun s hs hin => ?_
  have hout := List.all_eq_true.1 h s hs
  simp only [apart, Bool.or_eq_true, Bool.and_eq_true, decide_eq_true_eq] at hin hout
  omega

/-- A character of a set whose ranges are parted is in the given ranges, or a stray and in no
name. -/
theorem stray_or_of_isParted {table : Text.Ranges} (h : table.contains c.toNat = true)
    (hall : table.all (isParted ranges) = true) :
    isStray c = false ∧ inRanges ranges c = true ∨
      isStray c = true ∧ inRanges nameRanges c = false := by
  obtain ⟨r, hr, hc⟩ := Text.Ranges.exists_of_contains h
  have hparted := List.all_eq_true.1 hall r hr
  rw [isParted, Bool.or_eq_true, Bool.and_eq_true, Bool.and_eq_true] at hparted
  exact hparted.imp (fun h => ⟨inRanges_of_apart hc h.2, inRanges_of_within hc h.1⟩)
    fun h => ⟨inRanges_of_within hc h.1, inRanges_of_apart hc h.2⟩

/-! ## Characters and names -/

theorem stray_or_of_isNameStart (h : isNameStart c = true) :
    isStray c = false ∧ inRanges nameStartRanges c = true ∨
      isStray c = true ∧ inRanges nameRanges c = false := by
  have hletters : Text.letters.all (isParted nameStartRanges) = true := by decide +kernel
  rw [isNameStart, Bool.or_eq_true, beq_iff_eq] at h
  rcases h with h | rfl
  · exact stray_or_of_isParted h hletters
  · exact .inl (by decide)

theorem inRanges_nameRanges (c : Char) :
    inRanges nameRanges c = (inRanges nameStartRanges c || inRanges nameMoreRanges c) :=
  List.any_append

/-- A name may begin with a character that an accepted name begins with, unless it is a stray. -/
theorem inRanges_nameStart (h : isNameStart c = true) :
    inRanges nameStartRanges c = true ↔ isStray c = false := by
  rcases stray_or_of_isNameStart h with ⟨hstray, hin⟩ | ⟨hstray, hout⟩
  · simp [hstray, hin]
  · rw [inRanges_nameRanges, Bool.or_eq_false_iff] at hout
    simp [hstray, hout.1]

/-- A name may hold a character that an accepted name holds, unless it is a stray. -/
theorem inRanges_nameChar (h : isNameChar c = true) :
    inRanges nameRanges c = true ↔ isStray c = false := by
  have hnumbers : Text.numbers.all (isParted nameRanges) = true := by decide +kernel
  have hcases : isStray c = false ∧ inRanges nameRanges c = true ∨
      isStray c = true ∧ inRanges nameRanges c = false := by
    simp only [isNameChar, Bool.or_eq_true, beq_iff_eq] at h
    rcases h with ((h | h) | rfl) | rfl
    · refine (stray_or_of_isNameStart h).imp_left fun hstart => ⟨hstart.1, ?_⟩
      rw [inRanges_nameRanges, hstart.2, Bool.true_or]
    · exact stray_or_of_isParted h hnumbers
    · exact .inl (by decide)
    · exact .inl (by decide)
  rcases hcases with ⟨hstray, hin⟩ | ⟨hstray, hout⟩
  · simp [hstray, hin]
  · simp [hstray, hout]

/-- An accepted name is a name without colon exactly if it holds no stray. -/
theorem isNCName_iff_of_isName {s : String} (h : isName s = true) :
    isNCName s = true ↔ ∀ c ∈ s.toList, isStray c = false := by
  have hchars : ∀ c ∈ s.toList, isNameChar c = true := fun c hc => isNameChar_of_mem h hc
  unfold isName isNameList at h
  unfold isNCName
  cases hs : s.toList with
  | nil =>
    rw [hs] at h
    cases h
  | cons c rest =>
    rw [hs] at h hchars
    have hstart := (Bool.and_eq_true_iff.1 h).1
    rw [Bool.and_eq_true, inRanges_nameStart hstart, List.all_eq_true, List.forall_mem_cons]
    refine and_congr_right fun _ => forall₂_congr fun c hc => ?_
    exact inRanges_nameChar (hchars c (List.mem_cons_of_mem _ hc))

end Xml

/-! ## Conversions -/

namespace Conversion

/-- The names that a conversion uses: that of the message, those of definitions and of properties
of complex subschemas, and declared prefixes. -/
inductive Uses (source : Source) : String → Prop where
  | message : Uses source source.classifier.messageName
  | definition {c : Container} {name : String} {t : Schema} :
      (name, t) ∈ source.schema.definitions c → Uses source name
  | property {p : Pointer} {t u : Schema} {name : String} : Reached source p t →
      (source.classifier.shapes p).isComplex = true → (name, u) ∈ t.properties →
      Uses source name
  | declaredPrefix {p uri : String} : (p, uri) ∈ declaredNamespaces source.schema → p ≠ "" →
      Uses source p

variable {source : Source} {d : Document} {p : Pointer} {t u : Schema} {name : String}

theorem BecomesMembers.isName {ns : Option String} {depth : Nat} {required : List String}
    {entries : List (String × Schema)} {members : Members}
    (h : BecomesMembers source ns p depth required entries members) (hm : (name, u) ∈ entries) :
    Xml.isName name = true := by
  obtain ⟨parts, rfl, hnames, _⟩ := h
  obtain ⟨part, hpart, heq⟩ := List.mem_map.1 hm
  cases heq
  exact hnames part hpart

theorem BecomesDocument.isName_property (hd : BecomesDocument source d) (h : Reached source p t)
    (hc : (source.classifier.shapes p).isComplex = true) (hm : (name, u) ∈ t.properties) :
    Xml.isName name = true := by
  rcases h.shown hd with ⟨rfl, rfl, hinline⟩ | ⟨depth, ⟨node, flag⟩, hbecomes, _⟩
  · obtain ⟨e, _, hroot⟩ := hd.rootElement
    cases hroot with
    | complex _ _ _ hmembers => exact hmembers.isName hm
    | simple _ _ ho _ =>
      rw [ho.notComplex] at hc
      cases hc
    | wrapped hwrapped _ _ _ _ =>
      rw [hinline] at hwrapped
      cases hwrapped
  · cases node with
    | complex type =>
      obtain ⟨_, _, _, members, hmembers, _⟩ := hbecomes.of_complex rfl
      exact hmembers.isName hm
    | simple typeName =>
      rw [(hbecomes.of_simple rfl).1.notComplex] at hc
      cases hc

/-- Every name that a successful run uses was accepted. -/
theorem Uses.isName {l l' : Ledger} (h : Uses source name) (hl : l.document.items = [])
    (hrun : run source l = (.ok (), l')) : Xml.isName name = true := by
  have hd := run_ok hl hrun
  cases h with
  | message => exact run_isName hrun
  | definition hm => exact hd.isName_definition hm
  | property hreached hc hm => exact hd.isName_property hreached hc hm
  | declaredPrefix hm hne =>
    obtain ⟨_, _, _, htable, _⟩ := run_heading hrun
    exact ((namespaceTable_ok.1 htable).1.named _ (List.mem_map_of_mem hm)).resolve_left hne

end Conversion

/-- **An accepted name is a name of XML exactly if it holds no stray**, and every name that a
successful conversion uses is an accepted one. -/
theorem accepted_name_iff (name : String) :
    (Xml.isName name = true →
      (Xml.isNCName name = true ↔ ∀ c ∈ name.toList, Xml.isStray c = false)) ∧
      ∀ {j : Json} {classifier : Classifier} {options : Options} {d : Document},
        convertJson j classifier options = .ok d →
          ∃ s, Schema.ofJson? j = .ok s ∧ (Uses ⟨s, classifier, options⟩ name →
            Xml.isName name = true ∧
              (Xml.isNCName name = true ↔ ∀ c ∈ name.toList, Xml.isStray c = false)) := by
  refine ⟨Xml.isNCName_iff_of_isName, fun {j classifier options d} h => ?_⟩
  obtain ⟨s, hs, l, l', hl, hrun, _⟩ := convertJson_run h
  refine ⟨s, hs, fun hname => ?_⟩
  have hitems : l.document.items = [] := by rw [hl]
  have haccepted := hname.isName hitems hrun
  exact ⟨haccepted, Xml.isNCName_iff_of_isName haccepted⟩

/-- A definition and a property of it, with letters beyond ASCII. -/
def namedSchema : Json :=
  .obj [("$defs", .obj [("Bestillingsnøkkel", .obj [("properties",
    .obj [("år-2", .obj [("type", .str "integer")])])])]),
    ("allOf", .arr [.obj [("$ref", .str "#/$defs/Bestillingsnøkkel")]])]

def namedShapes : Classifier :=
  ⟨"Møte", false, fun p => if p = ⟨["$defs", "Bestillingsnøkkel"]⟩ then .ofList [.complexType]
    else .ofList [.simpleType]⟩

theorem accepted_name_iff_named :
    ∃ d s, convertJson namedSchema namedShapes {} = .ok d ∧ Schema.ofJson? namedSchema = .ok s ∧
      (Xml.isName "Møte" = true ∧ Xml.isNCName "Møte" = true) ∧
        Xml.isName "år-2" = true ∧ Xml.isNCName "år-2" = true := by
  have hfree : ∀ {name : String}, name.toList.any Xml.isStray = false →
      ∀ c ∈ name.toList, Xml.isStray c = false :=
    fun h c hc => Bool.eq_false_iff.2 (List.any_eq_false.1 h c hc)
  have hrun : (convertJson namedSchema namedShapes {}).toOption.any (fun _ => true) = true := by
    decide +kernel
  obtain ⟨d, hd, _⟩ := Checks.exists_of_any hrun
  obtain ⟨s, hs, huses⟩ := (accepted_name_iff "Møte").2 hd
  obtain ⟨haccepted, hiff⟩ := huses .message
  have hname : Xml.isName "år-2" = true := by decide +kernel
  exact ⟨d, s, hd, hs, ⟨haccepted, hiff.2 (hfree (by decide))⟩, hname,
    ((accepted_name_iff "år-2").1 hname).2 (hfree (by decide))⟩

/-- A root with a type and nothing else. -/
def bareSchema : Json := .obj [("type", .str "string")]

/-- The feminine ordinal indicator is a letter, so it is accepted and becomes the name of an
element, but it is no name of XML. -/
theorem ordinal_accepted :
    Xml.isName "\u00AA" = true ∧ Xml.isNCName "\u00AA" = false ∧
      ∃ d, convertJson bareSchema ⟨"\u00AA", true, fun _ => .ofList [.simpleType]⟩ {} = .ok d ∧
        d.rootElement?.map Element.name = some "\u00AA" := by
  have hrun : (convertJson bareSchema ⟨"\u00AA", true, fun _ => .ofList [.simpleType]⟩
      {}).toOption.any (fun d => d.rootElement?.map Element.name == some "\u00AA") = true := by
    decide +kernel
  obtain ⟨d, hd, hname⟩ := Checks.exists_of_any hrun
  exact ⟨by decide +kernel, by decide, d, hd, beq_iff_eq.1 hname⟩

end XsdSynthesis
