import XsdSynthesis.Proofs.Success

/-!
# XsdSynthesis.Proofs.Heading

The heading of a document: its attributes and its namespace table. Every attribute that the schema
declares under a known name is in the document with the value that its text stands for, and every
declared namespace stands in the table, in the order of the declarations.
-/

namespace XsdSynthesis

open Xsd

def attributeNames : List String :=
  ["AttributeFormDefault", "ElementFormDefault", "BlockDefault", "FinalDefault"]

/-- The value that a text stands for, as an attribute of the given name. -/
def attributeValue? (name value : String) : Option (Form ⊕ List Derivation) :=
  match name with
  | "AttributeFormDefault" | "ElementFormDefault" => (Form.ofText? value).map .inl
  | "BlockDefault" | "FinalDefault" => (Derivation.setOfText? value).map .inr
  | _ => none

/-- The value of the attribute that a schema may declare under the given name. -/
def Xsd.Document.attribute? (d : Document) (name : String) : Option (Form ⊕ List Derivation) :=
  match name with
  | "AttributeFormDefault" => d.attributeForm.map .inl
  | "ElementFormDefault" => d.elementForm.map .inl
  | "BlockDefault" => d.blockDefault.map .inr
  | "FinalDefault" => d.finalDefault.map .inr
  | _ => none

namespace Conversion

variable {source : Source} {l l' : Ledger} {name value : String}

theorem form?_ok {place : Pointer} {form : Form} (h : form? place value = .ok form) :
    Form.ofText? value = some form := by
  unfold form? at h
  split at h
  · rename_i f hf
    cases h
    exact hf
  · cases h

theorem derivations?_ok {place : Pointer} {allowed : Derivation → Bool} {set : List Derivation}
    (h : derivations? place allowed value = .ok set) : Derivation.setOfText? value = some set := by
  unfold derivations? at h
  split at h
  · rename_i s hs
    cases h
    exact (Option.filter_eq_some_iff.1 hs).1
  · cases h

/-- The document before and after an attribute of the given name was applied. -/
structure Applies (source : Source) (d d' : Document) (name value : String) : Prop where
  items : d'.items = d.items
  strict : source.options.strictAttributes = true → name ∈ attributeNames
  known : name ∈ attributeNames → (attributeValue? name value).isSome = true
  value : d'.attribute? name = attributeValue? name value
  other : ∀ n, n ≠ name → d'.attribute? n = d.attribute? n

theorem applies_known {d d' : Document} {v : Form ⊕ List Derivation} (hitems : d'.items = d.items)
    (hname : name ∈ attributeNames) (hv : attributeValue? name value = some v)
    (hset : d'.attribute? name = some v)
    (hother : ∀ n, n ≠ name → d'.attribute? n = d.attribute? n) :
    Applies source d d' name value := by
  refine ⟨hitems, fun _ => hname, fun _ => ?_, ?_, hother⟩
  · rw [hv]
    rfl
  · rw [hset, hv]

theorem notMem_attributeNames (h₁ : name ≠ "AttributeFormDefault")
    (h₂ : name ≠ "ElementFormDefault") (h₃ : name ≠ "BlockDefault") (h₄ : name ≠ "FinalDefault") :
    name ∉ attributeNames := by
  simp only [attributeNames, List.mem_cons, List.not_mem_nil, or_false, not_or]
  exact ⟨h₁, h₂, h₃, h₄⟩

theorem attributeValue?_of_notMem (h : name ∉ attributeNames) : attributeValue? name value = none := by
  unfold attributeValue?
  split <;> first | rfl | exact absurd (by decide) h

theorem attribute?_of_notMem (h : name ∉ attributeNames) (d : Document) :
    d.attribute? name = none := by
  unfold Document.attribute?
  split <;> first | rfl | exact absurd (by decide) h

theorem applies_unknown {d : Document} (hstrict : ¬ source.options.strictAttributes = true)
    (hn : name ∉ attributeNames) : Applies source d d name value := by
  refine ⟨rfl, fun hs => absurd hs hstrict, fun hk => absurd hk hn, ?_, fun _ _ => rfl⟩
  rw [attribute?_of_notMem hn, attributeValue?_of_notMem hn]

theorem applyAttribute_ok (h : applyAttribute source name value l = (.ok (), l')) :
    Applies source l.document l'.document name value := by
  unfold applyAttribute at h
  split at h
  · obtain ⟨form, hf, h⟩ := bind_lift_ok.1 h
    have hv := form?_ok hf
    cases h
    refine applies_known (v := .inl form) rfl (by decide) ?_ rfl ?_
    · simp [attributeValue?, hv]
    · intro n hn
      unfold Document.attribute?
      split <;> first | rfl | exact absurd rfl hn
  · obtain ⟨form, hf, h⟩ := bind_lift_ok.1 h
    have hv := form?_ok hf
    cases h
    refine applies_known (v := .inl form) rfl (by decide) ?_ rfl ?_
    · simp [attributeValue?, hv]
    · intro n hn
      unfold Document.attribute?
      split <;> first | rfl | exact absurd rfl hn
  · obtain ⟨set, hf, h⟩ := bind_lift_ok.1 h
    have hv := derivations?_ok hf
    cases h
    refine applies_known (v := .inr set) rfl (by decide) ?_ rfl ?_
    · simp [attributeValue?, hv]
    · intro n hn
      unfold Document.attribute?
      split <;> first | rfl | exact absurd rfl hn
  · obtain ⟨set, hf, h⟩ := bind_lift_ok.1 h
    have hv := derivations?_ok hf
    cases h
    refine applies_known (v := .inr set) rfl (by decide) ?_ rfl ?_
    · simp [attributeValue?, hv]
    · intro n hn
      unfold Document.attribute?
      split <;> first | rfl | exact absurd rfl hn
  · rename_i h₁ h₂ h₃ h₄
    have hn := notMem_attributeNames h₁ h₂ h₃ h₄
    split at h
    · exact absurd h stop_ok
    · rename_i hstrict
      cases h
      exact applies_unknown hstrict hn

theorem applyEach_items {attributes : List (String × String)}
    (h : applyEach source attributes l = (.ok (), l')) :
    l'.document.items = l.document.items := by
  induction attributes generalizing l with
  | nil =>
    obtain ⟨_, rfl⟩ := pure_ok.1 h
    rfl
  | cons a rest ih =>
    simp only [applyEach] at h
    obtain ⟨_, l₁, ha, h⟩ := bind_ok.1 h
    exact (ih h).trans (applyAttribute_ok ha).items

/-- Attributes under different names all end up in the document. -/
theorem applyEach_ok {attributes : List (String × String)}
    (hn : (attributes.map Prod.fst).Nodup) (h : applyEach source attributes l = (.ok (), l')) :
    (∀ a ∈ attributes, a.1 ∈ attributeNames → ∃ v, attributeValue? a.1 a.2 = some v ∧
        l'.document.attribute? a.1 = some v) ∧
      ∀ n ∉ attributes.map Prod.fst, l'.document.attribute? n = l.document.attribute? n := by
  induction attributes generalizing l with
  | nil =>
    obtain ⟨_, rfl⟩ := pure_ok.1 h
    exact ⟨by simp, fun _ _ => rfl⟩
  | cons a rest ih =>
    obtain ⟨name, value⟩ := a
    simp only [applyEach] at h
    obtain ⟨_, l₁, ha, h⟩ := bind_ok.1 h
    have happ := applyAttribute_ok ha
    rw [List.map_cons, List.nodup_cons] at hn
    obtain ⟨hrest, hother⟩ := ih hn.2 h
    refine ⟨List.forall_mem_cons.2 ⟨fun hk => ?_, hrest⟩, fun n hnot => ?_⟩
    · obtain ⟨v, hv⟩ := Option.isSome_iff_exists.1 (happ.known hk)
      exact ⟨v, hv, by rw [hother name hn.1, happ.value, hv]⟩
    · simp only [List.map_cons, List.mem_cons, not_or] at hnot
      rw [hother n hnot.2, happ.other n hnot.1]

theorem applyEach_strict {attributes : List (String × String)}
    (hs : source.options.strictAttributes = true)
    (h : applyEach source attributes l = (.ok (), l')) :
    ∀ a ∈ attributes, a.1 ∈ attributeNames := by
  induction attributes generalizing l with
  | nil => simp
  | cons a rest ih =>
    simp only [applyEach] at h
    obtain ⟨_, l₁, ha, h⟩ := bind_ok.1 h
    exact List.forall_mem_cons.2 ⟨(applyAttribute_ok ha).strict hs, ih h⟩

theorem addBuiltIn_extends {table table' : List (String × String)} {binding : String × String}
    (h : addBuiltIn table binding = .ok table') : table <+: table' := by
  obtain ⟨boundPrefix, uri⟩ := binding
  by_cases hu : table.any (·.2 == uri) = true
  · rw [addBuiltIn, if_pos hu] at h
    cases h
    exact List.prefix_refl _
  · rw [addBuiltIn, if_neg hu] at h
    cases hl : table.lookup boundPrefix with
    | some bound =>
      rw [hl] at h
      cases h
    | none =>
      rw [hl] at h
      cases h
      exact List.prefix_append _ _

theorem namespaceTable_extends {declared table : List (String × String)}
    (h : namespaceTable declared = .ok table) : declared <+: table := by
  obtain ⟨_, _, h⟩ := Checks.bind_ok.1 h
  simp only [builtInNamespaces, List.foldlM_cons, List.foldlM_nil] at h
  obtain ⟨t₁, h₁, h⟩ := Checks.bind_ok.1 h
  obtain ⟨t₂, h₂, h⟩ := Checks.bind_ok.1 h
  cases Checks.pure_ok.1 h
  exact (addBuiltIn_extends h₁).trans (addBuiltIn_extends h₂)

theorem applyNamespaces_ok (h : applyNamespaces source l = (.ok (), l')) :
    declaredNamespaces source.schema <+: l'.document.namespaces ∧
      l'.document.items = l.document.items ∧
        ∀ n, l'.document.attribute? n = l.document.attribute? n := by
  obtain ⟨table, htable, h⟩ := bind_lift_ok.1 h
  rw [bind_emit_ok] at h
  cases h
  exact ⟨namespaceTable_extends htable, rfl, fun _ => rfl⟩

end Conversion
end XsdSynthesis
