import XsdSynthesis.Proofs.Simulation

/-!
# XsdSynthesis.Proofs.Influence

What a classifier influences. Of two classifiers that answer alike wherever a subschema stands, one
conversion follows the other (`traced_retells`). Hence nothing but the answers about subschemas
decides a result, and the message name decides only how the root element is called
(`classifier_influence`).
-/

namespace XsdSynthesis

open Xsd Conversion

/-! ## Conversions under two classifiers -/

section

variable {s : Schema} {rename : String → String} {k k' : Classifier}

/-- Under such a classifier the same happens, but for the name. -/
theorem traced_retells (h : Retells ⟨[], rename, fun _ => False⟩ s k k') (o : Options) :
    traced ⟨s, k', o⟩ = ((traced ⟨s, k, o⟩).1.map (Document.renamed rename),
      (traced ⟨s, k, o⟩).2.map (Event.renamed rename)) := by
  have hrun := (follows_run h (relaxes_refl _ o)).uncut
    { log := [.converting k.messageName k.inlineRoot] }
  have hbegun : ({ log := [.converting k.messageName k.inlineRoot] } : Ledger).retold
      ⟨[], rename, fun _ => False⟩ = { log := [.converting k'.messageName k'.inlineRoot] } := by
    simp [Ledger.retold, Document.renamed, Event.renamed, h.messageName, h.inlineRoot]
  rw [hbegun] at hrun
  simp only [traced, Converter.convert, Converter.stage, if_true, hrun]
  rcases run ⟨s, k, o⟩ _ with ⟨r, m⟩
  cases r <;> simp [Except.map, Ledger.retold, Ledger.advance, Ledger.emit, Event.renamed]

/-- **A classifier influences the result only where it should.** Let two classifiers agree on
whether the root is inline and on the shapes of every subschema that a definition or the root
declares, at any depth, and on those of the root itself if it is inline. What they say of other
pointers does not matter: under the same message name both give the same result, a document or an
error. Under two message names that are names of elements the results differ in the name of the root
element only. -/
theorem classifier_influence (s : Schema) (k k' : Classifier) (o : Options)
    (hinline : k'.inlineRoot = k.inlineRoot)
    (hshapes : ∀ depth p t, LiesAt s depth p t → (p = .root → k.inlineRoot = true) →
      k'.shapes p = k.shapes p) :
    (k'.messageName = k.messageName → convert ⟨s, k', o⟩ = convert ⟨s, k, o⟩) ∧
    (Xml.isName k.messageName = true → Xml.isName k'.messageName = true →
      convert ⟨s, k', o⟩ =
        (convert ⟨s, k, o⟩).map (Document.renamed fun _ => k'.messageName)) := by
  refine ⟨fun hname => ?_, fun hname hname' => ?_⟩
  · have h : Retells ⟨[], id, fun _ => False⟩ s k k' := ⟨hinline, hshapes, hname, by rw [hname]⟩
    have hsame := congrArg Prod.fst (traced_retells h o)
    rw [show Document.renamed id = id from funext Document.renamed_id] at hsame
    rw [convert, hsame, convert]
    cases (traced ⟨s, k, o⟩).1 <;> rfl
  · have hcheck : checkName .root k'.messageName = checkName .root k.messageName := by
      rw [checkName, checkName, if_pos hname', if_pos hname]
    exact congrArg Prod.fst (traced_retells ⟨hinline, hshapes, rfl, hcheck⟩ o)

end

/-- Answers as `complexRoot` does wherever a subschema can stand, and nothing elsewhere: the place of
a subschema has an even number of segments. -/
def sparseRoot (name : String) : Classifier :=
  ⟨name, true, fun p => if p.segments.length % 2 = 0 then complexRoot.shapes p else .empty⟩

theorem shapes_sparseRoot {s t : Schema} {depth : Nat} {p : Pointer} (h : LiesAt s depth p t)
    (name : String) : (sparseRoot name).shapes p = complexRoot.shapes p :=
  if_pos (by rw [h.length]; omega)

theorem classifier_influence_sparseRoot :
    ∃ s d, Schema.ofJson? attributeSchema = .ok s ∧ convert ⟨s, complexRoot, {}⟩ = .ok d ∧
      convert ⟨s, sparseRoot "Root", {}⟩ = .ok d ∧
      convert ⟨s, sparseRoot "Other", {}⟩ = .ok (d.renamed fun _ => "Other") := by
  have hrun : (do convert ⟨← Schema.ofJson? attributeSchema, complexRoot, {}⟩).toOption.any
      (fun _ => true) = true := by decide +kernel
  obtain ⟨d, hd, _⟩ := Checks.exists_of_any hrun
  obtain ⟨s, hs, hd⟩ := Checks.bind_ok.1 hd
  have hroot := (classifier_influence s complexRoot (sparseRoot "Root") {} rfl
    (fun _ _ _ ht _ => shapes_sparseRoot ht _)).1 rfl
  have hother := (classifier_influence s complexRoot (sparseRoot "Other") {} rfl
    (fun _ _ _ ht _ => shapes_sparseRoot ht _)).2 (by decide +kernel) (by decide +kernel)
  refine ⟨s, d, hs, hd, hroot.trans hd, ?_⟩
  rw [hother, hd]
  rfl

end XsdSynthesis
