import XsdSynthesis.Proofs.Simulation
import XsdSynthesis.Proofs.Trace

/-!
# XsdSynthesis.Proofs.Budget

Options only restrict. As long as neither limit stops the stricter of two conversions of one schema,
the looser one does the same (`Agrees`), so the stricter one either ends as the looser one does or is
`Cut` short. It is one conversion that follows another (`agrees_run`); that a place which is too deep
has just the segments of the first depth beyond the limit is known from the visits of the run. What
succeeds under some options succeeds alike under looser ones (`options_restrict`).
-/

namespace XsdSynthesis

open Xsd Conversion

/-- The second options allow whatever the first ones do. -/
structure Options.Loosens (o o' : Options) : Prop where
  depth : o.maxDepth ≤ o'.maxDepth
  strict : o'.strictAttributes = true → o.strictAttributes = true

/-- A problem that only the first options bring about: a place deeper than they allow, or an unknown
attribute that the second ones let pass. -/
inductive Cut (o o' : Options) : Problem → Prop where
  | depth (p : Pointer) : Cut o o' (.tooDeep p o.maxDepth)
  | strict {name : String} : o.strictAttributes = true → o'.strictAttributes = false →
      name ∉ attributeNames →
      Cut o o' (.fault (Pointer.root.append [Spelling.documentAttributes, name])
        (.unknownAttribute name))

namespace Conversion

variable {α : Type} {o o' : Options}

/-- Two steps do the same, unless the first one is cut short. -/
def Agrees (o o' : Options) (x x' : Conversion α) : Prop :=
  ∀ l, x l = x' l ∨ ∃ e l', x l = (.error e, l') ∧ Cut o o' e

theorem relaxes_of_loosens (ho : o.Loosens o') : Relaxes ⟨[], id, Cut o o'⟩ o o' := by
  refine ⟨ho.depth, .inr .depth, ?_⟩
  cases hs' : o'.strictAttributes with
  | true => exact .inl (ho.strict hs').symm
  | false =>
    cases hs : o.strictAttributes with
    | true => exact .inr ⟨rfl, fun _ hname => .strict hs hs' hname⟩
    | false => exact .inl rfl

/-- **A whole run agrees**, unless the first options cut it short: told again with nothing before and
under the same name, it is the same run. -/
theorem agrees_run (ho : o.Loosens o') (s : Schema) (classifier : Classifier) :
    Agrees o o' (run ⟨s, classifier, o⟩) (run ⟨s, classifier, o'⟩) := by
  intro l
  rcases follows_run (retells_refl [] (Cut o o') s classifier) (relaxes_of_loosens ho) l with hsame | hcut
  · rw [Ledger.retold_id, Ledger.retold_id] at hsame
    refine .inl ?_
    rw [hsame]
    rcases run ⟨s, classifier, o⟩ l with ⟨r, m⟩
    cases r <;> rfl
  · exact .inr hcut

end Conversion

/-! ## Conversions under two options -/

section

variable {j : Json} {classifier : Classifier} {o o' : Options}

theorem convertJson_agrees (ho : o.Loosens o') (j : Json) (classifier : Classifier) :
    convertJson j classifier o = convertJson j classifier o' ∨
      ∃ e, convertJson j classifier o = .error e ∧ Cut o o' e := by
  cases hs : Schema.ofJson? j with
  | error e =>
    unfold convertJson tracedJson
    rw [hs]
    exact .inl rfl
  | ok s =>
    rw [convertJson_eq hs, convertJson_eq hs]
    rcases agrees_run ho s classifier (begun classifier) with hsame | ⟨e, l', hstop, hcut⟩
    · rw [hsame]
      exact .inl rfl
    · rw [hstop]
      exact .inr ⟨e, rfl, hcut⟩

/-- **Options only restrict.** Let the second options allow at least the depth of the first, and be
strict about attributes only if the first are. Then what converts under the first converts to the
same document under the second. Where the outcomes differ, the first options are to blame: either a
place is too deep for them, and has just the segments of the first depth beyond the limit, or only
they are strict, and an attribute of the document has an unknown name. If no subschema lies deeper
than the first options allow, no place is too deep for them. -/
theorem options_restrict (o o' : Options) (hm : o.maxDepth ≤ o'.maxDepth)
    (hs : o'.strictAttributes = true → o.strictAttributes = true) (j : Json)
    (classifier : Classifier) :
    (∀ d, convertJson j classifier o = .ok d → convertJson j classifier o' = .ok d) ∧
    (convertJson j classifier o ≠ convertJson j classifier o' →
      (∃ p, convertJson j classifier o = .error (.tooDeep p o.maxDepth) ∧
        p.segments.length = 2 * (o.maxDepth + 1)) ∨
      o.strictAttributes = true ∧ o'.strictAttributes = false ∧
        ∃ name, name ∉ attributeNames ∧ convertJson j classifier o =
          .error (.fault (Pointer.root.append [Spelling.documentAttributes, name])
            (.unknownAttribute name))) ∧
    ∀ s, Schema.ofJson? j = .ok s →
      (∀ depth p t, LiesAt s depth p t → depth ≤ o.maxDepth) →
      ∀ p limit, convertJson j classifier o ≠ .error (.tooDeep p limit) := by
  have hagrees := convertJson_agrees ⟨hm, hs⟩ j classifier
  refine ⟨fun d hd => ?_, fun hne => ?_, fun s hread hdepth p limit h => ?_⟩
  · rcases hagrees with hsame | ⟨e, he, _⟩
    · exact hsame.symm.trans hd
    · cases he.symm.trans hd
  · obtain ⟨e, he, hcut⟩ := hagrees.resolve_left hne
    cases hcut with
    | depth p =>
      obtain ⟨_, s, t, _, ht⟩ := liesAt_of_tooDeep he
      exact .inl ⟨p, he, ht.length⟩
    | strict hstrict hloose hname => exact .inr ⟨hstrict, hloose, _, hname, he⟩
  · obtain ⟨rfl, s', t, hread', ht⟩ := liesAt_of_tooDeep h
    cases hread.symm.trans hread'
    exact absurd (hdepth _ p t ht) (by omega)

end

/-- With one level, `attributeSchema` converts as it does with fifty; with none, its property is too
deep. -/
theorem options_restrict_attributeSchema :
    ∃ d, convertJson attributeSchema complexRoot ⟨1, true⟩ = .ok d ∧
      convertJson attributeSchema complexRoot {} = .ok d ∧
      ∃ p, convertJson attributeSchema complexRoot ⟨0, false⟩ = .error (.tooDeep p 0) ∧
        p.segments.length = 2 := by
  have hrun : (convertJson attributeSchema complexRoot ⟨1, true⟩).toOption.any
      (fun _ => true) = true := by decide +kernel
  have hshallow : (convertJson attributeSchema complexRoot ⟨0, false⟩).toOption.isNone = true := by
    decide +kernel
  obtain ⟨d, hd, _⟩ := Checks.exists_of_any hrun
  have hsame :=
    (options_restrict ⟨1, true⟩ {} (by decide) nofun attributeSchema complexRoot).1 d hd
  have hdiffer : convertJson attributeSchema complexRoot ⟨0, false⟩ ≠
      convertJson attributeSchema complexRoot {} := by
    intro heq
    rw [heq, hsame] at hshallow
    cases hshallow
  refine ⟨d, hd, hsame, ?_⟩
  have hcut := (options_restrict ⟨0, false⟩ {} (by decide) nofun attributeSchema complexRoot).2.1
  rcases hcut hdiffer with h | ⟨hstrict, _⟩
  · exact h
  · cases hstrict

end XsdSynthesis
