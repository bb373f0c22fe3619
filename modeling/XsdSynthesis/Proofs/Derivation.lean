import XsdSynthesis.Proofs.References

/-!
# XsdSynthesis.Proofs.Derivation

Derivations end. From a named simple type, base after base, one meets only named simple types, none of them
twice, and in the end a built-in type (`derivations_end`). `checkChain` saw to it on the
definitions: the names that it collects are those of the types met.
-/

namespace XsdSynthesis

open Xsd Conversion

variable {source : Source} {d : Document} {ns : Option String} {q : QualifiedName} {t : Schema}
  {name current : String} {chain : List String} {place : Pointer}

/-- The built-in types that definitions may restrict. -/
def primitiveNames : List String := ["string", "integer", "decimal", "boolean"]

/-- The types met from a simple type on, base after base: each is the one top-level type of its
name, and the last one restricts a built-in type. -/
inductive Derives (d : Document) : SimpleType → List SimpleType → Prop where
  | builtIn {t : SimpleType} {name : String} : t.base = .builtIn name → name ∈ primitiveNames →
      Derives d t []
  | restricts {t u : SimpleType} {met : List SimpleType} : t.base = .plain u.name →
      d.items.filter (fun i => i.declaredName? = some u.name) = [.simpleType u] →
      Derives d u met → Derives d t (u :: met)

/-- There is only one way to go. -/
theorem Derives.unique {t : SimpleType} {met met' : List SimpleType} (h : Derives d t met)
    (h' : Derives d t met') : met = met' := by
  induction h generalizing met' with
  | builtIn hb _ =>
    cases h' with
    | builtIn _ _ => rfl
    | restricts hp _ _ =>
      rw [hb] at hp
      cases hp
  | restricts hp hone _ ih =>
    cases h' with
    | builtIn hb _ =>
      rw [hb] at hp
      cases hp
    | restricts hp' hone' hrest =>
      have hname := congrArg QualifiedName.name (hp.symm.trans hp')
      simp only [QualifiedName.plain] at hname
      rw [hname, hone'] at hone
      cases hone
      rw [ih hrest]

theorem mem_primitiveNames {v : ValueType} (h : v.primitive? = some name) :
    name ∈ primitiveNames := by
  cases v <;> cases h <;> decide

/-- What the check finds as the next base is the target of the definition's reference. -/
theorem nextBase?_eq_some {s : Schema} {next : String} :
    nextBase? s ns place t = some next ↔
      ns = none ∧ ∃ r c, t.reference? = some r ∧ s.target? r = some (c, next) := by
  have hresolve : ∀ r, (resolve s ns place r).toOption = some next ↔
      ns = none ∧ ∃ c, s.target? r = some (c, next) := fun r => by
    rw [← show resolve s ns place r = .ok next ↔ _ from resolve_ok]
    cases resolve s ns place r <;> simp [Except.toOption]
  simp only [nextBase?, Option.bind_eq_some_iff, hresolve]
  constructor
  · rintro ⟨r, hr, hns, c, htarget⟩
    exact ⟨hns, r, c, hr, htarget⟩
  · rintro ⟨hns, r, c, hr, htarget⟩
    exact ⟨r, hr, hns, c, htarget⟩

theorem base_of_namesType (h : NamesType source.schema ns t (some q)) (place : Pointer) :
    (∃ b ∈ primitiveNames, q = .builtIn b) ∨
      ∃ c next u, q = .plain next ∧ (next, u) ∈ source.schema.definitions c ∧
        nextBase? source.schema ns place t = some next := by
  cases h with
  | primitive _ _ hv => exact .inl ⟨_, mem_primitiveNames hv, rfl⟩
  | @reference r c next hr _ ht hns =>
    obtain ⟨u, hu⟩ := definition?_of_target? ht
    exact .inr ⟨c, next, u, rfl, Tables.mem_of_lookup hu, nextBase?_eq_some.2 ⟨hns, r, c, hr, ht⟩⟩

theorem simpleType_of_definition {c : Container} (hd : BecomesDocument source d)
    (hm : (name, t) ∈ source.schema.definitions c)
    (hs : (source.classifier.shapes (definitionPlace c name)).isComplex = false) :
    ∃ base, NamesType source.schema (d.namespaceOf? "") t (some base) ∧
      d.items.filter (fun i => i.declaredName? = some name) = [.simpleType ⟨name, base⟩] := by
  obtain ⟨item, _, hitem, hone⟩ := hd.item_of_definition hm
  cases hitem with
  | complex _ hbecomes =>
    have hc := (hbecomes.of_complex rfl).1.shape
    rw [hs] at hc
    cases hc
  | simple _ hbecomes _ => exact ⟨_, (hbecomes.of_simple rfl).2.2.2, hone⟩

/-- One step of the check, where it comes to a definition. -/
theorem checkChain_ok {c : Container} (hf : source.schema.findDefinition? current = some (c, t))
    (h : checkChain source ns name chain current = .ok ()) :
    current ∉ chain ∧ (source.classifier.shapes (definitionPlace c current)).isComplex = false ∧
      (source.classifier.shapes (definitionPlace c current)).isSimple = true ∧
      ∀ next, nextBase? source.schema ns (definitionPlace c current) t = some next →
        checkChain source ns name (chain ++ [current]) next = .ok () := by
  rw [checkChain] at h
  by_cases hmet : chain.contains current = true
  · rw [dif_pos hmet] at h
    cases h
  · rw [dif_neg hmet] at h
    split at h
    · rename_i hnone
      rw [hf] at hnone
      cases hnone
    · rename_i c' t' hsome
      rw [hf] at hsome
      cases hsome
      dsimp only at h
      split at h
      · cases h
      · rename_i hshape
        simp only [Bool.or_eq_true, not_or, Bool.not_eq_true, Bool.not_eq_false'] at hshape
        refine ⟨by simpa using hmet, hshape.1, hshape.2, fun next hnext => ?_⟩
        rw [hnext] at h
        exact h

/-- What one accepted step says of the document: the definition's name has one type, and its base is
built in or the name of the next definition. -/
theorem simpleType_of_checkChain {c : Container} (hd : BecomesDocument source d)
    (hm : (current, t) ∈ source.schema.definitions c)
    (h : checkChain source (d.namespaceOf? "") name chain current = .ok ()) :
    ∃ base, d.items.filter (fun i => i.declaredName? = some current) =
        [.simpleType ⟨current, base⟩] ∧
      ((∃ b ∈ primitiveNames, base = .builtIn b) ∨
        ∃ c' next u, base = .plain next ∧ (next, u) ∈ source.schema.definitions c' ∧
          nextBase? source.schema (d.namespaceOf? "") (definitionPlace c current) t = some next ∧
          checkChain source (d.namespaceOf? "") name (chain ++ [current]) next = .ok ()) := by
  obtain ⟨_, hcomplex, _, hgo⟩ := checkChain_ok (hd.findDefinition? hm) h
  obtain ⟨base, hname, hone⟩ := simpleType_of_definition hd hm hcomplex
  refine ⟨base, hone, ?_⟩
  rcases base_of_namesType hname (definitionPlace c current) with
    ⟨b, hb, hbase⟩ | ⟨c', next, u, hbase, hu, hnext⟩
  · exact .inl ⟨b, hb, hbase⟩
  · exact .inr ⟨c', next, u, hbase, hu, hnext, hgo next hnext⟩

/-- **The types behind a chain**, by induction on the check: from a definition that `checkChain`
accepts, the types met have names that are new to the chain and differ from each other. -/
theorem derives_of_checkChain {c : Container} (hd : BecomesDocument source d)
    (hchain : chain.Nodup) (hm : (current, t) ∈ source.schema.definitions c)
    (h : checkChain source (d.namespaceOf? "") name chain current = .ok ()) :
    ∃ u met, d.items.filter (fun i => i.declaredName? = some current) = [.simpleType u] ∧
      u.name = current ∧ Derives d u met ∧ (chain ++ (u :: met).map SimpleType.name).Nodup := by
  induction chain, current using checkChain.induct source (d.namespaceOf? "") generalizing c t with
  | case1 chain current hmet =>
    have hfresh := (checkChain_ok (hd.findDefinition? hm) h).1
    exact absurd (by simpa using hmet) hfresh
  | case2 chain current _ hnone =>
    rw [hd.findDefinition? hm] at hnone
    cases hnone
  | case3 chain current _ c' t' hf _ =>
    rename_i hshape
    cases (hd.findDefinition? hm).symm.trans hf
    obtain ⟨_, hcomplex, hsimple, _⟩ := checkChain_ok hf h
    have hfine : ((source.classifier.shapes (definitionPlace c' current)).isComplex ||
        !(source.classifier.shapes (definitionPlace c' current)).isSimple) = false := by
      rw [hcomplex, hsimple]
      rfl
    exact absurd (hfine.symm.trans hshape) Bool.false_ne_true
  | case4 chain current _ c' t' hf _ _ =>
    rename_i hstop
    cases (hd.findDefinition? hm).symm.trans hf
    have hnew := hchain.concat (checkChain_ok hf h).1
    rw [List.concat_eq_append] at hnew
    obtain ⟨base, hone, hb⟩ := simpleType_of_checkChain hd hm h
    rcases hb with ⟨b, hb, rfl⟩ | ⟨_, next, _, _, _, hnext, _⟩
    · exact ⟨_, [], hone, rfl, .builtIn rfl hb, hnew⟩
    · rw [hstop] at hnext
      cases hnext
  | case5 chain current _ c' t' hf _ _ _ next =>
    rename_i hnext ih
    cases (hd.findDefinition? hm).symm.trans hf
    have hnew := hchain.concat (checkChain_ok hf h).1
    rw [List.concat_eq_append] at hnew
    obtain ⟨base, hone, hb⟩ := simpleType_of_checkChain hd hm h
    rcases hb with ⟨b, hb, rfl⟩ | ⟨c₁, n, u, rfl, hu, hn, hgo⟩
    · exact ⟨_, [], hone, rfl, .builtIn rfl hb, hnew⟩
    · cases hn.symm.trans hnext
      obtain ⟨v, met, hv, hname, hderives, hnodup⟩ := ih (hnew) hu hgo
      subst hname
      refine ⟨_, v :: met, hone, rfl, .restricts rfl hv hderives, ?_⟩
      rw [List.append_assoc] at hnodup
      exact hnodup

theorem checkBase_plain (source : Source) (ns : Option String) (place : Pointer)
    (name base : String) :
    checkBase source ns place name (.plain base) =
      (checkChain source ns name [name] base).mapError (Problem.unsupported place) := by
  simp only [checkBase, QualifiedName.plain]
  cases checkChain source ns name [name] base <;> rfl

theorem checkChain_of_checkBase {next : String}
    (h : checkBase source ns place name (.plain next) = .ok ()) :
    checkChain source ns name [name] next = .ok () := by
  rw [checkBase_plain] at h
  cases hout : checkChain source ns name [name] next with
  | ok => rfl
  | error construct =>
    rw [hout] at h
    cases h

/-- **Derivations end.** From every named simple type of a converted document there is one way, base
after base, over named simple types only; it meets no name twice and ends at a built-in type. -/
theorem derivations_end {j : Json} {classifier : Classifier} {options : Options} {d : Document}
    (h : convertJson j classifier options = .ok d) :
    ∀ t, .simpleType t ∈ d.items → ∃ met, Derives d t met ∧
      (∀ other, Derives d t other → other = met) ∧ ((t :: met).map SimpleType.name).Nodup := by
  intro t ht
  obtain ⟨s, _, hd⟩ := convertJson_ok h
  obtain ⟨c, name, u, hm, hitem⟩ := hd.definition_of_item ht rfl
  obtain ⟨met, hderives, hnodup⟩ : ∃ met, Derives d t met ∧
      ((t :: met).map SimpleType.name).Nodup := by
    cases hitem with
    | @simple base _ hbecomes hbase =>
      have hname := (hbecomes.of_simple rfl).2.2.2
      rcases base_of_namesType hname (definitionPlace c name) with
        ⟨b, hb, rfl⟩ | ⟨c', next, v, rfl, hv, _⟩
      · exact ⟨[], .builtIn rfl hb, by simp⟩
      · have hcheck : checkChain ⟨s, classifier, options⟩ (d.namespaceOf? "") name [name] next =
            .ok () := checkChain_of_checkBase hbase
        obtain ⟨w, met, hw, hnext, hrest, hnodup⟩ :=
          derives_of_checkChain hd (by simp) hv hcheck
        subst hnext
        exact ⟨w :: met, .restricts rfl hw hrest, hnodup⟩
  exact ⟨met, hderives, fun other hother => hother.unique hderives, hnodup⟩

theorem derivations_end_chain :
    ∃ d, convertJson attributeSchema complexRoot {} = .ok d ∧
      .simpleType ⟨"P", .plain "Q"⟩ ∈ d.items ∧
      ∃ met, Derives d ⟨"P", .plain "Q"⟩ met ∧
        (∀ other, Derives d ⟨"P", .plain "Q"⟩ other → other = met) ∧
        (("P" :: met.map SimpleType.name)).Nodup := by
  have hrun : (convertJson attributeSchema complexRoot {}).toOption.any
      (fun d => d.simpleType? "P" == some ⟨"P", .plain "Q"⟩) = true := by decide +kernel
  obtain ⟨d, hd, hp⟩ := Checks.exists_of_any hrun
  have hm := (Document.mem_of_simpleType? (beq_iff_eq.1 hp)).1
  exact ⟨d, hd, hm, derivations_end hd _ hm⟩

end XsdSynthesis
