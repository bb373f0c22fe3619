import XsdSynthesis.Proofs.Places
import XsdSynthesis.Proofs.Synthesis

/-!
# XsdSynthesis.Proofs.Items

The items that handlers of root keywords add follow the rules: definitions become named types
(`defineEach_ok`), each under a name that the document had not declared, and the root becomes one
element (`buildRoot_ok`). All but the items of the document stays as it is.
-/

namespace XsdSynthesis
namespace Conversion

open Xsd WorkList

variable {source : Source} {w w' : WorkList} {l l' : Ledger} {c : Container} {name : String}
  {t : Schema}

/-! ## Definitions -/

theorem hasType_eq_false {d : Document} {name : String} (h : hasType d name = false) :
    name ∉ d.declaredNames := by
  simp only [hasType, Bool.or_eq_false_iff, Option.isSome_eq_false_iff, Option.isNone_iff_eq_none,
    Document.complexType?, Document.simpleType?, List.findSome?_eq_none_iff] at h
  intro hm
  obtain ⟨item, hi, hn⟩ := List.mem_filterMap.1 hm
  cases item with
  | documentation a => cases hn
  | element e => cases hn
  | complexType type =>
    have := h.1 _ hi
    simp only [Item.declaredName?] at hn
    simp [hn] at this
  | simpleType type =>
    have := h.2 _ hi
    simp only [Item.declaredName?, Option.some.injEq] at hn
    simp [hn] at this

theorem name_withName (type : ComplexType) (name : String) :
    (type.withName name).name = some name := by
  cases type
  rfl

theorem BecomesItem.declaredName {ns : Option String} {item : Item}
    (h : BecomesItem source ns c name t item) : item.declaredName? = some name := by
  cases h with
  | complex _ _ => exact name_withName _ _
  | simple _ _ _ => rfl

theorem define_ok (h : define source c name t l = (.ok (), l')) :
    ∃ item, BecomesItem source (l.document.namespaceOf? "") c name t item ∧
      name ∉ l.document.declaredNames ∧ l'.document = l.document.addItems [item] := by
  simp only [define] at h
  obtain ⟨_, hname, h⟩ := bind_lift_ok.1 h
  rw [bind_ledger_ok] at h
  split at h
  · exact absurd h stop_ok
  · rename_i hfree
    obtain ⟨made, l₁, hmade, h⟩ := bind_ok.1 h
    obtain ⟨hbecomes, hdoc⟩ := synthesize_ok hmade
    split at h
    · exact absurd h stop_ok
    · rename_i hflag
      rw [bind_defaultNamespace_ok] at h
      obtain ⟨item, hitem, h⟩ := bind_lift_ok.1 h
      rw [bind_emit_ok, addItem_ok] at h
      subst h
      rw [hdoc] at hitem
      have hnot : made.asAttribute = false := by simpa using hflag
      refine ⟨item, ?_, hasType_eq_false (by simpa using hfree), ?_⟩
      · obtain ⟨node, flag⟩ := made
        subst hnot
        cases node with
        | complex type =>
          simp only [definitionItem] at hitem
          cases hitem
          exact .complex (checkName_ok.1 hname) hbecomes
        | simple base =>
          cases base with
          | none => cases hitem
          | some base =>
            simp only [definitionItem] at hitem
            obtain ⟨_, hbase, hpure⟩ := Checks.bind_ok.1 hitem
            cases Checks.pure_ok.1 hpure
            exact .simple (checkName_ok.1 hname) hbecomes hbase
      · simp only [Ledger.addItem, Ledger.emit, hdoc]
        rfl

theorem defineEach_ok {entries : List (String × Schema)}
    (h : defineEach source c entries l = (.ok (), l')) :
    ∃ made, List.Forall₂ (fun e item =>
        BecomesItem source (l.document.namespaceOf? "") c e.1 e.2 item) entries made ∧
      l'.document = l.document.addItems made ∧
      (l.document.declaredNames.Nodup → l'.document.declaredNames.Nodup) := by
  induction entries generalizing l with
  | nil =>
    simp only [defineEach] at h
    obtain ⟨_, rfl⟩ := pure_ok.1 h
    exact ⟨[], .nil, by simp, id⟩
  | cons e rest ih =>
    simp only [defineEach] at h
    obtain ⟨_, l₁, he, h⟩ := bind_ok.1 h
    obtain ⟨item, hitem, hfree, hdoc⟩ := define_ok he
    obtain ⟨made, hmade, hdoc', hnodup⟩ := ih h
    rw [hdoc] at hmade hdoc' hnodup
    refine ⟨item :: made, .cons hitem hmade, by simpa using hdoc', fun hn => hnodup ?_⟩
    have hnew := hn.concat hfree
    rw [List.concat_eq_append] at hnew
    rw [Document.declaredNames_addItems, List.filterMap_cons, hitem.declaredName,
      List.filterMap_nil]
    exact hnew

/-! ## The root element -/

theorem eq_of_soleReference? {s : Schema} {r : String} (h : s.soleReference? = some r) :
    s = .mk [.ref r] := by
  obtain ⟨keywords⟩ := s
  unfold Schema.soleReference? at h
  split at h
  · rename_i r' hk
    cases h
    rw [Schema.keywords_mk] at hk
    rw [hk]
  · cases h

/-- The branch of a wrapping root is the first one of its combinator. -/
theorem wrappedBranch_ok {s branch : Schema} {place : Pointer}
    (h : wrappedBranch s = .ok (place, branch)) :
    s.get? .properties = none ∧
      ∃ c, s.combinators = [(c, [branch])] ∧ place = Pointer.root.append [c.name, "0"] := by
  unfold wrappedBranch at h
  split at h
  · cases h
  · rename_i hp
    refine ⟨by simpa using hp, ?_⟩
    split at h
    · cases h
    · rename_i c b hc
      cases h
      exact ⟨c, hc, rfl⟩
    · cases h
    · cases h

theorem wrappedTypeName_ok {s : Schema} {ns : Option String} {q : QualifiedName}
    (h : wrappedTypeName s ns = .ok q) :
    s.get? .properties = none ∧ ns = none ∧ ∃ c r target name,
      s.combinators = [(c, [.mk [.ref r]])] ∧ s.target? r = some (target, name) ∧
        q = .plain name := by
  unfold wrappedTypeName at h
  obtain ⟨⟨place, branch⟩, hb, h⟩ := Checks.bind_ok.1 h
  obtain ⟨hp, c, hc, _⟩ := wrappedBranch_ok hb
  cases hr : branch.soleReference? with
  | none =>
    simp only [hr] at h
    cases h
  | some r =>
    simp only [hr] at h
    obtain ⟨name, hname, h⟩ := Checks.bind_ok.1 h
    obtain ⟨hns, target, ht⟩ := resolve_ok.1 hname
    cases Checks.pure_ok.1 h
    rw [eq_of_soleReference? hr] at hc
    exact ⟨hp, hns, c, r, target, name, hc, ht, rfl⟩

/-- Kinds that the root element takes from the root's list. -/
def rootKinds (source : Source) : List Kind :=
  if source.classifier.inlineRoot then
    if (source.classifier.shapes .root).isComplex then [.type, .required, .properties]
    else [.ref, .type]
  else []

theorem inlineRoot_ok {e : Element} (hi : source.classifier.inlineRoot = true)
    (hw : w.items = source.schema.keywords) (h : inlineRoot source w l = (.ok (e, w'), l')) :
    BecomesRoot source (l.document.namespaceOf? "") e ∧ source.schema.combinators = [] ∧
      w.Without (rootKinds source) w' ∧ l'.document = l.document := by
  have offers := fun kind => offers_of_items hw kind
  cases hc : source.schema.combinators with
  | cons first rest =>
    simp only [inlineRoot, hc] at h
    exact absurd h stop_ok
  | nil =>
    simp only [inlineRoot, hc] at h
    obtain ⟨_, _, h⟩ := bind_enter_ok.1 h
    split at h
    · rename_i hshape
      obtain ⟨⟨required, w₁⟩, ho, h⟩ := bind_lift_ok.1 h
      obtain ⟨members, l₁, hm, h⟩ := bind_ok.1 h
      obtain ⟨hpair, rfl⟩ := pure_ok.1 h
      cases hpair
      obtain ⟨hplain, htypes, hrequired, rfl, rfl⟩ :=
        (openComplex_ok (t := source.schema) fun kind _ => offers kind).1 ho
      obtain ⟨hbecomes, hdoc⟩ := membersOf_ok hm
      refine ⟨.complex hi hc ⟨hshape, hplain, htypes, hrequired⟩ hbecomes, rfl, ?_, hdoc⟩
      rw [rootKinds, if_pos hi, if_pos hshape]
      exact without_afterComplex w
    · rename_i hcomplex
      split at h
      · rename_i hshape
        rw [bind_defaultNamespace_ok] at h
        obtain ⟨⟨typeName, w₁⟩, ht, h⟩ := bind_lift_ok.1 h
        obtain ⟨hpair, rfl⟩ := pure_ok.1 h
        cases hpair
        obtain ⟨hplain, hname, rfl⟩ :=
          (simpleTypeName_ok (t := source.schema) fun kind _ => offers kind).1 ht
        have hnot : (source.classifier.shapes .root).isComplex = false := by simpa using hcomplex
        refine ⟨.simple hi hc ⟨hnot, hshape, hplain⟩ hname, rfl, ?_, rfl⟩
        rw [rootKinds, if_pos hi, if_neg hcomplex]
        exact without_afterSimple w
      · exact absurd h stop_ok

theorem wrappedRoot_ok {e : Element} (hi : source.classifier.inlineRoot = false)
    (h : wrappedRoot source l = (.ok e, l')) :
    BecomesRoot source (l.document.namespaceOf? "") e ∧ l'.document = l.document := by
  simp only [wrappedRoot] at h
  rw [bind_defaultNamespace_ok] at h
  obtain ⟨q, hq, h⟩ := bind_lift_ok.1 h
  obtain ⟨rfl, rfl⟩ := pure_ok.1 h
  obtain ⟨hp, hns, c, r, target, name, hc, ht, rfl⟩ := wrappedTypeName_ok hq
  exact ⟨.wrapped hi hp hc ht hns, rfl⟩

theorem buildRoot_ok (hw : w.items = source.schema.keywords)
    (h : buildRoot source w l = (.ok w', l')) :
    ∃ e, BecomesRoot source (l.document.namespaceOf? "") e ∧
      (source.classifier.inlineRoot = true → source.schema.combinators = []) ∧
      w.Without (rootKinds source) w' ∧ l'.document = l.document.addItems [.element e] := by
  unfold buildRoot at h
  obtain ⟨_, _, h⟩ := bind_lift_ok.1 h
  dsimp only at h
  split at h
  · rename_i hi
    obtain ⟨⟨e, w₁⟩, l₁, hroot, h⟩ := bind_ok.1 h
    obtain ⟨hbecomes, hc, hleft, hdoc⟩ := inlineRoot_ok hi hw hroot
    rw [bind_emit_ok, bind_addItem_ok] at h
    obtain ⟨rfl, rfl⟩ := pure_ok.1 h
    refine ⟨e, hbecomes, fun _ => hc, hleft, ?_⟩
    simp only [Ledger.addItem, Ledger.emit, hdoc]
    rfl
  · rename_i hi
    have hnot : source.classifier.inlineRoot = false := by simpa using hi
    obtain ⟨⟨e', w₁⟩, l₁, hmap, h⟩ := bind_ok.1 h
    obtain ⟨_, hroot, hpair⟩ := map_ok.1 hmap
    cases hpair
    obtain ⟨hbecomes, hdoc⟩ := wrappedRoot_ok hnot hroot
    rw [bind_emit_ok, bind_addItem_ok] at h
    obtain ⟨rfl, rfl⟩ := pure_ok.1 h
    refine ⟨_, hbecomes, fun ht => absurd ht hi, ?_, ?_⟩
    · rw [rootKinds, if_neg hi]
      exact without_refl w
    · simp only [Ledger.addItem, Ledger.emit, hdoc]
      rfl

end Conversion
end XsdSynthesis
