import XsdSynthesis.Proofs.Pulls

/-!
# XsdSynthesis.Proofs.Synthesis

Synthesis follows the rules: if `synthesize` ends with a node, the subschema becomes that node
(`synthesize_ok`), and the document is what it was before. The proof goes through the checks one by
one, each read as the condition that it decides, and then follows the recursion of `synthesize`.
-/

namespace XsdSynthesis
namespace Conversion

open Xsd WorkList

variable {source : Source} {place : Pointer} {w w' : WorkList} {s t : Schema} {ns : Option String}

/-! ## Checks -/

theorem checkDrained_ok {u : Unit} : checkDrained place w = .ok u ↔ w.unhandledNames = [] := by
  unfold checkDrained
  split
  · rename_i h
    simp [h]
  · rename_i h
    simp [h]

theorem checkPlain_ok {derivations : List Shape} {shapes : ShapeSet} {u : Unit} :
    checkPlain place derivations shapes = .ok u ↔
      ∀ d ∈ derivations, shapes.contains d = false := by
  unfold checkPlain
  split
  · rename_i d hd
    have hm := List.mem_of_find?_eq_some hd
    have hc : shapes.contains d = true := by simpa using List.find?_some hd
    constructor
    · intro h
      cases h
    · intro h
      rw [h d hm] at hc
      cases hc
  · rename_i hd
    simpa using hd

theorem checkObject_ok {types : Option (List ValueType)} {u : Unit} :
    checkObject place types = .ok u ↔ types = none ∨ types = some [.object] := by
  cases types with
  | none => simp [checkObject]
  | some types =>
    unfold checkObject
    split
    · rename_i h
      simp [h]
    · rename_i h
      simp [h]

theorem checkRequired_ok {required : List String} {properties : List (String × Schema)}
    {u : Unit} :
    checkRequired place required properties = .ok u ↔
      ∀ n ∈ required, n ∈ properties.map Prod.fst := by
  unfold checkRequired
  split
  · rename_i n hn
    have hm := List.mem_of_find?_eq_some hn
    have hc : n ∉ properties.map Prod.fst := by simpa using List.find?_some hn
    constructor
    · intro h
      cases h
    · intro h
      exact absurd (h n hm) hc
  · rename_i hn
    simpa using hn

theorem primitiveOf_ok {types : List ValueType} {q : QualifiedName} :
    primitiveOf place types = .ok q ↔
      ∃ v name, types = [v] ∧ v.primitive? = some name ∧ q = .builtIn name := by
  unfold primitiveOf
  split
  · rename_i v
    split
    · rename_i name hn
      simp [hn, eq_comm]
    · rename_i hn
      simp [hn]
  · rename_i hne
    constructor
    · intro h
      cases h
    · rintro ⟨v, name, rfl, _⟩
      exact absurd rfl (hne v)

theorem resolve_ok {r name : String} :
    resolve s ns place r = .ok name ↔ ns = none ∧ ∃ c, s.target? r = some (c, name) := by
  unfold resolve
  split
  · rename_i ht
    simp [ht]
  · rename_i c n ht
    cases ns with
    | none => simp [ht]
    | some uri => simp

/-! ## The two openings -/

/-- What the rule of complex types leaves of a list. -/
def afterComplex (w : WorkList) : WorkList :=
  (((w.pull .type).2.pull .required).2.pull .properties).2

theorem without_afterComplex (w : WorkList) :
    w.Without [.type, .required, .properties] (afterComplex w) :=
  ((without_pull w .type).trans (without_pull _ .required)).trans (without_pull _ .properties)

/-- What the rule of simple types leaves of a list. -/
def afterSimple (w : WorkList) : WorkList := ((w.pull .ref).2.pull .type).2

theorem without_afterSimple (w : WorkList) : w.Without [.ref, .type] (afterSimple w) :=
  (without_pull w .ref).trans (without_pull _ .type)

theorem openComplex_ok {shapes : ShapeSet} {required : List String}
    (hw : ∀ kind, kind ≠ .asAttribute → w.Offers t kind) :
    openComplex place shapes w = .ok (required, w') ↔
      (∀ d ∈ Shape.complexDerivations, shapes.contains d = false) ∧
      (t.types? = none ∨ t.types? = some [.object]) ∧
      (∀ n ∈ t.requiredNames, n ∈ t.properties.map Prod.fst) ∧
      required = t.requiredNames ∧ w' = afterComplex w := by
  have ht := pullTypes_eq (hw .type (by decide))
  have hr := pullRequired_getD (offers_pull .type (hw .required (by decide)) (by decide))
  have hp := pullProperties_getD
    (offers_pull .required
      (offers_pull .type (hw .properties (by decide)) (by decide)) (by decide))
  simp only [openComplex, ht, Checks.bind_ok, Checks.pure_ok, checkPlain_ok, checkObject_ok,
    checkRequired_ok, hr.1, hr.2, hp.1, hp.2, Prod.mk.injEq, afterComplex]
  constructor
  · rintro ⟨_, hpl, _, hty, _, hrq, rfl, rfl⟩
    exact ⟨hpl, hty, hrq, rfl, rfl⟩
  · rintro ⟨hpl, hty, hrq, rfl, rfl⟩
    exact ⟨(), hpl, (), hty, (), hrq, rfl, rfl⟩

theorem simpleTypeName_ok {shapes : ShapeSet} {typeName : Option QualifiedName}
    (hw : ∀ kind, kind ≠ .asAttribute → w.Offers t kind) :
    simpleTypeName s ns place shapes w = .ok (typeName, w') ↔
      (∀ d ∈ Shape.simpleDerivations, shapes.contains d = false) ∧
      NamesType s ns t typeName ∧ w' = afterSimple w := by
  have hr := pullReference_eq (hw .ref (by decide))
  have ht := pullTypes_eq (offers_pull .ref (hw .type (by decide)) (by decide))
  simp only [simpleTypeName, Checks.bind_ok, checkPlain_ok, hr, ht]
  constructor
  · rintro ⟨_, hpl, h⟩
    refine ⟨hpl, ?_⟩
    split at h
    · cases h
    · rename_i r hr ht
      simp only [Checks.bind_ok, Checks.pure_ok, resolve_ok, Prod.mk.injEq] at h
      obtain ⟨name, ⟨hns, c, hc⟩, rfl, rfl⟩ := h
      exact ⟨.reference hr ht hc hns, rfl⟩
    · rename_i types hr ht
      simp only [Checks.bind_ok, Checks.pure_ok, primitiveOf_ok, Prod.mk.injEq] at h
      obtain ⟨q, ⟨v, name, rfl, hv, rfl⟩, rfl, rfl⟩ := h
      exact ⟨.primitive hr ht hv, rfl⟩
    · rename_i hr ht
      simp only [Checks.pure_ok, Prod.mk.injEq] at h
      obtain ⟨rfl, rfl⟩ := h
      exact ⟨.untyped hr ht, rfl⟩
  · rintro ⟨hpl, h, rfl⟩
    refine ⟨(), hpl, ?_⟩
    cases h with
    | untyped hr ht => rw [hr, ht]; rfl
    | primitive hr ht hv =>
      rw [hr, ht]
      simp only [Checks.bind_ok, Checks.pure_ok, primitiveOf_ok]
      exact ⟨_, ⟨_, _, rfl, hv, rfl⟩, rfl⟩
    | reference hr ht hc hns =>
      rw [hr, ht]
      simp only [Checks.bind_ok, Checks.pure_ok, resolve_ok]
      exact ⟨_, ⟨hns, _, hc⟩, rfl⟩

/-! ## Subschemas -/

/-- The list that synthesis starts with. -/
def nestedWorkList (t : Schema) : WorkList := (WorkList.ofSchema t).markAll documentKinds

@[simp] theorem items_nestedWorkList (t : Schema) : (nestedWorkList t).items = t.keywords := by
  simp [nestedWorkList]

theorem nested_offers (t : Schema) (kind : Kind) : (nestedWorkList t).Offers t kind :=
  offers_of_items (items_nestedWorkList t) kind

theorem nested_marked {t : Schema} {kind : Kind} (h : kind ∈ (nestedWorkList t).marked) :
    kind ∈ documentKinds := by
  rcases mem_markAll.1 h with h | h
  · exact h
  · cases h

/-- A drained list of a subschema had nothing but marked and pulled kinds. -/
theorem nested_kinds {kinds : List Kind} (hw : (nestedWorkList t).Without kinds w)
    (h : w.unhandledNames = []) : ∀ k ∈ t.keywords, k.kind ∈ documentKinds ++ kinds := by
  intro k hk
  have hk' : k ∈ (nestedWorkList t).items := by simpa using hk
  rcases kind_of_drained hw h k hk' with hk | hk
  · exact List.mem_append_left _ (nested_marked hk)
  · exact List.mem_append_right _ hk

theorem nestedWorkList_mk (keywords : List Keyword) :
    (WorkList.mk keywords []).markAll documentKinds = nestedWorkList (.mk keywords) := rfl

def flaglessWorkList (t : Schema) : WorkList := ((nestedWorkList t).pull .asAttribute).2

theorem flagless_offers (t : Schema) {kind : Kind} (h : kind ≠ .asAttribute) :
    (flaglessWorkList t).Offers t kind :=
  offers_pull .asAttribute (nested_offers t kind) h

theorem properties_cons {k : Keyword} (h : k.kind ≠ .properties) (rest : List Keyword) :
    (Schema.mk (k :: rest)).properties = (Schema.mk rest).properties := by
  rw [Schema.properties, Schema.get?_cons_of_ne h, Schema.properties]

theorem membersOf_cons {k : Keyword} (h : k.kind ≠ .properties) (place : Pointer) (depth : Nat)
    (required : List String) (rest : List Keyword) :
    membersOf source place depth required (k :: rest) =
      membersOf source place depth required rest := by
  cases k with
  | properties entries => exact absurd rfl h
  | _ => rfl

mutual

/-- **Synthesis follows the rules.** A node that `synthesize` ends with is what the subschema
becomes, and the document is left alone. -/
theorem synthesize_ok {place : Pointer} {depth : Nat} {l l' : Ledger} {made : Synthesized} :
    ∀ {t : Schema}, synthesize source place depth t l = (.ok made, l') →
      Becomes source (l.document.namespaceOf? "") place depth t made ∧
        l'.document = l.document
  | .mk keywords, h => by
    obtain ⟨ha, hf⟩ := pullAsAttribute_getD (nested_offers (.mk keywords) .asAttribute)
    rw [← flaglessWorkList] at hf
    simp only [synthesize, nestedWorkList_mk, ha, hf] at h
    obtain ⟨hd, _, h⟩ := bind_enter_ok.1 h
    have hpulled := without_pull (nestedWorkList (.mk keywords)) .asAttribute
    split at h
    · rename_i hshape
      split at h
      · exact absurd h stop_ok
      · rename_i hflag
        obtain ⟨⟨required, w⟩, ho, h⟩ := bind_lift_ok.1 h
        obtain ⟨members, l₁, hm, h⟩ := bind_ok.1 h
        obtain ⟨_, hdr, h⟩ := bind_lift_ok.1 h
        obtain ⟨rfl, rfl⟩ := pure_ok.1 h
        obtain ⟨hplain, htypes, hrequired, rfl, rfl⟩ :=
          (openComplex_ok fun kind hk => flagless_offers (.mk keywords) hk).1 ho
        obtain ⟨⟨parts, hparts, hnames, hbecomes, rfl⟩, hdoc⟩ := membersOf_ok hm
        refine ⟨?_, hdoc⟩
        have hfalse : (Schema.mk keywords).asksAttribute = false := by simpa using hflag
        have hkinds := nested_kinds (hpulled.trans (without_afterComplex _)) (checkDrained_ok.1 hdr)
        rw [hfalse]
        exact .complex hd ⟨hshape, hplain, htypes, hrequired⟩ hfalse hkinds hparts hnames hbecomes
    · rename_i hcomplex
      split at h
      · rename_i hshape
        rw [bind_defaultNamespace_ok] at h
        obtain ⟨⟨typeName, w⟩, ht, h⟩ := bind_lift_ok.1 h
        obtain ⟨_, hdr, h⟩ := bind_lift_ok.1 h
        obtain ⟨rfl, rfl⟩ := pure_ok.1 h
        obtain ⟨hplain, hname, rfl⟩ :=
          (simpleTypeName_ok fun kind hk => flagless_offers (.mk keywords) hk).1 ht
        refine ⟨?_, rfl⟩
        have hkinds := nested_kinds (hpulled.trans (without_afterSimple _)) (checkDrained_ok.1 hdr)
        exact .simple hd ⟨by simpa using hcomplex, hshape, hplain⟩ hkinds hname
      · exact absurd h stop_ok

theorem membersOf_ok {place : Pointer} {depth : Nat} {l l' : Ledger} {required : List String}
    {members : Members} :
    ∀ {keywords : List Keyword},
      membersOf source place depth required keywords l = (.ok members, l') →
      BecomesMembers source (l.document.namespaceOf? "") place depth required
        (Schema.mk keywords).properties members ∧ l'.document = l.document
  | [], h => by
    simp only [membersOf] at h
    obtain ⟨rfl, rfl⟩ := pure_ok.1 h
    exact ⟨⟨[], rfl, by simp, by simp, rfl⟩, rfl⟩
  | k :: rest, h => by
    cases k with
    | properties entries =>
      simp only [membersOf] at h
      exact entriesOf_ok h
    | _ =>
      rw [membersOf_cons (by simp [Keyword.kind])] at h
      rw [properties_cons (by simp [Keyword.kind])]
      exact membersOf_ok h

theorem entriesOf_ok {place : Pointer} {depth : Nat} {l l' : Ledger} {required : List String}
    {members : Members} :
    ∀ {entries : List (String × Schema)},
      entriesOf source place depth required entries l = (.ok members, l') →
      BecomesMembers source (l.document.namespaceOf? "") place depth required entries members ∧
        l'.document = l.document
  | [], h => by
    simp only [entriesOf] at h
    obtain ⟨rfl, rfl⟩ := pure_ok.1 h
    exact ⟨⟨[], rfl, by simp, by simp, rfl⟩, rfl⟩
  | (name, t) :: rest, h => by
    simp only [entriesOf] at h
    obtain ⟨_, hname, h⟩ := bind_lift_ok.1 h
    obtain ⟨made, l₁, hmade, h⟩ := bind_ok.1 h
    obtain ⟨others, l₂, hothers, h⟩ := bind_ok.1 h
    obtain ⟨rfl, rfl⟩ := pure_ok.1 h
    obtain ⟨hbecomes, hdoc⟩ := synthesize_ok hmade
    obtain ⟨⟨parts, hparts, hnames, hrest, rfl⟩, hdoc'⟩ := entriesOf_ok hothers
    rw [hdoc] at hrest hdoc'
    refine ⟨⟨⟨name, t, made⟩ :: parts, ?_, ?_, ?_, rfl⟩, hdoc'⟩
    · rw [List.map_cons, hparts]
      rfl
    · exact List.forall_mem_cons.2 ⟨checkName_ok.1 hname, hnames⟩
    · exact List.forall_mem_cons.2 ⟨hbecomes, hrest⟩

end

end Conversion
end XsdSynthesis
