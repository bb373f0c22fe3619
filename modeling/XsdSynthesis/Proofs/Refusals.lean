import XsdSynthesis.Proofs.Failure
import XsdSynthesis.Proofs.Grammar

/-!
# XsdSynthesis.Proofs.Refusals

What a malformed schema document is refused with. `Json.IsRefused` stands beside the grammar
`Json.IsSchema`: it says which part of a value is the first that does not fit, the parts before it
being well-formed, and what is wrong there. Reading ends with a problem just where the relation has it
(`isRefused_iff`). The proof goes along the grammar, once more by induction on the parts of the parts of
a value.
-/

namespace XsdSynthesis

/-- A value without subschemas that is malformed under a spelling, and what is wrong with it. -/
inductive Keyword.Malformed (p : Pointer) : String → Json → Problem → Prop where
  | notString {name : String} {j : Json} : name ∈ ["$schema", "$id", "$ref"] → j.str? = none →
      Malformed p name j (.fault p .expectedString)
  | notTypes {j : Json} : j.str? = none → j.arr? = none →
      Malformed p "type" j (.fault p .expectedTypes)
  | noType : Malformed p "type" (.arr []) (.fault p .noType)
  | typeNotString {items : List Json} {i : Nat} {u : Json} : items[i]? = some u →
      (∀ v ∈ items.take i, ∃ s, v = .str s) → u.str? = none →
      Malformed p "type" (.arr items) (.fault p .typeNotString)
  | unknownType {name : String} : (∀ t : ValueType, name ≠ t.name) →
      Malformed p "type" (.str name) (.fault p (.unknownType name))
  | unknownTypes {names : List String} {i : Nat} {name : String} : names[i]? = some name →
      (∀ n ∈ names.take i, ∃ t : ValueType, n = t.name) → (∀ t : ValueType, name ≠ t.name) →
      Malformed p "type" (.arr (names.map .str)) (.fault p (.unknownType name))
  | notStrings {j : Json} : j.arr? = none → Malformed p "required" j (.fault p .expectedStrings)
  | itemNotString {items : List Json} {i : Nat} {u : Json} : items[i]? = some u →
      (∀ v ∈ items.take i, ∃ s, v = .str s) → u.str? = none →
      Malformed p "required" (.arr items) (.fault p .expectedString)
  | notObject {name : String} {j : Json} :
      name ∈ ["info", Spelling.namespaces, Spelling.documentAttributes] → j.obj? = none →
      Malformed p name j (.fault p .expectedObject)
  | valueNotString {name key : String} {members : List (String × Json)} {i : Nat} {u : Json} :
      name ∈ [Spelling.namespaces, Spelling.documentAttributes] → members[i]? = some (key, u) →
      (∀ m ∈ members.take i, ∃ s, m.2 = .str s) → u.str? = none →
      Malformed p name (.obj members) (.fault (p.child key) .expectedString)
  | notBoolean {j : Json} : j.bool? = none →
      Malformed p Spelling.asAttribute j (.fault p .expectedBoolean)

namespace Json

theorem obj?_eq_none {j : Json} (h : ∀ members, j ≠ .obj members) : j.obj? = none := by
  cases j with
  | obj members => exact absurd rfl (h members)
  | _ => rfl

theorem arr?_eq_none {j : Json} (h : ∀ items, j ≠ .arr items) : j.arr? = none := by
  cases j with
  | arr items => exact absurd rfl (h items)
  | _ => rfl

mutual

/-- What a value is refused with that stands for a schema at a place. Of an object the first member
counts that does not fit its name. -/
inductive IsRefused : Json → Pointer → Problem → Prop where
  | falseSchema {p : Pointer} : IsRefused (.bool false) p (.unsupported p .falseSchema)
  | notSchema {j : Json} {p : Pointer} : j.obj? = none → j.bool? = none →
      IsRefused j p (.fault p .notSchema)
  | member {members : List (String × Json)} {i : Nat} {name : String} {j : Json} {p : Pointer}
      {e : Problem} : members[i]? = some (name, j) → (∀ m ∈ members.take i, Fits m.1 m.2) →
      Misfits name j (p.child name) e → IsRefused (.obj members) p e

/-- What a value is refused with that does not fit the name of its keyword. Of subschemas the first one
counts that is none. -/
inductive Misfits : String → Json → Pointer → Problem → Prop where
  | notEntries {name : String} {j : Json} {p : Pointer} : name ∈ Spelling.ofEntries →
      j.obj? = none → Misfits name j p (.fault p .expectedObject)
  | entry {name key : String} {members : List (String × Json)} {i : Nat} {j : Json} {p : Pointer}
      {e : Problem} : name ∈ Spelling.ofEntries → members[i]? = some (key, j) →
      (∀ m ∈ members.take i, IsSchema m.2) → IsRefused j (p.child key) e →
      Misfits name (.obj members) p e
  | notBranches {name : String} {j : Json} {p : Pointer} : name ∈ Spelling.ofBranches →
      j.arr? = none → Misfits name j p (.fault p .expectedSchemas)
  | branch {name : String} {items : List Json} {i : Nat} {j : Json} {p : Pointer} {e : Problem} :
      name ∈ Spelling.ofBranches → items[i]? = some j → (∀ u ∈ items.take i, IsSchema u) →
      IsRefused j (p.child (toString i)) e → Misfits name (.arr items) p e
  | leaf {name : String} {j : Json} {p : Pointer} {e : Problem} :
      Keyword.Malformed p name j e → Misfits name j p e

end

end Json

/-! ## Leaves -/

namespace Keyword

variable {p : Pointer} {name : String} {j : Json} {e : Problem}

theorem string?_error : string? p j = .error e ↔ j.str? = none ∧ e = .fault p .expectedString := by
  cases j <;> simp [string?, Json.str?, eq_comm]

theorem typeName?_error :
    typeName? p j = .error e ↔ j.str? = none ∧ e = .fault p .typeNotString := by
  cases j <;> simp [typeName?, Json.str?, eq_comm]

theorem boolean?_error :
    boolean? p j = .error e ↔ j.bool? = none ∧ e = .fault p .expectedBoolean := by
  cases j <;> simp [boolean?, Json.bool?, eq_comm]

theorem members?_error :
    members? p j = .error e ↔ j.obj? = none ∧ e = .fault p .expectedObject := by
  cases j <;> simp [members?, Json.obj?, eq_comm]

theorem valueType?_error : valueType? p name = .error e ↔
    (∀ t : ValueType, name ≠ t.name) ∧ e = .fault p (.unknownType name) := by
  simp only [ne_eq, ← ValueType.ofName?_eq_some, valueType?]
  cases ValueType.ofName? name <;> simp [eq_comm]

theorem malformed_of_strings (h : strings? p j = .error e) : Malformed p "required" j e := by
  cases j with
  | arr items =>
    simp only [strings?, Checks.mapM_error, string?_ok, string?_error] at h
    obtain ⟨i, u, hu, hbefore, hnone, rfl⟩ := h
    exact .itemNotString hu hbefore hnone
  | _ =>
    cases h
    exact .notStrings rfl

theorem stringMap?_error : stringMap? p j = .error e ↔
    j.obj? = none ∧ e = .fault p .expectedObject ∨
      ∃ members i key u, j = .obj members ∧ members[i]? = some (key, u) ∧
        (∀ m ∈ members.take i, ∃ s, m.2 = .str s) ∧ u.str? = none ∧
        e = .fault (p.child key) .expectedString := by
  cases j with
  | obj members =>
    have hmap : stringMap? p (.obj members) =
        members.mapM fun m => do return (m.1, ← string? (p.child m.1) m.2) := rfl
    rw [hmap, Checks.mapM_error]
    simp only [Checks.exists_return_ok, Checks.return_error, string?_ok, string?_error]
    constructor
    · rintro ⟨i, ⟨key, u⟩, hi, hbefore, hu, rfl⟩
      exact .inr ⟨members, i, key, u, rfl, hi, hbefore, hu, rfl⟩
    · rintro (⟨⟨⟩, _⟩ | ⟨_, i, key, u, ⟨⟩, hi, hbefore, hu, rfl⟩)
      exact ⟨i, (key, u), hi, hbefore, hu, rfl⟩
  | _ => simp [stringMap?, members?, Json.obj?, bind, Except.bind, eq_comm]

theorem malformed_of_types (h : types? p j = .error e) : Malformed p "type" j e := by
  cases j with
  | str name =>
    obtain ⟨hname, rfl⟩ := valueType?_error.1 (Checks.return_error.1 h)
    exact .unknownType hname
  | arr items =>
    cases items with
    | nil =>
      cases h
      exact .noType
    | cons first rest =>
      rcases Checks.bind_error.1 h with h | ⟨names, hnames, h⟩
      · simp only [Checks.mapM_error, typeName?_ok, typeName?_error] at h
        obtain ⟨i, u, hu, hbefore, hnone, rfl⟩ := h
        exact .typeNotString hu hbefore hnone
      · simp only [Checks.mapM_error, valueType?_ok, valueType?_error] at h
        obtain ⟨i, name, hi, hbefore, hname, rfl⟩ := h
        rw [(mapM_written fun _ _ => typeName?_ok).1 hnames]
        exact .unknownTypes hi hbefore hname
  | _ =>
    cases h
    exact .notTypes rfl rfl

theorem malformed_of_leaf {read : Pointer → Json → Except Problem Keyword}
    (hread : payload name = .leaf read) (h : read p j = .error e) : Malformed p name j e := by
  unfold payload at hread
  split at hread <;> cases hread
  case h_1 | h_2 | h_3 =>
    obtain ⟨hj, rfl⟩ := string?_error.1 (Checks.return_error.1 h)
    exact .notString (by decide) hj
  case h_4 => exact malformed_of_types (Checks.return_error.1 h)
  case h_11 => exact malformed_of_strings (Checks.return_error.1 h)
  case h_12 =>
    obtain ⟨hj, rfl⟩ := members?_error.1 (Checks.return_error.1 h)
    exact .notObject (by decide) hj
  case h_13 | h_14 =>
    rcases stringMap?_error.1 (Checks.return_error.1 h) with
      ⟨hj, rfl⟩ | ⟨members, i, key, u, rfl, hi, hbefore, hu, rfl⟩
    · exact .notObject (by decide) hj
    · exact .valueNotString (by decide) hi hbefore hu
  case h_15 =>
    obtain ⟨hj, rfl⟩ := boolean?_error.1 (Checks.return_error.1 h)
    exact .notBoolean hj
  case h_16 => cases h

theorem Malformed.read (h : Malformed p name j e) :
    ∃ read, payload name = .leaf read ∧ read p j = .error e := by
  cases h with
  | notString hname hj =>
    simp only [List.mem_cons, List.not_mem_nil, or_false] at hname
    rcases hname with rfl | rfl | rfl
    all_goals exact ⟨_, rfl, Checks.return_error.2 (string?_error.2 ⟨hj, rfl⟩)⟩
  | notTypes hs ha =>
    refine ⟨_, rfl, Checks.return_error.2 ?_⟩
    cases j with
    | str _ => cases hs
    | arr _ => cases ha
    | _ => rfl
  | noType => exact ⟨_, rfl, rfl⟩
  | @typeNotString items i u hu hbefore hnone =>
    refine ⟨_, rfl, Checks.return_error.2 ?_⟩
    cases items with
    | nil => cases hu
    | cons first rest =>
      refine Checks.bind_error.2 (.inl (Checks.mapM_error.2 ⟨i, u, hu, fun v hv => ?_, ?_⟩))
      · exact (hbefore v hv).imp fun _ => typeName?_ok.2
      · exact typeName?_error.2 ⟨hnone, rfl⟩
  | unknownType hname =>
    exact ⟨_, rfl, Checks.return_error.2 (Checks.return_error.2 (valueType?_error.2 ⟨hname, rfl⟩))⟩
  | @unknownTypes names i name hi hbefore hname =>
    refine ⟨_, rfl, Checks.return_error.2 ?_⟩
    cases names with
    | nil => cases hi
    | cons first rest =>
      refine Checks.bind_error.2 (.inr ⟨first :: rest, ?_, Checks.mapM_error.2
        ⟨i, name, hi, fun n hn => ?_, valueType?_error.2 ⟨hname, rfl⟩⟩⟩)
      · exact (mapM_written fun _ _ => typeName?_ok).2 rfl
      · exact (hbefore n hn).imp fun _ => valueType?_ok.2
  | notStrings hj =>
    refine ⟨_, rfl, Checks.return_error.2 ?_⟩
    cases j with
    | arr _ => cases hj
    | _ => rfl
  | @itemNotString items i u hu hbefore hnone =>
    refine ⟨_, rfl, Checks.return_error.2 (Checks.mapM_error.2 ⟨i, u, hu, fun v hv => ?_, ?_⟩)⟩
    · exact (hbefore v hv).imp fun _ => string?_ok.2
    · exact string?_error.2 ⟨hnone, rfl⟩
  | notObject hname hj =>
    simp only [List.mem_cons, List.not_mem_nil, or_false] at hname
    rcases hname with rfl | rfl | rfl
    · exact ⟨_, rfl, Checks.return_error.2 (members?_error.2 ⟨hj, rfl⟩)⟩
    all_goals exact ⟨_, rfl, Checks.return_error.2 (stringMap?_error.2 (.inl ⟨hj, rfl⟩))⟩
  | valueNotString hname hi hbefore hu =>
    simp only [List.mem_cons, List.not_mem_nil, or_false] at hname
    rcases hname with rfl | rfl
    all_goals exact ⟨_, rfl, Checks.return_error.2
      (stringMap?_error.2 (.inr ⟨_, _, _, _, rfl, hi, hbefore, hu, rfl⟩))⟩
  | notBoolean hj => exact ⟨_, rfl, Checks.return_error.2 (boolean?_error.2 ⟨hj, rfl⟩)⟩

end Keyword

/-! ## Schemas -/

namespace Schema

open Json

variable {p : Pointer} {name : String} {j : Json} {e : Problem}

theorem readKeyword_fits : (∃ k, readKeyword p name j = .ok k) ↔ Json.Fits name j := by
  have hdenotes : (∃ k, readKeyword p name j = .ok k) ↔ ∃ k, Keyword.Denotes name j k :=
    exists_congr fun k => readKeyword_placeless fun u _ => placeless u
  rw [hdenotes]
  constructor
  · rintro ⟨k, hk⟩
    exact fits_of_denotes hk fun u _ => (isSchema_iff u).1
  · intro h
    exact denotes_of_fits h fun u _ => (isSchema_iff u).2

theorem readAt_isSchema : (∃ t, readAt p j = .ok t) ↔ j.IsSchema := by
  rw [← isSchema_iff]
  exact exists_congr fun t => placeless j p t

/-- What reading says of a value, wherever it stands, is what the grammar says. -/
def Refuses (j : Json) : Prop := ∀ p e, readAt p j = .error e ↔ j.IsRefused p e

theorem readEntries_error {members : List (String × Json)} (h : ∀ m ∈ members, Refuses m.2) :
    readEntries p members = .error e ↔ ∃ (i : Nat) (key : String) (u : Json),
      members[i]? = some (key, u) ∧ (∀ m ∈ members.take i, m.2.IsSchema) ∧
        u.IsRefused (p.child key) e := by
  rw [readEntries_eq, Checks.mapM_error]
  simp only [Checks.exists_return_ok, Checks.return_error, readAt_isSchema]
  constructor
  · rintro ⟨i, ⟨key, u⟩, hi, hbefore, hu⟩
    exact ⟨i, key, u, hi, hbefore, (h _ (List.mem_of_getElem? hi) _ _).1 hu⟩
  · rintro ⟨i, key, u, hi, hbefore, hu⟩
    exact ⟨i, (key, u), hi, hbefore, (h _ (List.mem_of_getElem? hi) _ _).2 hu⟩

theorem readBranches_error {items : List Json} (h : ∀ u ∈ items, Refuses u) :
    readBranches p 0 items = .error e ↔ ∃ (i : Nat) (u : Json), items[i]? = some u ∧
      (∀ v ∈ items.take i, v.IsSchema) ∧ u.IsRefused (p.child (toString i)) e := by
  -- an item is at the index that its place is made of, counted from 0
  have hbefore : ∀ i, (∀ b ∈ items.zipIdx.take i, b.1.IsSchema) ↔
      ∀ v ∈ items.take i, v.IsSchema := by
    intro i
    rw [← List.forall_mem_map, List.map_take, List.zipIdx_map_fst]
  rw [readBranches_eq, Checks.mapM_error]
  simp only [readAt_isSchema, hbefore, List.getElem?_zipIdx, Option.map_eq_some_iff]
  constructor
  · rintro ⟨i, _, ⟨u, hi, rfl⟩, hb, hu⟩
    rw [Nat.zero_add] at hu
    exact ⟨i, u, hi, hb, (h u (List.mem_of_getElem? hi) _ _).1 hu⟩
  · rintro ⟨i, u, hi, hb, hu⟩
    refine ⟨i, (u, 0 + i), ⟨u, hi, rfl⟩, hb, ?_⟩
    rw [Nat.zero_add]
    exact (h u (List.mem_of_getElem? hi) _ _).2 hu

theorem misfits_of_readKeyword (h : ∀ u, j.Holds u → Refuses u)
    (hread : readKeyword p name j = .error e) : Misfits name j p e := by
  unfold readKeyword at hread
  split at hread
  · rename_i make members hmake
    obtain ⟨i, key, u, hi, hbefore, hu⟩ :=
      (readEntries_error fun m hm => h _ (.member hm)).1 (Checks.return_error.1 hread)
    exact .entry (Keyword.mem_ofEntries_of_payload hmake) hi hbefore hu
  · rename_i make hmake hnot
    cases hread
    exact .notEntries (Keyword.mem_ofEntries_of_payload hmake) (obj?_eq_none hnot)
  · rename_i make items hmake
    obtain ⟨i, u, hi, hbefore, hu⟩ :=
      (readBranches_error fun u hu => h _ (.item hu)).1 (Checks.return_error.1 hread)
    exact .branch (Keyword.mem_ofBranches_of_payload hmake) hi hbefore hu
  · rename_i make hmake hnot
    cases hread
    exact .notBranches (Keyword.mem_ofBranches_of_payload hmake) (arr?_eq_none hnot)
  · rename_i read hleaf
    exact .leaf (Keyword.malformed_of_leaf hleaf hread)

theorem readKeyword_of_misfits (h : ∀ u, j.Holds u → Refuses u) (hmisfits : Misfits name j p e) :
    readKeyword p name j = .error e := by
  unfold readKeyword
  cases hmisfits with
  | notEntries hname hj =>
    obtain ⟨make, hmake⟩ := Keyword.payload_ofEntries hname
    rw [hmake]
    cases j with
    | obj members => cases hj
    | _ => rfl
  | entry hname hi hbefore hu =>
    obtain ⟨make, hmake⟩ := Keyword.payload_ofEntries hname
    rw [hmake]
    refine Checks.return_error.2 ((readEntries_error fun m hm => h _ (.member hm)).2 ?_)
    exact ⟨_, _, _, hi, hbefore, hu⟩
  | notBranches hname hj =>
    obtain ⟨make, hmake⟩ := Keyword.payload_ofBranches hname
    rw [hmake]
    cases j with
    | arr items => cases hj
    | _ => rfl
  | branch hname hi hbefore hu =>
    obtain ⟨make, hmake⟩ := Keyword.payload_ofBranches hname
    rw [hmake]
    refine Checks.return_error.2 ((readBranches_error fun u hu => h _ (.item hu)).2 ?_)
    exact ⟨_, _, hi, hbefore, hu⟩
  | leaf hleaf =>
    obtain ⟨read, hpayload, hread⟩ := hleaf.read
    rw [hpayload]
    exact hread

/-- **Reading refuses as the grammar says**: the first part that does not fit counts. -/
theorem isRefused_iff (j : Json) : ∀ p e, readAt p j = .error e ↔ j.IsRefused p e := by
  induction j using Json.induction_on_parts with
  | h j ih =>
    intro p e
    cases j with
    | obj members =>
      have hmembers : ∀ m ∈ members, ∀ q, readKeyword q m.1 m.2 = .error e ↔
          Misfits m.1 m.2 q e := by
        intro m hm q
        -- the subschemas of a member are two steps below the object
        have hparts : ∀ u, m.2.Holds u → Refuses u := fun u hu => ih m.2 u (.member hm) hu
        exact ⟨misfits_of_readKeyword hparts, readKeyword_of_misfits hparts⟩
      rw [readAt, Checks.return_error, readKeywords_eq, Checks.mapM_error]
      simp only [readKeyword_fits]
      constructor
      · rintro ⟨i, m, hi, hbefore, hm⟩
        exact .member hi hbefore ((hmembers m (List.mem_of_getElem? hi) _).1 hm)
      · intro h
        cases h with
        | notSchema hj _ => cases hj
        | @member _ i name u _ _ hi hbefore hu =>
          exact ⟨i, (name, u), hi, hbefore, (hmembers _ (List.mem_of_getElem? hi) _).2 hu⟩
    | bool b =>
      cases b with
      | true =>
        constructor
        · intro h
          cases h
        · intro h
          cases h with
          | notSchema _ hb => cases hb
      | false =>
        constructor
        · rintro ⟨⟩
          exact .falseSchema
        · intro h
          cases h with
          | falseSchema => rfl
          | notSchema _ hb => cases hb
    | _ =>
      constructor
      · rintro ⟨⟩
        exact .notSchema rfl rfl
      · intro h
        cases h
        rfl

end Schema
end XsdSynthesis
