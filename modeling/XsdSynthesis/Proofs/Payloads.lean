import XsdSynthesis.Proofs.Success
import XsdSynthesis.Schema.Reader

/-!
# XsdSynthesis.Proofs.Payloads

The values of keywords. A value that holds no subschemas is read as a keyword if and only if it is a
`Leaf` of the grammar under the spelling of that keyword, and `reads_payload` says of every spelling
how its value is read. Places do not matter to what is read, only to what is reported.
-/

namespace XsdSynthesis

theorem ValueType.ofName?_eq_some {name : String} {t : ValueType} :
    ofName? name = some t ↔ name = t.name := by
  constructor
  · intro h
    unfold ofName? at h
    have hname := List.find?_some h
    exact (beq_iff_eq.1 hname).symm
  · rintro rfl
    exact ofName?_name t

namespace Keyword

/-! ## Values -/

section Values

variable {p : Pointer} {j : Json}

theorem string?_ok {s : String} : string? p j = .ok s ↔ j = .str s := by
  cases j <;> simp [string?]

theorem typeName?_ok {s : String} : typeName? p j = .ok s ↔ j = .str s := by
  cases j <;> simp [typeName?]

theorem boolean?_ok {b : Bool} : boolean? p j = .ok b ↔ j = .bool b := by
  cases j <;> simp [boolean?]

theorem members?_ok {members : List (String × Json)} :
    members? p j = .ok members ↔ j = .obj members := by
  cases j <;> simp [members?]

theorem valueType?_ok {name : String} {t : ValueType} :
    valueType? p name = .ok t ↔ name = t.name := by
  rw [← ValueType.ofName?_eq_some, valueType?]
  cases ValueType.ofName? name <;> simp

/-- A list is read item by item if and only if it is written item by item. -/
theorem mapM_written {α β : Type} {read : α → Except Problem β} {write : β → α} {as : List α}
    {bs : List β} (h : ∀ a b, read a = .ok b ↔ a = write b) :
    as.mapM read = .ok bs ↔ as = bs.map write := by
  rw [Checks.mapM_ok, ← List.forall₂_eq_eq_eq, List.forall₂_map_right_iff]
  simp only [h]

theorem strings?_ok {names : List String} :
    strings? p j = .ok names ↔ j = .arr (names.map .str) := by
  cases j with
  | arr items =>
    rw [strings?, mapM_written fun _ _ => string?_ok, Json.arr.injEq]
  | _ => simp [strings?]

theorem stringMap?_ok {bindings : List (String × String)} :
    stringMap? p j = .ok bindings ↔ j = .obj (bindings.map fun b => (b.1, .str b.2)) := by
  have hentry : ∀ (m : String × Json) (b : String × String),
      (do return (m.1, ← string? (p.child m.1) m.2)) = Except.ok b ↔ m = (b.1, .str b.2) := by
    rintro ⟨name, value⟩ ⟨name', s⟩
    simp only [Checks.bind_ok, Checks.pure_ok, string?_ok, Prod.mk.injEq]
    constructor
    · rintro ⟨_, rfl, rfl, rfl⟩
      exact ⟨rfl, rfl⟩
    · rintro ⟨rfl, rfl⟩
      exact ⟨_, rfl, rfl, rfl⟩
  simp only [stringMap?, Checks.bind_ok, members?_ok]
  constructor
  · rintro ⟨members, rfl, h⟩
    rw [(mapM_written hentry).1 h]
  · intro h
    exact ⟨_, h, (mapM_written hentry).2 rfl⟩

theorem types?_ok {ts : List ValueType} :
    types? p j = .ok ts ↔
      (∃ t, j = .str t.name ∧ ts = [t]) ∨ ts ≠ [] ∧ j = .arr (ts.map fun t => .str t.name) := by
  cases j with
  | str name =>
    simp only [types?, Checks.bind_ok, Checks.pure_ok, valueType?_ok]
    constructor
    · rintro ⟨t, rfl, rfl⟩
      exact .inl ⟨t, rfl, rfl⟩
    · rintro (⟨t, ⟨⟩, rfl⟩ | ⟨_, ⟨⟩⟩)
      exact ⟨t, rfl, rfl⟩
  | arr items =>
    cases items with
    | nil =>
      refine ⟨nofun, ?_⟩
      rintro (⟨_, ⟨⟩, _⟩ | ⟨hne, h⟩)
      exact absurd (List.map_eq_nil_iff.1 (Json.arr.inj h).symm) hne
    | cons first rest =>
      simp only [types?, Checks.bind_ok, mapM_written fun _ _ => typeName?_ok,
        mapM_written fun _ _ => valueType?_ok]
      constructor
      · rintro ⟨_, hitems, rfl⟩
        rw [List.map_map] at hitems
        refine .inr ⟨?_, congrArg Json.arr hitems⟩
        rintro rfl
        cases hitems
      · rintro (⟨_, ⟨⟩, _⟩ | ⟨_, h⟩)
        exact ⟨ts.map ValueType.name, by rw [Json.arr.inj h, List.map_map]; rfl, rfl⟩
  | _ => simp [types?]

end Values

end Keyword

/-! ## Spellings -/

namespace Spelling

/-- The keywords whose value is an object of subschemas. -/
def ofEntries : List String := ["$defs", "definitions", "properties"]

/-- The keywords whose value is an array of subschemas. -/
def ofBranches : List String := ["oneOf", "anyOf", "allOf"]

/-- The keywords of the vocabulary. -/
def known : List String :=
  ["$schema", "$id", "$ref", "type"] ++ ofEntries ++ ofBranches ++
    ["required", "info", namespaces, documentAttributes, asAttribute]

end Spelling

theorem Container.name_inj {c c' : Container} : c.name = c'.name ↔ c = c' := by
  cases c <;> cases c' <;> decide

theorem Container.name_mem_ofEntries (c : Container) : c.name ∈ Spelling.ofEntries := by
  cases c <;> decide

theorem Combinator.name_mem_ofBranches (c : Combinator) : c.name ∈ Spelling.ofBranches := by
  cases c <;> decide

namespace Keyword

/-- A value that holds no subschemas, with the keyword that it gives under a spelling. -/
inductive Leaf : String → Json → Keyword → Prop where
  | schema {uri : String} : Leaf "$schema" (.str uri) (.schema uri)
  | id {uri : String} : Leaf "$id" (.str uri) (.id uri)
  | ref {reference : String} : Leaf "$ref" (.str reference) (.ref reference)
  | typeName {t : ValueType} : Leaf "type" (.str t.name) (.type [t])
  | typeNames {ts : List ValueType} : ts ≠ [] →
      Leaf "type" (.arr (ts.map fun t => .str t.name)) (.type ts)
  | required {names : List String} : Leaf "required" (.arr (names.map .str)) (.required names)
  | info {members : List (String × Json)} : Leaf "info" (.obj members) (.info members)
  | namespaces {bindings : List (String × String)} :
      Leaf Spelling.namespaces (.obj (bindings.map fun b => (b.1, .str b.2))) (.namespaces bindings)
  | documentAttributes {attributes : List (String × String)} :
      Leaf Spelling.documentAttributes (.obj (attributes.map fun a => (a.1, .str a.2)))
        (.documentAttributes attributes)
  | asAttribute {flag : Bool} : Leaf Spelling.asAttribute (.bool flag) (.asAttribute flag)
  | unknown {name : String} {j : Json} : name ∉ Spelling.known → Leaf name j (.unknown name j)

namespace Leaf

variable {name : String} {j : Json} {k : Keyword}

theorem name_eq (h : Leaf name j k) : k.name = name := by
  cases h <;> rfl

theorem kind_ne_properties (h : Leaf name j k) : k.kind ≠ .properties := by
  cases h <;> nofun

theorem kind_ne_definitions (h : Leaf name j k) (c : Container) : k.kind ≠ .definitions c := by
  cases h <;> nofun

end Leaf

/-- How the value under a spelling is read. -/
inductive Reads (name : String) : Payload → Prop where
  | definitions {c : Container} : name = c.name → Reads name (.entries (.definitions c))
  | properties : name = "properties" → Reads name (.entries .properties)
  | combinator {c : Combinator} : name = c.name → Reads name (.branches (.combinator c))
  | leaf {read : Pointer → Json → Except Problem Keyword} :
      (∀ p j k, read p j = .ok k → Leaf name j k) → Reads name (.leaf read)

theorem reads_leaf {α : Type} {name : String} {value? : Pointer → Json → Except Problem α}
    {make : α → Keyword} (h : ∀ {p j a}, value? p j = .ok a → Leaf name j (make a)) :
    Reads name (.leaf fun p j => return make (← value? p j)) := by
  refine .leaf fun p j k hread => ?_
  obtain ⟨a, ha, hk⟩ := Checks.bind_ok.1 hread
  cases Checks.pure_ok.1 hk
  exact h ha

theorem reads_payload (name : String) : Reads name (payload name) := by
  unfold payload
  split
  case h_1 => exact reads_leaf fun h => string?_ok.1 h ▸ .schema
  case h_2 => exact reads_leaf fun h => string?_ok.1 h ▸ .id
  case h_3 => exact reads_leaf fun h => string?_ok.1 h ▸ .ref
  case h_4 =>
    refine reads_leaf fun h => ?_
    rcases types?_ok.1 h with ⟨t, rfl, rfl⟩ | ⟨hne, rfl⟩
    · exact .typeName
    · exact .typeNames hne
  case h_5 => exact .definitions rfl
  case h_6 => exact .definitions rfl
  case h_7 => exact .properties rfl
  case h_8 => exact .combinator rfl
  case h_9 => exact .combinator rfl
  case h_10 => exact .combinator rfl
  case h_11 => exact reads_leaf fun h => strings?_ok.1 h ▸ .required
  case h_12 => exact reads_leaf fun h => members?_ok.1 h ▸ .info
  case h_13 => exact reads_leaf fun h => stringMap?_ok.1 h ▸ .namespaces
  case h_14 => exact reads_leaf fun h => stringMap?_ok.1 h ▸ .documentAttributes
  case h_15 => exact reads_leaf fun h => boolean?_ok.1 h ▸ .asAttribute
  case h_16 =>
    refine .leaf fun p j k h => ?_
    cases Checks.pure_ok.1 h
    refine .unknown ?_
    simp only [Spelling.known, Spelling.ofEntries, Spelling.ofBranches, Spelling.namespaces,
      Spelling.documentAttributes, Spelling.asAttribute, List.cons_append, List.nil_append,
      List.mem_cons, List.not_mem_nil, or_false, not_or]
    and_intros <;> assumption

theorem payload_unknown {name : String} (h : name ∉ Spelling.known) :
    payload name = .leaf fun _ j => return .unknown name j := by
  unfold payload
  split
  case h_16 => rfl
  all_goals exact absurd (by decide) h

theorem mem_ofEntries_of_payload {name : String} {make : List (String × Schema) → Keyword}
    (h : payload name = .entries make) : name ∈ Spelling.ofEntries := by
  have hreads := reads_payload name
  rw [h] at hreads
  cases hreads with
  | @definitions c hname => exact hname ▸ c.name_mem_ofEntries
  | properties hname => exact hname ▸ by decide

theorem mem_ofBranches_of_payload {name : String} {make : List Schema → Keyword}
    (h : payload name = .branches make) : name ∈ Spelling.ofBranches := by
  have hreads := reads_payload name
  rw [h] at hreads
  cases hreads with
  | @combinator c hname => exact hname ▸ c.name_mem_ofBranches

theorem payload_ofEntries {name : String} (h : name ∈ Spelling.ofEntries) :
    ∃ make, payload name = .entries make := by
  simp only [Spelling.ofEntries, List.mem_cons, List.not_mem_nil, or_false] at h
  rcases h with rfl | rfl | rfl <;> exact ⟨_, rfl⟩

theorem payload_ofBranches {name : String} (h : name ∈ Spelling.ofBranches) :
    ∃ make, payload name = .branches make := by
  simp only [Spelling.ofBranches, List.mem_cons, List.not_mem_nil, or_false] at h
  rcases h with rfl | rfl | rfl <;> exact ⟨_, rfl⟩

/-- A leaf is read from any place. -/
theorem Leaf.read {name : String} {j : Json} {k : Keyword} (h : Leaf name j k) :
    ∃ read, payload name = .leaf read ∧ ∀ p, read p j = .ok k := by
  cases h with
  | typeName =>
    exact ⟨_, rfl, fun p => Checks.bind_ok.2 ⟨_, types?_ok.2 (.inl ⟨_, rfl, rfl⟩), rfl⟩⟩
  | typeNames hne =>
    exact ⟨_, rfl, fun p => Checks.bind_ok.2 ⟨_, types?_ok.2 (.inr ⟨hne, rfl⟩), rfl⟩⟩
  | required => exact ⟨_, rfl, fun p => Checks.bind_ok.2 ⟨_, strings?_ok.2 rfl, rfl⟩⟩
  | namespaces => exact ⟨_, rfl, fun p => Checks.bind_ok.2 ⟨_, stringMap?_ok.2 rfl, rfl⟩⟩
  | documentAttributes => exact ⟨_, rfl, fun p => Checks.bind_ok.2 ⟨_, stringMap?_ok.2 rfl, rfl⟩⟩
  | unknown hname => exact ⟨_, payload_unknown hname, fun p => rfl⟩
  | _ => exact ⟨_, rfl, fun p => rfl⟩

end Keyword
end XsdSynthesis
