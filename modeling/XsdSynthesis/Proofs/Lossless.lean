import XsdSynthesis.Proofs.References
import XsdSynthesis.Proofs.Refusals

/-!
# XsdSynthesis.Proofs.Lossless

Nothing is lost in reading. `Schema.toJson` writes a schema back: what it writes for a schema that was
read is the value it was read from, in normal form (`normal_of_ofJson?`), and from that the same schema
is read again (`ofJson?_toJson`). So two values give the same schema if and only if their normal forms
are equal. Where a subschema stands in the value, a schema stands in what was read, with the same
names in the same order, and the other way round (`reading_lossless`).
-/

namespace XsdSynthesis

namespace Json

/-! ## Normal form -/

mutual

/-- The value in normal form: where a schema stands, `true` is `{}`, and a single type name is an
array. -/
def normal : Json → Json
  | .bool true => .obj []
  | .obj members => .obj (normalMembers members)
  | j => j

/-- The members of a schema object in normal form. -/
def normalMembers : List (String × Json) → List (String × Json)
  | [] => []
  | (name, j) :: rest => (name, normalValue name j) :: normalMembers rest

/-- The value of a keyword in normal form. -/
def normalValue (name : String) : Json → Json
  | .obj members => .obj (if name ∈ Spelling.ofEntries then normalEntries members else members)
  | .arr items => .arr (if name ∈ Spelling.ofBranches then normalItems items else items)
  | .str s => if name = "type" then .arr [.str s] else .str s
  | j => j

/-- The subschemas of an object in normal form. -/
def normalEntries : List (String × Json) → List (String × Json)
  | [] => []
  | (name, j) :: rest => (name, normal j) :: normalEntries rest

/-- The subschemas of an array in normal form. -/
def normalItems : List Json → List Json
  | [] => []
  | j :: rest => normal j :: normalItems rest

end

end Json

/-! ## Schemas as values -/

mutual

/-- The value that a schema is written as. -/
def Schema.toJson : Schema → Json
  | .mk keywords => .obj (Keyword.membersJson keywords)

/-- The members that keywords are written as. -/
def Keyword.membersJson : List Keyword → List (String × Json)
  | [] => []
  | k :: rest => (k.name, k.toJson) :: Keyword.membersJson rest

/-- The value of a keyword. Types are always written as an array. -/
def Keyword.toJson : Keyword → Json
  | .schema uri => .str uri
  | .id uri => .str uri
  | .type types => .arr (types.map fun t => .str t.name)
  | .definitions _ entries => .obj (Schema.entriesJson entries)
  | .info members => .obj members
  | .combinator _ branches => .arr (Schema.branchesJson branches)
  | .properties entries => .obj (Schema.entriesJson entries)
  | .required names => .arr (names.map .str)
  | .ref reference => .str reference
  | .namespaces bindings => .obj (bindings.map fun b => (b.1, .str b.2))
  | .documentAttributes attributes => .obj (attributes.map fun a => (a.1, .str a.2))
  | .asAttribute flag => .bool flag
  | .unknown _ value => value

/-- The members that named subschemas are written as. -/
def Schema.entriesJson : List (String × Schema) → List (String × Json)
  | [] => []
  | (name, t) :: rest => (name, t.toJson) :: Schema.entriesJson rest

/-- The items that subschemas are written as. -/
def Schema.branchesJson : List Schema → List Json
  | [] => []
  | t :: rest => t.toJson :: Schema.branchesJson rest

end

open Json

namespace Schema

variable {name : String} {j : Json} {k : Keyword} {t : Schema}

section Written

variable {members : List (String × Json)} {entries : List (String × Schema)} {items : List Json}
  {branches : List Schema} {keywords : List Keyword}

theorem normalEntries_eq (h : List.Forall₂ (fun m e => e.1 = m.1 ∧ m.2.normal = e.2.toJson)
    members entries) : normalEntries members = entriesJson entries := by
  induction h with
  | nil => rfl
  | @cons m e _ _ hme _ ih =>
    obtain ⟨name, u⟩ := m
    obtain ⟨_, t⟩ := e
    obtain ⟨rfl, ht⟩ := hme
    rw [normalEntries, entriesJson, ih, ht]

theorem normalItems_eq (h : List.Forall₂ (fun j t => j.normal = t.toJson) items branches) :
    normalItems items = branchesJson branches := by
  induction h with
  | nil => rfl
  | cons hjt _ ih => rw [normalItems, branchesJson, ih, hjt]

theorem normalMembers_eq
    (h : List.Forall₂ (fun m k => k.name = m.1 ∧ normalValue m.1 m.2 = k.toJson) members keywords) :
    normalMembers members = Keyword.membersJson keywords := by
  induction h with
  | nil => rfl
  | @cons m k _ _ hmk _ ih =>
    obtain ⟨name, v⟩ := m
    obtain ⟨rfl, hv⟩ := hmk
    rw [normalMembers, Keyword.membersJson, ih, hv]

theorem reads_entriesJson (h : ∀ e ∈ entries, ofJson? e.2.toJson = .ok e.2) :
    List.Forall₂ EntryReads (entriesJson entries) entries := by
  induction entries with
  | nil => exact .nil
  | cons e rest ih =>
    obtain ⟨he, hrest⟩ := List.forall_mem_cons.1 h
    exact .cons ⟨rfl, he⟩ (ih hrest)

theorem reads_branchesJson (h : ∀ t ∈ branches, ofJson? t.toJson = .ok t) :
    List.Forall₂ (fun j t => ofJson? j = .ok t) (branchesJson branches) branches := by
  induction branches with
  | nil => exact .nil
  | cons t rest ih =>
    obtain ⟨ht, hrest⟩ := List.forall_mem_cons.1 h
    exact .cons ht (ih hrest)

theorem denotes_membersJson (h : ∀ k ∈ keywords, Keyword.Denotes k.name k.toJson k) :
    List.Forall₂ (fun m k => Keyword.Denotes m.1 m.2 k) (Keyword.membersJson keywords)
      keywords := by
  induction keywords with
  | nil => exact .nil
  | cons k rest ih =>
    obtain ⟨hk, hrest⟩ := List.forall_mem_cons.1 h
    exact .cons hk (ih hrest)

end Written

theorem normalValue_unknown (h : name ∉ Spelling.known) (j : Json) : normalValue name j = j := by
  have hentries : name ∉ Spelling.ofEntries := fun hm => h (by simp [Spelling.known, hm])
  have hbranches : name ∉ Spelling.ofBranches := fun hm => h (by simp [Spelling.known, hm])
  have htype : name ≠ "type" := by
    rintro rfl
    exact h (by decide)
  cases j with
  | obj members => rw [normalValue, if_neg hentries]
  | arr items => rw [normalValue, if_neg hbranches]
  | str s => rw [normalValue, if_neg htype]
  | _ => rfl

/-- A keyword is written as the normal form of what it was read from. -/
theorem normalValue_of_denotes (h : Keyword.Denotes name j k)
    (ih : ∀ u, j.Holds u → ∀ t, ofJson? u = .ok t → u.normal = t.toJson) :
    normalValue name j = k.toJson := by
  have hentries : ∀ {members : List (String × Json)} {entries : List (String × Schema)},
      j = .obj members → List.Forall₂ EntryReads members entries →
      normalEntries members = entriesJson entries := by
    rintro members entries rfl hall
    exact normalEntries_eq (Tables.forall₂_imp hall fun m hm e he =>
      ⟨he.1, ih _ (.member hm) _ he.2⟩)
  cases h with
  | @definitions c members entries hall =>
    rw [normalValue, if_pos c.name_mem_ofEntries, hentries rfl hall, Keyword.toJson]
  | properties hall =>
    rw [normalValue, if_pos (by decide), hentries rfl hall, Keyword.toJson]
  | @combinator c items branches hall =>
    have hitems := normalItems_eq (Tables.forall₂_imp hall fun u hu t ht => ih u (.item hu) t ht)
    rw [normalValue, if_pos c.name_mem_ofBranches, hitems, Keyword.toJson]
  | leaf hleaf =>
    cases hleaf with
    | unknown hname => exact normalValue_unknown hname j
    | _ => rfl

/-- **A schema is written as the normal form of what it was read from.** -/
theorem normal_of_ofJson? (j : Json) : ∀ t, ofJson? j = .ok t → j.normal = t.toJson := by
  induction j using Json.induction_on_parts with
  | h j ih =>
    intro t ht
    rcases ofJson?_ok.1 ht with ⟨members, rfl, hall⟩ | ⟨rfl, rfl⟩
    · obtain ⟨keywords⟩ := t
      rw [normal, toJson]
      refine congrArg Json.obj (normalMembers_eq (Tables.forall₂_imp hall fun m hm k hk => ?_))
      exact ⟨hk.name_eq, normalValue_of_denotes hk fun u hu => ih m.2 u (.member hm) hu⟩
    · rfl

theorem denotes_toJson (h : Keyword.Denotes name j k)
    (ih : ∀ u, j.Holds u → ∀ t, ofJson? u = .ok t → ofJson? t.toJson = .ok t) :
    Keyword.Denotes k.name k.toJson k := by
  have hentries : ∀ {members : List (String × Json)} {entries : List (String × Schema)},
      j = .obj members → List.Forall₂ EntryReads members entries →
      ∀ e ∈ entries, ofJson? e.2.toJson = .ok e.2 := by
    rintro members entries rfl hall e he
    obtain ⟨m, hm, _, ht⟩ := Tables.exists_of_mem_right hall he
    exact ih _ (.member hm) _ ht
  cases h with
  | definitions hall => exact .definitions (reads_entriesJson (hentries rfl hall))
  | properties hall => exact .properties (reads_entriesJson (hentries rfl hall))
  | combinator hall =>
    refine .combinator (reads_branchesJson fun t ht => ?_)
    obtain ⟨u, hu, hread⟩ := Tables.exists_of_mem_right hall ht
    exact ih u (.item hu) t hread
  | leaf hleaf =>
    cases hleaf with
    | typeName => exact .leaf (.typeNames (by simp))
    | typeNames hne => exact .leaf (.typeNames hne)
    | unknown hname => exact .leaf (.unknown hname)
    | _ => exact .leaf (by constructor)

/-- **What a schema is written as is read as that schema.** -/
theorem ofJson?_toJson (j : Json) : ∀ t, ofJson? j = .ok t → ofJson? t.toJson = .ok t := by
  induction j using Json.induction_on_parts with
  | h j ih =>
    intro t ht
    rcases ofJson?_ok.1 ht with ⟨members, rfl, hall⟩ | ⟨rfl, rfl⟩
    · obtain ⟨keywords⟩ := t
      rw [toJson]
      refine ofJson?_obj.2 (denotes_membersJson fun k hk => ?_)
      obtain ⟨m, hm, hdenotes⟩ := Tables.exists_of_mem_right hall hk
      exact denotes_toJson hdenotes fun u hu => ih m.2 u (.member hm) hu
    · rfl

/-- Values of one schema are those of one normal form. -/
theorem eq_iff_normal_eq {j' : Json} {t' : Schema} (ht : ofJson? j = .ok t)
    (ht' : ofJson? j' = .ok t') : t = t' ↔ j.normal = j'.normal := by
  rw [normal_of_ofJson? j t ht, normal_of_ofJson? j' t' ht']
  constructor
  · rintro rfl
    rfl
  · intro hsame
    have hread := ofJson?_toJson j t ht
    rw [hsame, ofJson?_toJson j' t' ht'] at hread
    exact (Except.ok.inj hread).symm

end Schema

/-! ## Subschemas -/

namespace Json

/-- The values that stand where the grammar has schemas, by the paths that lead to them. -/
inductive SubschemaAt (j : Json) : List String → Json → Prop where
  | root : SubschemaAt j [] j
  | entry {path : List String} {members entries : List (String × Json)} {key name : String}
      {u : Json} : SubschemaAt j path (.obj members) → key ∈ Spelling.ofEntries →
      (key, .obj entries) ∈ members → (name, u) ∈ entries → SubschemaAt j (path ++ [key, name]) u
  | branch {path : List String} {members : List (String × Json)} {items : List Json}
      {key : String} {index : Nat} {u : Json} : SubschemaAt j path (.obj members) →
      key ∈ Spelling.ofBranches → (key, .arr items) ∈ members → items[index]? = some u →
      SubschemaAt j (path ++ [key, toString index]) u

theorem SubschemaAt.distinct {j u : Json} {path : List String} (h : j.SubschemaAt path u)
    (hj : j.Distinct) : u.Distinct := by
  induction h with
  | root => exact hj
  | entry _ _ hm hu ih => exact (ih.member hm).member hu
  | branch _ _ hm hu ih => exact (ih.member hm).item (List.mem_of_getElem? hu)

/-- The names of the members of an object. -/
def keys : Json → List String
  | .obj members => members.map Prod.fst
  | _ => []

end Json

namespace Keyword

/-- The named subschemas of a keyword that has an object of them. -/
def entries? : Keyword → Option (List (String × Schema))
  | .definitions _ entries | .properties entries => some entries
  | _ => none

/-- The subschemas of a keyword that has an array of them. -/
def branches? : Keyword → Option (List Schema)
  | .combinator _ branches => some branches
  | _ => none

variable {name : String} {j : Json} {k : Keyword}

theorem Leaf.name_notMem (h : Leaf name j k) :
    name ∉ Spelling.ofEntries ∧ name ∉ Spelling.ofBranches := by
  cases h with
  | unknown hname =>
    exact ⟨fun hm => hname (by simp [Spelling.known, hm]),
      fun hm => hname (by simp [Spelling.known, hm])⟩
  | _ => decide

theorem Leaf.childless (h : Leaf name j k) : k.entries? = none ∧ k.branches? = none := by
  cases h <;> exact ⟨rfl, rfl⟩

namespace Denotes

theorem entries (h : Denotes name j k) {entries : List (String × Schema)}
    (he : k.entries? = some entries) : name ∈ Spelling.ofEntries ∧ ∃ members, j = .obj members ∧
      List.Forall₂ Schema.EntryReads members entries := by
  cases h with
  | @definitions c members _ hall =>
    cases he
    exact ⟨c.name_mem_ofEntries, members, rfl, hall⟩
  | properties hall =>
    cases he
    exact ⟨by decide, _, rfl, hall⟩
  | combinator _ => cases he
  | leaf hleaf => cases hleaf.childless.1.symm.trans he

theorem branches (h : Denotes name j k) {branches : List Schema}
    (hb : k.branches? = some branches) : name ∈ Spelling.ofBranches ∧ ∃ items, j = .arr items ∧
      List.Forall₂ (fun j t => Schema.ofJson? j = .ok t) items branches := by
  cases h with
  | definitions _ => cases hb
  | properties _ => cases hb
  | @combinator c items _ hall =>
    cases hb
    exact ⟨c.name_mem_ofBranches, items, rfl, hall⟩
  | leaf hleaf => cases hleaf.childless.2.symm.trans hb

theorem of_entries {members : List (String × Json)} (h : Denotes name (.obj members) k)
    (hname : name ∈ Spelling.ofEntries) : ∃ entries, k.entries? = some entries ∧
      List.Forall₂ Schema.EntryReads members entries := by
  cases h with
  | definitions hall => exact ⟨_, rfl, hall⟩
  | properties hall => exact ⟨_, rfl, hall⟩
  | leaf hleaf => exact absurd hname hleaf.name_notMem.1

theorem of_branches {items : List Json} (h : Denotes name (.arr items) k)
    (hname : name ∈ Spelling.ofBranches) : ∃ branches, k.branches? = some branches ∧
      List.Forall₂ (fun j t => Schema.ofJson? j = .ok t) items branches := by
  cases h with
  | combinator hall => exact ⟨_, rfl, hall⟩
  | leaf hleaf => exact absurd hname hleaf.name_notMem.2

end Denotes
end Keyword

namespace Schema

/-- The subschemas of a schema at any depth, by the paths that lead to them. -/
inductive SubschemaAt (s : Schema) : List String → Schema → Prop where
  | root : SubschemaAt s [] s
  | entry {path : List String} {t u : Schema} {k : Keyword} {entries : List (String × Schema)}
      {name : String} : SubschemaAt s path t → k ∈ t.keywords → k.entries? = some entries →
      (name, u) ∈ entries → SubschemaAt s (path ++ [k.name, name]) u
  | branch {path : List String} {t u : Schema} {k : Keyword} {branches : List Schema}
      {index : Nat} : SubschemaAt s path t → k ∈ t.keywords → k.branches? = some branches →
      branches[index]? = some u → SubschemaAt s (path ++ [k.name, toString index]) u

variable {s t : Schema} {j u : Json} {path : List String}

/-- A subschema of the value is read as a subschema of the schema, at the same path. -/
theorem subschemaAt_of_json (hs : ofJson? j = .ok s) (h : j.SubschemaAt path u) :
    ∃ t, s.SubschemaAt path t ∧ ofJson? u = .ok t := by
  induction h with
  | root => exact ⟨s, .root, hs⟩
  | entry _ hkey hm hu ih =>
    obtain ⟨t, ht, hread⟩ := ih
    obtain ⟨k, hk, hdenotes⟩ := Tables.exists_of_mem_left (ofJson?_obj.1 hread) hm
    cases hdenotes.name_eq
    obtain ⟨entries, he, hall⟩ := hdenotes.of_entries hkey
    obtain ⟨⟨_, v⟩, hv, rfl, hread'⟩ := Tables.exists_of_mem_left hall hu
    exact ⟨v, .entry ht hk he hv, hread'⟩
  | branch _ hkey hm hu ih =>
    obtain ⟨t, ht, hread⟩ := ih
    obtain ⟨k, hk, hdenotes⟩ := Tables.exists_of_mem_left (ofJson?_obj.1 hread) hm
    cases hdenotes.name_eq
    obtain ⟨branches, hb, hall⟩ := hdenotes.of_branches hkey
    obtain ⟨v, hv, hread'⟩ := Tables.exists_of_getElem? hall hu
    exact ⟨v, .branch ht hk hb hv, hread'⟩

/-- A subschema of the schema is read from a subschema of the value, at the same path. -/
theorem json_of_subschemaAt (hs : ofJson? j = .ok s) (h : s.SubschemaAt path t) :
    ∃ u, j.SubschemaAt path u ∧ ofJson? u = .ok t := by
  have hmember : ∀ {u : Json} {t : Schema} {k : Keyword}, ofJson? u = .ok t → k ∈ t.keywords →
      ∃ members m, u = .obj members ∧ m ∈ members ∧ Keyword.Denotes m.1 m.2 k := by
    intro u t k hread hk
    rcases ofJson?_ok.1 hread with ⟨members, rfl, hall⟩ | ⟨_, rfl⟩
    · obtain ⟨m, hm, hdenotes⟩ := Tables.exists_of_mem_right hall hk
      exact ⟨members, m, rfl, hm, hdenotes⟩
    · cases hk
  induction h with
  | root => exact ⟨j, .root, hs⟩
  | entry _ hk he hv ih =>
    obtain ⟨u, hu, hread⟩ := ih
    obtain ⟨members, ⟨key, value⟩, rfl, hm, hdenotes⟩ := hmember hread hk
    cases hdenotes.name_eq
    obtain ⟨hkey, values, rfl, hall⟩ := hdenotes.entries he
    obtain ⟨⟨_, w⟩, hw, rfl, hread'⟩ := Tables.exists_of_mem_right hall hv
    exact ⟨w, .entry hu hkey hm hw, hread'⟩
  | branch _ hk hb hv ih =>
    obtain ⟨u, hu, hread⟩ := ih
    obtain ⟨members, ⟨key, value⟩, rfl, hm, hdenotes⟩ := hmember hread hk
    cases hdenotes.name_eq
    obtain ⟨hkey, items, rfl, hall⟩ := hdenotes.branches hb
    obtain ⟨w, hw, hread'⟩ := Tables.exists_of_getElem? hall.flip hv
    exact ⟨w, .branch hu hkey hm hw, hread'⟩

/-- A schema shows the value it was read from: the names of its keywords are those of the members, in
their order, and no kind of the vocabulary occurs twice. -/
structure Shows (t : Schema) (u : Json) : Prop where
  names : t.keywords.map Keyword.name = u.keys
  kinds : t.keywords.Pairwise fun k other => k.kind ≠ .unknown → other.kind ≠ k.kind

theorem shows_of_ofJson? (hu : u.Distinct) (h : ofJson? u = .ok t) : t.Shows u := by
  refine ⟨?_, IsRead.kinds ⟨.root, u, hu, h⟩⟩
  rcases ofJson?_ok.1 h with ⟨members, rfl, hall⟩ | ⟨rfl, rfl⟩
  · exact Tables.map_eq_map hall fun _ _ hk => hk.name_eq
  · rfl

end Schema

/-- **Reading is lossless.** A value is read as a schema if and only if the grammar accepts it, and what
it is refused with otherwise is what is wrong with the first part that does not fit. Where the value has
subschemas, at any depth, the schema has them too, and nowhere else; the keywords of each have the names
of the members of its object, in their order, and none of the vocabulary occurs twice. Another value is
read as the same schema if and only if it has the same normal form. -/
theorem reading_lossless {j : Json} (hj : j.Distinct) :
    ((∃ s, Schema.ofJson? j = .ok s) ↔ j.IsSchema) ∧
    (∀ e, Schema.ofJson? j = .error e ↔ j.IsRefused .root e) ∧
    ∀ s, Schema.ofJson? j = .ok s →
      (∀ path u, j.SubschemaAt path u → ∃ t, s.SubschemaAt path t ∧ t.Shows u) ∧
      (∀ path t, s.SubschemaAt path t → ∃ u, j.SubschemaAt path u ∧ t.Shows u) ∧
      ∀ j' s', Schema.ofJson? j' = .ok s' → (s = s' ↔ j.normal = j'.normal) := by
  refine ⟨Schema.isSchema_iff j, Schema.isRefused_iff j .root,
    fun s hs => ⟨fun path u hu => ?_, fun path t ht => ?_, ?_⟩⟩
  · obtain ⟨t, ht, hread⟩ := Schema.subschemaAt_of_json hs hu
    exact ⟨t, ht, Schema.shows_of_ofJson? (hu.distinct hj) hread⟩
  · obtain ⟨u, hu, hread⟩ := Schema.json_of_subschemaAt hs ht
    exact ⟨u, hu, Schema.shows_of_ofJson? (hu.distinct hj) hread⟩
  · exact fun j' s' hs' => Schema.eq_iff_normal_eq hs hs'

/-- A value with both of the short forms that reading does not keep apart from the long ones. -/
def shortSchema : Json :=
  .obj [("properties", .obj [("a", .bool true), ("b", .obj [("type", .str "string")])])]

/-- The same schema in normal form. -/
def longSchema : Json :=
  .obj [("properties", .obj [("a", .obj []), ("b", .obj [("type", .arr [.str "string"])])])]

/-- A value with two malformed parts, of which the type is the first. -/
def malformedSchema : Json :=
  .obj [("properties", .obj [("a", .obj []), ("b", .obj [("type", .str "text")])]),
    ("required", .str "a")]

theorem reading_lossless_shortSchema :
    shortSchema.Distinct ∧ shortSchema.IsSchema ∧
      (∃ s, Schema.ofJson? shortSchema = .ok s ∧ Schema.ofJson? longSchema = .ok s ∧
        ∃ t, s.SubschemaAt ["properties", "b"] t ∧ t.keywords.map Keyword.name = ["type"]) ∧
      malformedSchema.Distinct ∧ malformedSchema.IsRefused .root
        (.fault ⟨["properties", "b", "type"]⟩ (.unknownType "text")) := by
  have hdistinct : shortSchema.Distinct := Json.distinct_of_merged (by rfl)
  obtain ⟨s, hs⟩ : ∃ s, Schema.ofJson? shortSchema = .ok s := ⟨_, rfl⟩
  obtain ⟨s', hs'⟩ : ∃ s', Schema.ofJson? longSchema = .ok s' := ⟨_, rfl⟩
  obtain ⟨haccepts, _, hlossless⟩ := reading_lossless hdistinct
  obtain ⟨hsubschemas, _, hsame⟩ := hlossless s hs
  have hb : shortSchema.SubschemaAt ([] ++ ["properties", "b"]) (.obj [("type", .str "string")]) :=
    .entry .root (by decide) List.mem_cons_self (by simp)
  obtain ⟨t, ht, hshows⟩ := hsubschemas _ _ hb
  have hlong : Schema.ofJson? longSchema = .ok s := by
    rw [(hsame longSchema s' hs').2 (by rfl)]
    exact hs'
  have hmalformed : malformedSchema.Distinct := Json.distinct_of_merged (by rfl)
  obtain ⟨_, hrefuses, _⟩ := reading_lossless hmalformed
  exact ⟨hdistinct, haccepts.1 ⟨s, hs⟩, ⟨s, hs, hlong, t, ht, hshows.names⟩, hmalformed,
    (hrefuses _).1 (by rfl)⟩

end XsdSynthesis
