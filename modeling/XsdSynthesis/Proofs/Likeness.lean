import XsdSynthesis.Proofs.Arrangement

/-!
# XsdSynthesis.Proofs.Likeness

Schemas read from reordered values. `Schema.Alike` relates two schemas whose keywords are alike, in
another order where that is free; if a value is read as a schema, a reordered value is read
as one that is alike (`Schema.ofJson?_of_reordered`).
-/

namespace XsdSynthesis

open Json (Role Reordered)

/-- Whether keywords of the kind hold neither schemas nor objects. -/
def Kind.isAtomic : Kind → Bool
  | .schema | .id | .type | .required | .ref | .asAttribute => true
  | _ => false

mutual

/-- Two schemas have alike keywords, in another order only if the role of the schema is `free`. -/
inductive Schema.Alike (free : Role → Prop) : Role → Schema → Schema → Prop where
  | mk {r : Role} {ks middle ks' : List Keyword} : List.Forall₂ (Keyword.Alike free) ks middle →
      Rearranged (free r) middle ks' → Schema.Alike free r (.mk ks) (.mk ks')

/-- Two keywords of one kind hold the same, up to the orders that are `free`. -/
inductive Keyword.Alike (free : Role → Prop) : Keyword → Keyword → Prop where
  | atom {k : Keyword} : k.kind.isAtomic = true → Keyword.Alike free k k
  | info {entries entries' : List (String × Json)} :
      Matches (free .plain) (Json.MemberReordered free .plain) entries entries' →
      Keyword.Alike free (.info entries) (.info entries')
  | namespaces {bindings bindings' : List (String × String)} :
      Rearranged (free .plain) bindings bindings' →
      Keyword.Alike free (.namespaces bindings) (.namespaces bindings')
  | documentAttributes {attributes attributes' : List (String × String)} :
      Rearranged (free .plain) attributes attributes' →
      Keyword.Alike free (.documentAttributes attributes) (.documentAttributes attributes')
  | unknown {name : String} {j j' : Json} :
      Keyword.Alike free (.unknown name j) (.unknown name j')
  | combinator {c : Combinator} {branches branches' : List Schema} :
      List.Forall₂ (Schema.Alike free .node) branches branches' →
      Keyword.Alike free (.combinator c branches) (.combinator c branches')
  | properties {entries entries' : List (String × Schema)} : EntriesAlike free entries entries' →
      Keyword.Alike free (.properties entries) (.properties entries')
  | definitions {c : Container} {entries entries' : List (String × Schema)} :
      EntriesAlike free entries entries' →
      Keyword.Alike free (.definitions c entries) (.definitions c entries')

/-- Two objects of schemas have alike schemas under the same names. -/
inductive EntriesAlike (free : Role → Prop) :
    List (String × Schema) → List (String × Schema) → Prop where
  | mk {entries middle entries' : List (String × Schema)} :
      List.Forall₂ (fun e e' => e.1 = e'.1) entries middle →
      List.Forall₂ (Schema.Alike free .node) (entries.map Prod.snd) (middle.map Prod.snd) →
      Rearranged (free .nodes) middle entries' → EntriesAlike free entries entries'

end

/-- Entries of one name with alike schemas. -/
def EntryAlike (free : Role → Prop) (e e' : String × Schema) : Prop :=
  e.1 = e'.1 ∧ e.2.Alike free .node e'.2

variable {free : Role → Prop} {r : Role} {j j' : Json} {p : Pointer} {name : String}
  {t t' : Schema} {k k' : Keyword} {entries entries' : List (String × Schema)}

theorem entriesAlike_iff :
    EntriesAlike free entries entries' ↔ Matches (free .nodes) (EntryAlike free) entries entries' := by
  constructor
  · rintro ⟨hnames, hall, hm⟩
    refine ⟨_, ?_, hm⟩
    rw [List.forall₂_map_left_iff, List.forall₂_map_right_iff] at hall
    obtain ⟨hlength, hnames⟩ := List.forall₂_iff_zip.1 hnames
    exact List.forall₂_iff_zip.2 ⟨hlength, fun hp => ⟨hnames hp, List.forall₂_zip hall hp⟩⟩
  · rintro ⟨middle, hall, hm⟩
    refine ⟨hall.imp fun _ _ h => h.1, ?_, hm⟩
    rw [List.forall₂_map_left_iff, List.forall₂_map_right_iff]
    exact hall.imp fun _ _ h => h.2

theorem Schema.Alike.keywords (h : t.Alike free r t') :
    Matches (free r) (Keyword.Alike free) t.keywords t'.keywords := by
  cases h with
  | mk hall hm => exact ⟨_, hall, hm⟩

theorem schemaAlike_of_keywords
    (h : Matches (free r) (Keyword.Alike free) t.keywords t'.keywords) : t.Alike free r t' := by
  obtain ⟨ks⟩ := t
  obtain ⟨ks'⟩ := t'
  obtain ⟨middle, hall, hm⟩ := h
  exact .mk hall hm

theorem Keyword.Alike.kind (h : k.Alike free k') : k'.kind = k.kind := by
  cases h <;> rfl

/-! ## Keywords without schemas -/

namespace Keyword

theorem string?_of_reordered {s : String} (hj : Reordered free r j j') (h : string? p j = .ok s) :
    string? p j' = .ok s := by
  cases string?_ok.1 h
  cases hj
  exact h

theorem typeName?_of_reordered {s : String} (hj : Reordered free r j j')
    (h : typeName? p j = .ok s) : typeName? p j' = .ok s := by
  cases typeName?_ok.1 h
  cases hj
  exact h

/-- Items are not put into another order, so what is read from each is read again. -/
theorem mapM_of_items {α : Type} {f : Json → Except Problem α} {items items' : List Json}
    {as : List α} (hitems : List.Forall₂ (Reordered free r) items items')
    (hf : ∀ a b v, Reordered free r a b → f a = .ok v → f b = .ok v)
    (h : items.mapM f = .ok as) : items'.mapM f = .ok as := by
  have hm : Matches False (Reordered free r) items items' := .of_forall₂ hitems
  obtain ⟨as', has', hsame⟩ := hm.mapM_ok (q := fun v w => w = v) h
    fun a b v hab hv => ⟨v, hf a b v hab hv, rfl⟩
  rw [hsame.eq not_false fun _ _ _ h => h] at has'
  exact has'

theorem strings?_of_reordered {names : List String} (hj : Reordered free r j j')
    (h : strings? p j = .ok names) : strings? p j' = .ok names := by
  cases j with
  | arr items =>
    obtain ⟨items', rfl, hitems⟩ := hj.cases_arr
    exact mapM_of_items hitems (fun _ _ _ => string?_of_reordered) h
  | _ => cases h

theorem types?_of_reordered {types : List ValueType} (hj : Reordered free r j j')
    (h : types? p j = .ok types) : types? p j' = .ok types := by
  cases j with
  | str name =>
    cases hj
    exact h
  | arr items =>
    obtain ⟨items', rfl, hitems⟩ := hj.cases_arr
    cases hitems with
    | nil => cases h
    | cons ha hrest =>
      obtain ⟨names, hnames, h⟩ := Checks.bind_ok.1 h
      exact Checks.bind_ok.2
        ⟨names, mapM_of_items (.cons ha hrest) (fun _ _ _ => typeName?_of_reordered) hnames, h⟩
  | _ => cases h

theorem boolean?_of_reordered {b : Bool} (hj : Reordered free r j j')
    (h : boolean? p j = .ok b) : boolean? p j' = .ok b := by
  cases j with
  | bool _ =>
    cases hj
    exact h
  | _ => cases h

theorem members?_of_reordered {members : List (String × Json)} (hj : Reordered free r j j')
    (h : members? p j = .ok members) : ∃ members', members? p j' = .ok members' ∧
      Matches (free r) (Json.MemberReordered free r) members members' := by
  cases j with
  | obj _ =>
    cases h
    obtain ⟨members', rfl, hm⟩ := hj.cases_obj
    exact ⟨members', rfl, hm⟩
  | _ => cases h

theorem stringMap?_of_reordered {bindings : List (String × String)} (hj : Reordered free r j j')
    (h : stringMap? p j = .ok bindings) :
    ∃ bindings', stringMap? p j' = .ok bindings' ∧ Rearranged (free r) bindings bindings' := by
  obtain ⟨members, hmembers, h⟩ := Checks.bind_ok.1 h
  obtain ⟨members', hmembers', hm⟩ := members?_of_reordered hj hmembers
  obtain ⟨bindings', hb, hsame⟩ := hm.mapM_ok (q := fun b b' => b' = b) h (by
    rintro ⟨name, v⟩ ⟨_, v'⟩ b ⟨rfl, hv⟩ hb
    obtain ⟨s, hs, hb⟩ := Checks.bind_ok.1 hb
    exact ⟨b, Checks.bind_ok.2 ⟨s, string?_of_reordered hv hs, hb⟩, rfl⟩)
  exact ⟨bindings', Checks.bind_ok.2 ⟨members', hmembers', hb⟩, hsame.of_eq⟩

/-- How a keyword is read keeps likeness: of the schemas it holds, or of the value behind it. -/
inductive KeepsLikeness (free : Role → Prop) : Payload → Prop where
  | entries {make : List (String × Schema) → Keyword} :
      (∀ entries entries', EntriesAlike free entries entries' →
        Keyword.Alike free (make entries) (make entries')) → KeepsLikeness free (.entries make)
  | branches {make : List Schema → Keyword} :
      (∀ branches branches', List.Forall₂ (Schema.Alike free .node) branches branches' →
        Keyword.Alike free (make branches) (make branches')) → KeepsLikeness free (.branches make)
  | leaf {read : Pointer → Json → Except Problem Keyword} :
      (∀ p j j' k, Reordered free .plain j j' → read p j = .ok k →
        ∃ k', read p j' = .ok k' ∧ Keyword.Alike free k k') → KeepsLikeness free (.leaf read)

theorem keepsLikeness_atom {α : Type} {read : Pointer → Json → Except Problem α} {make : α → Keyword}
    (hatom : ∀ a, (make a).kind.isAtomic = true)
    (hread : ∀ p j j' a, Reordered free .plain j j' → read p j = .ok a → read p j' = .ok a) :
    KeepsLikeness free (.leaf fun p j => return make (← read p j)) := by
  refine .leaf fun p j j' k hj h => ?_
  obtain ⟨a, ha, h⟩ := Checks.bind_ok.1 h
  refine ⟨k, Checks.bind_ok.2 ⟨a, hread p j j' a hj ha, h⟩, ?_⟩
  cases Checks.pure_ok.1 h
  exact .atom (hatom a)

theorem keepsLikeness_payload (free : Role → Prop) (name : String) :
    KeepsLikeness free (payload name) := by
  unfold payload
  split
  case h_1 => exact keepsLikeness_atom (fun _ => rfl) fun _ _ _ _ => string?_of_reordered
  case h_2 => exact keepsLikeness_atom (fun _ => rfl) fun _ _ _ _ => string?_of_reordered
  case h_3 => exact keepsLikeness_atom (fun _ => rfl) fun _ _ _ _ => string?_of_reordered
  case h_4 => exact keepsLikeness_atom (fun _ => rfl) fun _ _ _ _ => types?_of_reordered
  case h_5 => exact .entries fun _ _ h => .definitions h
  case h_6 => exact .entries fun _ _ h => .definitions h
  case h_7 => exact .entries fun _ _ h => .properties h
  case h_8 => exact .branches fun _ _ h => .combinator h
  case h_9 => exact .branches fun _ _ h => .combinator h
  case h_10 => exact .branches fun _ _ h => .combinator h
  case h_11 => exact keepsLikeness_atom (fun _ => rfl) fun _ _ _ _ => strings?_of_reordered
  case h_12 =>
    refine .leaf fun p j j' k hj h => ?_
    obtain ⟨members, hm, h⟩ := Checks.bind_ok.1 h
    cases Checks.pure_ok.1 h
    obtain ⟨members', hm', hsame⟩ := members?_of_reordered hj hm
    exact ⟨_, Checks.bind_ok.2 ⟨members', hm', rfl⟩, .info hsame⟩
  case h_13 =>
    refine .leaf fun p j j' k hj h => ?_
    obtain ⟨bindings, hb, h⟩ := Checks.bind_ok.1 h
    cases Checks.pure_ok.1 h
    obtain ⟨bindings', hb', hsame⟩ := stringMap?_of_reordered hj hb
    exact ⟨_, Checks.bind_ok.2 ⟨bindings', hb', rfl⟩, .namespaces hsame⟩
  case h_14 =>
    refine .leaf fun p j j' k hj h => ?_
    obtain ⟨attributes, ha, h⟩ := Checks.bind_ok.1 h
    cases Checks.pure_ok.1 h
    obtain ⟨attributes', ha', hsame⟩ := stringMap?_of_reordered hj ha
    exact ⟨_, Checks.bind_ok.2 ⟨attributes', ha', rfl⟩, .documentAttributes hsame⟩
  case h_15 => exact keepsLikeness_atom (fun _ => rfl) fun _ _ _ _ => boolean?_of_reordered
  case h_16 =>
    refine .leaf fun p j j' k _ h => ?_
    cases Checks.pure_ok.1 h
    exact ⟨_, Checks.pure_ok.2 rfl, .unknown⟩

end Keyword

/-! ## Schemas -/

namespace Schema

/-- From any place where a value is read as a schema, another one is read as a schema that is alike. -/
def ReadsAlike (free : Role → Prop) (r : Role) (j j' : Json) : Prop :=
  ∀ p t, readAt p j = .ok t → ∃ t', readAt p j' = .ok t' ∧ t.Alike free r t'

theorem readEntries_of_matches {members members' : List (String × Json)}
    (hm : Matches (free .nodes) (fun m n => m.1 = n.1 ∧ ReadsAlike free .node m.2 n.2) members
      members')
    (h : readEntries p members = .ok entries) :
    ∃ entries', readEntries p members' = .ok entries' ∧ EntriesAlike free entries entries' := by
  -- places follow names, so each schema is read at the place where it was read before
  obtain ⟨entries', hread, hsame⟩ : ∃ entries',
      List.Forall₂ (fun m e => e.1 = m.1 ∧ readAt (p.child m.1) m.2 = .ok e.2) members' entries' ∧
        Matches (free .nodes) (EntryAlike free) entries entries' := by
    refine hm.follow (readEntries_ok.1 h) ?_
    rintro ⟨name, v⟩ ⟨_, v'⟩ _ ⟨_, t⟩ ⟨rfl, hv⟩ ⟨rfl, ht⟩
    obtain ⟨t', ht', halike⟩ := hv _ t ht
    exact ⟨(_, t'), ⟨rfl, ht'⟩, rfl, halike⟩
  exact ⟨entries', readEntries_ok.2 hread, entriesAlike_iff.2 hsame⟩

theorem readBranches_of_forall₂ {items items' : List Json} {i : Nat} {branches : List Schema}
    (hall : List.Forall₂ (ReadsAlike free .node) items items')
    (h : readBranches p i items = .ok branches) :
    ∃ branches', readBranches p i items' = .ok branches' ∧
      List.Forall₂ (Schema.Alike free .node) branches branches' := by
  induction hall generalizing i branches with
  | nil =>
    cases h
    exact ⟨[], rfl, .nil⟩
  | cons hj _ ih =>
    simp only [readBranches] at h
    obtain ⟨t, ht, h⟩ := Checks.bind_ok.1 h
    obtain ⟨others, hothers, h⟩ := Checks.bind_ok.1 h
    cases Checks.pure_ok.1 h
    obtain ⟨t', ht', halike⟩ := hj _ t ht
    obtain ⟨others', hothers', hrest⟩ := ih hothers
    refine ⟨t' :: others', ?_, .cons halike hrest⟩
    rw [readBranches]
    exact Checks.bind_ok.2 ⟨t', ht', Checks.bind_ok.2 ⟨others', hothers', rfl⟩⟩

/-- What reading needs to know of two values in a role. -/
def Follows (free : Role → Prop) : Role → Json → Json → Prop
  | .root, j, j' => ReadsAlike free .root j j'
  | .node, j, j' => ReadsAlike free .node j j'
  | .nodes, .obj members, j' => ∃ members', j' = .obj members' ∧
    Matches (free .nodes) (fun m n => m.1 = n.1 ∧ ReadsAlike free .node m.2 n.2) members members'
  | .nodes, .arr items, j' => ∃ items', j' = .arr items' ∧
    List.Forall₂ (ReadsAlike free .node) items items'
  | .nodes, _, _ => True
  | .plain, j, j' => Reordered free .plain j j'

theorem readKeyword_of_follows (hj : Follows free (Role.ofKeyword name) j j')
    (h : readKeyword p name j = .ok k) :
    ∃ k', readKeyword p name j' = .ok k' ∧ k.Alike free k' := by
  have hkeeps := Keyword.keepsLikeness_payload free name
  unfold readKeyword at h ⊢
  unfold Role.ofKeyword at hj
  cases hpayload : Keyword.payload name with
  | entries make =>
    rw [hpayload] at h hj hkeeps
    cases j with
    | obj members =>
      obtain ⟨members', rfl, hm⟩ := hj
      obtain ⟨entries, he, h⟩ := Checks.bind_ok.1 h
      cases Checks.pure_ok.1 h
      obtain ⟨entries', he', halike⟩ := readEntries_of_matches hm he
      cases hkeeps with
      | entries hmake =>
        exact ⟨_, Checks.bind_ok.2 ⟨entries', he', rfl⟩, hmake entries entries' halike⟩
    | _ => cases h
  | branches make =>
    rw [hpayload] at h hj hkeeps
    cases j with
    | arr items =>
      obtain ⟨items', rfl, hall⟩ := hj
      obtain ⟨branches, hb, h⟩ := Checks.bind_ok.1 h
      cases Checks.pure_ok.1 h
      obtain ⟨branches', hb', halike⟩ := readBranches_of_forall₂ hall hb
      cases hkeeps with
      | branches hmake =>
        exact ⟨_, Checks.bind_ok.2 ⟨branches', hb', rfl⟩, hmake branches branches' halike⟩
    | _ => cases h
  | leaf read =>
    rw [hpayload] at h hj hkeeps
    cases hkeeps with
    | leaf hread => exact hread p j j' k hj h

theorem readAt_of_members {members members' : List (String × Json)}
    (hm : Matches (free r) (fun m n => m.1 = n.1 ∧ Follows free (Role.ofKeyword m.1) m.2 n.2)
      members members') : ReadsAlike free r (.obj members) (.obj members') := by
  intro p t h
  rw [readAt] at h
  obtain ⟨keywords, hk, h⟩ := Checks.bind_ok.1 h
  cases Checks.pure_ok.1 h
  obtain ⟨keywords', hk', hsame⟩ : ∃ keywords',
      List.Forall₂ (fun m k => readKeyword (p.child m.1) m.1 m.2 = .ok k) members' keywords' ∧
        Matches (free r) (Keyword.Alike free) keywords keywords' := by
    refine hm.follow (readKeywords_ok.1 hk) ?_
    rintro ⟨name, v⟩ ⟨_, v'⟩ _ k ⟨rfl, hv⟩ hread
    exact readKeyword_of_follows hv hread
  refine ⟨.mk keywords', ?_, schemaAlike_of_keywords hsame⟩
  rw [readAt]
  exact Checks.bind_ok.2 ⟨keywords', readKeywords_ok.2 hk', rfl⟩

theorem follows_atom (hr : Reordered free r j j)
    (h : ∀ p t, readAt p j = .ok t → t = .mk []) (hobj : ∀ members, j ≠ .obj members)
    (harr : ∀ items, j ≠ .arr items) : Follows free r j j := by
  have halike : ∀ r, ReadsAlike free r j j := by
    intro r p t ht
    refine ⟨t, ht, ?_⟩
    rw [h p t ht]
    exact .mk .nil (.refl [])
  cases r with
  | root => exact halike .root
  | node => exact halike .node
  | plain => exact hr
  | nodes =>
    cases j with
    | obj members => exact absurd rfl (hobj members)
    | arr items => exact absurd rfl (harr items)
    | _ => trivial

/-- **Reordered values are read as schemas that are alike**, by induction on what was reordered. -/
theorem follows_of_reordered (h : Reordered free r j j') : Follows free r j j' := by
  induction h with
  | null => exact follows_atom .null (fun _ _ h => nomatch h) nofun nofun
  | num => exact follows_atom .num (fun _ _ h => nomatch h) nofun nofun
  | str => exact follows_atom .str (fun _ _ h => nomatch h) nofun nofun
  | @bool r b =>
    refine follows_atom .bool (fun p t h => ?_) nofun nofun
    cases b with
    | true =>
      cases h
      rfl
    | false => cases h
  | @arr r items items' hlength hall ih =>
    cases r with
    | root => exact fun _ _ h => nomatch h
    | node => exact fun _ _ h => nomatch h
    | plain => exact .arr hlength hall
    | nodes => exact ⟨items', rfl, List.forall₂_iff_zip.2 ⟨hlength, fun hp => ih _ hp⟩⟩
  | @obj r members middle members' hnames hall hm ih =>
    have hmatches : Matches (free r)
        (fun m n => m.1 = n.1 ∧ Follows free (r.member m.1) m.2 n.2) members members' :=
      Reordered.matches_of_zip hnames (fun q hq hn => ⟨hn, ih q hq⟩) hm
    cases r with
    | root => exact readAt_of_members hmatches
    | node => exact readAt_of_members hmatches
    | plain => exact .obj hnames hall hm
    | nodes => exact ⟨members', rfl, hmatches⟩

theorem ofJson?_of_reordered (h : Reordered free .root j j') (ht : ofJson? j = .ok t) :
    ∃ t', ofJson? j' = .ok t' ∧ t.Alike free .root t' :=
  follows_of_reordered h .root t ht

/-! ## What is alike in schemas -/

namespace Alike

variable {s s' : Schema}

/-- Of each known kind, schemas that were read have alike keywords or none. -/
theorem get? (h : s.Alike free r s') (hs' : s'.IsRead) {kind : Kind} (hk : kind ≠ .unknown) :
    s.get? kind = none ∧ s'.get? kind = none ∨
      ∃ k k', s.get? kind = some k ∧ s'.get? kind = some k' ∧ k.Alike free k' := by
  cases hg : s.get? kind with
  | none =>
    cases hg' : s'.get? kind with
    | none => exact .inl ⟨rfl, rfl⟩
    | some k' =>
      obtain ⟨hm, hkind⟩ := mem_of_get? hg'
      obtain ⟨k, hmem, halike⟩ := h.keywords.mem_right hm
      have hnone := List.find?_eq_none.1 hg k hmem
      exact absurd (by simp [← halike.kind, hkind]) hnone
  | some k =>
    obtain ⟨hm, hkind⟩ := mem_of_get? hg
    obtain ⟨k', hmem, halike⟩ := h.keywords.mem_left hm
    have hkind' : k'.kind = kind := halike.kind.trans hkind
    have hg' := hs'.get? hmem (hkind' ▸ hk)
    rw [hkind'] at hg'
    exact .inr ⟨k, k', rfl, hg', halike⟩

theorem types? (h : s.Alike free r s') (hs' : s'.IsRead) : s'.types? = s.types? := by
  unfold Schema.types?
  obtain ⟨hn, hn'⟩ | ⟨k, k', hg, hg', hk⟩ := h.get? hs' (by decide : Kind.type ≠ .unknown)
  · rw [hn, hn']
  · rw [hg, hg']
    cases hk <;> rfl

theorem reference? (h : s.Alike free r s') (hs' : s'.IsRead) : s'.reference? = s.reference? := by
  unfold Schema.reference?
  obtain ⟨hn, hn'⟩ | ⟨k, k', hg, hg', hk⟩ := h.get? hs' (by decide : Kind.ref ≠ .unknown)
  · rw [hn, hn']
  · rw [hg, hg']
    cases hk <;> rfl

theorem requiredNames (h : s.Alike free r s') (hs' : s'.IsRead) :
    s'.requiredNames = s.requiredNames := by
  unfold Schema.requiredNames
  obtain ⟨hn, hn'⟩ | ⟨k, k', hg, hg', hk⟩ := h.get? hs' (by decide : Kind.required ≠ .unknown)
  · rw [hn, hn']
  · rw [hg, hg']
    cases hk <;> rfl

theorem asksAttribute (h : s.Alike free r s') (hs' : s'.IsRead) :
    s'.asksAttribute = s.asksAttribute := by
  unfold Schema.asksAttribute
  obtain ⟨hn, hn'⟩ | ⟨k, k', hg, hg', hk⟩ := h.get? hs' (by decide : Kind.asAttribute ≠ .unknown)
  · rw [hn, hn']
  · rw [hg, hg']
    cases hk <;> rfl

theorem properties (h : s.Alike free r s') (hs' : s'.IsRead) :
    Matches (free .nodes) (EntryAlike free) s.properties s'.properties := by
  unfold Schema.properties
  obtain ⟨hn, hn'⟩ | ⟨k, k', hg, hg', hk⟩ := h.get? hs' (by decide : Kind.properties ≠ .unknown)
  · rw [hn, hn']
    exact .of_forall₂ .nil
  · rw [hg, hg']
    cases hk with
    | properties hentries => exact entriesAlike_iff.1 hentries
    | atom hatom =>
      cases k with
      | properties entries => cases hatom
      | _ => exact .of_forall₂ .nil
    | _ => exact .of_forall₂ .nil

theorem definitions (h : s.Alike free r s') (hs' : s'.IsRead) (c : Container) :
    Matches (free .nodes) (EntryAlike free) (s.definitions c) (s'.definitions c) := by
  unfold Schema.definitions
  obtain ⟨hn, hn'⟩ | ⟨k, k', hg, hg', hk⟩ := h.get? hs' (by simp : Kind.definitions c ≠ .unknown)
  · rw [hn, hn']
    exact .of_forall₂ .nil
  · rw [hg, hg']
    cases hk with
    | definitions hentries => exact entriesAlike_iff.1 hentries
    | atom hatom =>
      cases k with
      | definitions c entries => cases hatom
      | _ => exact .of_forall₂ .nil
    | _ => exact .of_forall₂ .nil

theorem declaredNamespaces (h : s.Alike free r s') (hs' : s'.IsRead) :
    Rearranged (free .plain) (Conversion.declaredNamespaces s)
      (Conversion.declaredNamespaces s') := by
  unfold Conversion.declaredNamespaces
  obtain ⟨hn, hn'⟩ | ⟨k, k', hg, hg', hk⟩ := h.get? hs' (by decide : Kind.namespaces ≠ .unknown)
  · rw [hn, hn']
    exact .refl []
  · rw [hg, hg']
    cases hk with
    | namespaces hbindings => exact hbindings
    | _ => exact .refl _

theorem declaredAttributes (h : s.Alike free r s') (hs' : s'.IsRead) :
    Rearranged (free .plain) (Conversion.declaredAttributes s)
      (Conversion.declaredAttributes s') := by
  unfold Conversion.declaredAttributes
  obtain ⟨hn, hn'⟩ | ⟨k, k', hg, hg', hk⟩ :=
    h.get? hs' (by decide : Kind.documentAttributes ≠ .unknown)
  · rw [hn, hn']
    exact .refl []
  · rw [hg, hg']
    cases hk with
    | documentAttributes hattributes => exact hattributes
    | _ => exact .refl _

/-- The combinators, each with alike branches. -/
theorem combinators (h : s.Alike free r s') :
    Matches (free r) (fun x y => y.1 = x.1 ∧ List.Forall₂ (Schema.Alike free .node) x.2 y.2)
      s.combinators s'.combinators := by
  refine h.keywords.filterMap fun k k' hk => ?_
  cases hk with
  | combinator hbranches => exact .some ⟨rfl, hbranches⟩
  | atom hatom =>
    cases k with
    | combinator c branches => cases hatom
    | _ => exact .none
  | _ => exact .none

/-- A schema that is nothing but a reference is alike only to itself. -/
theorem eq_of_ref {reference : String} (h : (Schema.mk [.ref reference]).Alike free r s') :
    s' = .mk [.ref reference] := by
  cases h with
  | mk hall hm =>
    cases hall with
    | cons hk hnil =>
      cases hnil
      cases hk
      rw [List.singleton_perm.1 hm.perm]

theorem lookup {entries entries' : List (String × Schema)}
    (h : Matches (free .nodes) (EntryAlike free) entries entries')
    (hn : (entries'.map Prod.fst).Nodup) (name : String) :
    Option.Rel (Schema.Alike free .node) (entries.lookup name) (entries'.lookup name) := by
  cases hl : entries.lookup name with
  | some t =>
    obtain ⟨⟨_, t'⟩, hm, rfl, ht⟩ := h.mem_left (Tables.mem_of_lookup hl)
    rw [Tables.lookup_of_mem hn hm]
    exact .some ht
  | none =>
    cases hl' : entries'.lookup name with
    | none => exact .none
    | some t' =>
      obtain ⟨⟨_, t⟩, hm, rfl, _⟩ := h.mem_right (Tables.mem_of_lookup hl')
      exact absurd (List.mem_map_of_mem hm) (Tables.lookup_eq_none.1 hl)

theorem definition? (h : s.Alike free r s') (hs' : s'.IsRead) (c : Container) (name : String) :
    Option.Rel (Schema.Alike free .node) (s.definition? c name) (s'.definition? c name) :=
  lookup (h.definitions hs' c) (hs'.definitions_nodup c) name

/-- References point to the same definitions. -/
theorem target? (h : s.Alike free r s') (hs' : s'.IsRead) : s'.target? = s.target? := by
  funext reference
  unfold Schema.target?
  split
  · split
    · rename_i container name _
      cases Container.ofName? container with
      | none => rfl
      | some c =>
        have hrel := h.definition? hs' c name
        simp only [Option.bind_eq_bind, Option.bind_some]
        generalize s.definition? c name = x at hrel
        generalize s'.definition? c name = y at hrel
        cases hrel <;> rfl
    · rfl
  · rfl

theorem resolve (h : s.Alike free r s') (hs' : s'.IsRead) :
    Conversion.resolve s' = Conversion.resolve s := by
  funext ns place reference
  rw [Conversion.resolve, Conversion.resolve, h.target? hs']

theorem findDefinition? (h : s.Alike free r s') (hs' : s'.IsRead) (name : String) :
    Option.Rel (fun x y => y.1 = x.1 ∧ x.2.Alike free .node y.2) (s.findDefinition? name)
      (s'.findDefinition? name) := by
  have hdefs := h.definition? hs' .defs name
  have hdefinitions := h.definition? hs' .definitions name
  unfold Schema.findDefinition?
  generalize s.definition? .defs name = x at hdefs
  generalize s'.definition? .defs name = y at hdefs
  generalize s.definition? .definitions name = u at hdefinitions
  generalize s'.definition? .definitions name = v at hdefinitions
  cases hdefs with
  | some ht => exact .some ⟨rfl, ht⟩
  | none =>
    cases hdefinitions with
    | some ht => exact .some ⟨rfl, ht⟩
    | none => exact .none

end Alike
end Schema
end XsdSynthesis
