import XsdSynthesis.Proofs.Refusals

/-!
# XsdSynthesis.Proofs.Whereabouts

Where in a document problems lie. A pointer's text denotes the pointer (`Pointer.ofText?_of_text`),
and a path is walked through a JSON value by `Json.at?`. A problem of reading lies in the value that
is read (`readAt_refuses`). The places that a conversion may find fault with are `Spot`s of the
schema: its positions, the keywords there, and what stands in a keyword of the root. Every spot of a
schema that was read is somewhere in the document (`Spot.stands`).
-/

namespace XsdSynthesis

open Conversion

/-! ## The text of a pointer -/

namespace Pointer

theorem path_cons (s : String) (ss : List String) :
    path (s :: ss) = '/' :: ['/'].intercalate ((s :: ss).map fun s => escape s.toList) := by
  induction ss generalizing s with
  | nil => simp [path]
  | cons s' ss ih =>
    have hstep : path (s :: s' :: ss) = '/' :: escape s.toList ++ path (s' :: ss) := rfl
    rw [hstep, ih]
    simp [List.intercalate_cons_cons]

theorem ofPath?_path (ss : List String) : ofPath? (path ss) = some ⟨ss⟩ := by
  cases ss with
  | nil => rfl
  | cons s ss =>
    rw [path_cons, ofPath?, List.splitOn_intercalate '/' ?_ (by simp), List.map_map]
    · have hid : ((fun cs => String.ofList (unescape cs)) ∘ fun s : String => escape s.toList) =
          id := by
        funext s
        simp [unescape_escape]
      rw [hid, List.map_id]
    · intro cs hcs
      obtain ⟨s, _, rfl⟩ := List.mem_map.1 hcs
      exact slash_not_mem_escape _

/-- **A pointer's text denotes the pointer**, whatever its segments hold. -/
theorem ofText?_of_text (p : Pointer) : ofText? p.text = some p := by
  rw [ofText?, text, String.toList_ofList]
  exact ofPath?_path p.segments

end Pointer

/-! ## Paths through a value -/

namespace Json

/-- The item of an array whose index is written as the given segment, in decimal. -/
def item? (items : List Json) (segment : String) : Option Json :=
  (items.zipIdx.find? fun entry => toString entry.2 == segment).map Prod.fst

/-- The value that a path leads to: through objects by the names of members, through arrays by
indices. -/
def at? : Json → List String → Option Json
  | j, [] => some j
  | .obj members, name :: path => (members.lookup name).bind (at? · path)
  | .arr items, index :: path => (item? items index).bind (at? · path)
  | _, _ => none

/-- A path leads from a value to a part of it, through some member of the name where there is more
than one. -/
inductive At : Json → List String → Json → Prop where
  | here {j : Json} : At j [] j
  | member {members : List (String × Json)} {name : String} {j u : Json} {path : List String} :
      (name, j) ∈ members → At j path u → At (.obj members) (name :: path) u
  | item {items : List Json} {index : Nat} {j u : Json} {path : List String} :
      items[index]? = some j → At j path u → At (.arr items) (toString index :: path) u

theorem eq_of_toString {m n : Nat} (h : toString m = toString n) : m = n := by
  rw [Nat.toString_eq_ofList_toDigits, Nat.toString_eq_ofList_toDigits, String.ofList_inj] at h
  rw [← Nat.ofDigitChars_ten_toDigits (n := m), h, Nat.ofDigitChars_ten_toDigits]

theorem item?_toString {items : List Json} {index : Nat} {j : Json} (h : items[index]? = some j) :
    item? items (toString index) = some j := by
  have hm : (j, index) ∈ items.zipIdx := List.mem_zipIdx_iff_getElem?.2 h
  have hsome : (items.zipIdx.find? fun entry => toString entry.2 == toString index).isSome := by
    rw [List.find?_isSome]
    exact ⟨_, hm, beq_self_eq_true _⟩
  obtain ⟨⟨j', index'⟩, hf⟩ := Option.isSome_iff_exists.1 hsome
  have hsame := List.find?_some hf
  have hindex : index' = index := eq_of_toString (beq_iff_eq.1 hsame)
  subst hindex
  have hm' := List.mem_zipIdx_iff_getElem?.1 (List.mem_of_find?_eq_some hf)
  rw [item?, hf]
  exact hm'.symm.trans h

/-- Where names are distinct, a path leads to one value only. -/
theorem At.at? {j u : Json} {path : List String} (hj : j.Distinct) (h : j.At path u) :
    j.at? path = some u := by
  induction h with
  | here => simp [Json.at?]
  | member hm _ ih =>
    rw [Json.at?, Tables.lookup_of_mem hj.names hm]
    exact ih (hj.member hm)
  | item hi _ ih =>
    rw [Json.at?, item?_toString hi]
    exact ih (hj.item (List.mem_of_getElem? hi))

theorem At.trans {j u v : Json} {path path' : List String} (h : j.At path u) (h' : u.At path' v) :
    j.At (path ++ path') v := by
  induction h with
  | here => exact h'
  | member hm _ ih => exact .member hm (ih h')
  | item hi _ ih => exact .item hi (ih h')

theorem At.name {members : List (String × Json)} {name : String}
    (h : name ∈ members.map Prod.fst) : ∃ u, (Json.obj members).At [name] u := by
  obtain ⟨⟨_, u⟩, hm, rfl⟩ := List.mem_map.1 h
  exact ⟨u, .member hm .here⟩

end Json

/-! ## Problems of reading -/

section Reading

variable {p : Pointer} {name : String} {j : Json} {e : Problem}

/-- A pointer leads to a value that stands at a place, or to a part of it. -/
def Within (p : Pointer) (j : Json) (q : Pointer) : Prop :=
  ∃ path u, q = p.append path ∧ j.At path u

theorem within_here (p : Pointer) (j : Json) : Within p j p :=
  ⟨[], j, by simp [Pointer.append], .here⟩

theorem within_member {members : List (String × Json)} {i : Nat} (hi : members[i]? = some (name, j))
    {q : Pointer} (h : Within (p.child name) j q) : Within p (.obj members) q := by
  obtain ⟨path, u, rfl, hat⟩ := h
  exact ⟨name :: path, u, Pointer.append_append _ _ _, .member (List.mem_of_getElem? hi) hat⟩

theorem within_item {items : List Json} {i : Nat} (hi : items[i]? = some j) {q : Pointer}
    (h : Within (p.child (toString i)) j q) : Within p (.arr items) q := by
  obtain ⟨path, u, rfl, hat⟩ := h
  exact ⟨toString i :: path, u, Pointer.append_append _ _ _, .item hi hat⟩

theorem refused_here (h : e.place? = some p) (he : e.isOfWalk = false) :
    Refused (Within p j) e := refused_at h he (within_here p j)

theorem Keyword.Malformed.refused (h : Malformed p name j e) : Refused (Within p j) e := by
  cases h with
  | valueNotString _ hi _ _ => exact refused_at rfl rfl (within_member hi (within_here _ _))
  | _ => exact refused_here rfl rfl

namespace Json

mutual

/-- What a value is refused with lies in the value, by induction on the refusal. -/
theorem IsRefused.refused {p : Pointer} {j : Json} {e : Problem} :
    IsRefused j p e → Refused (Within p j) e
  | .falseSchema => refused_here rfl rfl
  | .notSchema _ _ => refused_here rfl rfl
  | .member hi _ h => h.refused.mono fun _ => within_member hi

theorem Misfits.refused {p : Pointer} {name : String} {j : Json} {e : Problem} :
    Misfits name j p e → Refused (Within p j) e
  | .notEntries _ _ => refused_here rfl rfl
  | .entry _ hi _ h => h.refused.mono fun _ => within_member hi
  | .notBranches _ _ => refused_here rfl rfl
  | .branch _ hi _ h => h.refused.mono fun _ => within_item hi
  | .leaf h => h.refused

end

end Json

/-- **A problem of reading lies in what is read.** -/
theorem Schema.readAt_refuses (p : Pointer) (j : Json) : RefusesAt (Within p j) (readAt p j) :=
  fun e h => ((isRefused_iff j p e).1 h).refused

end Reading

/-! ## Spots of a schema -/

/-- The segments that lead into the value of a keyword, to what a conversion looks at by itself. -/
def Keyword.entryNames : Keyword → List String
  | info entries => entries.map Prod.fst
  | namespaces bindings => bindings.map Prod.fst
  | documentAttributes attributes => attributes.map Prod.fst
  | combinator _ branches => (List.range branches.length).map toString
  | _ => []

/-- A place that a conversion may find fault with: that of a subschema, of a keyword of one, or of
an entry of a keyword of the root. -/
inductive Spot (s : Schema) : Pointer → Prop where
  | node {p : Pointer} {t : Schema} : Position s p t → Spot s p
  | keyword {p : Pointer} {t : Schema} {k : Keyword} : Position s p t → k ∈ t.keywords →
      Spot s (p.child k.name)
  | entry {k : Keyword} {name : String} : k ∈ s.keywords → name ∈ k.entryNames →
      Spot s (Pointer.root.append [k.name, name])

namespace Schema

variable {p : Pointer} {name : String} {j : Json} {k : Keyword} {t : Schema}

/-- The value of a keyword stands in the value that the schema was read from. -/
theorem keyword_stands (h : readAt p j = .ok t) (hk : k ∈ t.keywords) :
    ∃ q u, j.At [k.name] u ∧ readKeyword q k.name u = .ok k := by
  rcases readAt_keywords h with ⟨members, rfl, hall⟩ | ⟨_, rfl⟩
  · obtain ⟨m, hm, hread⟩ := Tables.exists_of_mem_right hall hk
    have hname : k.name = m.1 := (readKeyword_ok hread).name
    rw [hname]
    exact ⟨_, m.2, .member hm .here, hread⟩
  · cases hk

theorem subschema_stands {entries : List (String × Schema)}
    (h : ∃ members, j = .obj members ∧ readEntries p members = .ok entries)
    (he : (name, t) ∈ entries) : ∃ q u, j.At [name] u ∧ readAt q u = .ok t := by
  obtain ⟨members, rfl, hread⟩ := h
  obtain ⟨m, hm, hname, hread⟩ := Tables.exists_of_mem_right (readEntries_ok.1 hread) he
  rw [show name = m.1 from hname]
  exact ⟨_, m.2, .member hm .here, hread⟩

theorem readBranches_length {first : Nat} {items : List Json} {branches : List Schema}
    (h : readBranches p first items = .ok branches) : branches.length = items.length := by
  rw [readBranches_eq, Checks.mapM_ok] at h
  rw [← h.length_eq, List.length_zipIdx]

theorem readKeyword_info {entries : List (String × Json)}
    (h : readKeyword p "info" j = .ok (.info entries)) : j = .obj entries := by
  have hpayload : Keyword.payload "info" =
      .leaf fun p j => return .info (← Keyword.members? p j) := rfl
  unfold readKeyword at h
  rw [hpayload] at h
  obtain ⟨members, hm, h⟩ := Checks.bind_ok.1 h
  cases Checks.pure_ok.1 h
  cases j with
  | obj members' =>
    cases hm
    rfl
  | _ => cases hm

theorem readKeyword_combinator {c : Combinator} {branches : List Schema}
    (h : readKeyword p c.name j = .ok (.combinator c branches)) :
    ∃ items, j = .arr items ∧ branches.length = items.length := by
  have hpayload : Keyword.payload c.name = .branches (.combinator c) := by cases c <;> rfl
  unfold readKeyword at h
  rw [hpayload] at h
  cases j with
  | arr items =>
    obtain ⟨branches', hb, h⟩ := Checks.bind_ok.1 h
    cases Checks.pure_ok.1 h
    exact ⟨items, rfl, readBranches_length hb⟩
  | _ => cases h

/-- An entry of a keyword stands in the value that the keyword was read from. -/
theorem entry_stands (h : readKeyword p k.name j = .ok k) (hn : name ∈ k.entryNames) :
    ∃ u, j.At [name] u := by
  cases k with
  | info entries =>
    cases readKeyword_info h
    exact Json.At.name hn
  | namespaces bindings =>
    obtain ⟨members, rfl, hsame⟩ := readKeyword_namespaces h
    exact Json.At.name (hsame ▸ hn)
  | documentAttributes attributes =>
    obtain ⟨members, rfl, hsame⟩ := (readKeyword_ok h).attributes _ rfl
    exact Json.At.name (hsame ▸ hn)
  | combinator c branches =>
    obtain ⟨items, rfl, hlength⟩ := readKeyword_combinator h
    obtain ⟨index, hi, rfl⟩ := List.mem_map.1 hn
    rw [List.mem_range, hlength] at hi
    exact ⟨_, .item (List.getElem?_eq_getElem hi) .here⟩
  | _ => cases hn

end Schema

section Stands

variable {s t : Schema} {p : Pointer} {j : Json}

/-- A position of a schema is one of the document, by induction on how it is reached. -/
theorem Position.stands (hs : Schema.ofJson? j = .ok s) (h : Position s p t) :
    ∃ q u, j.At p.segments u ∧ Schema.readAt q u = .ok t := by
  induction h with
  | root => exact ⟨.root, j, .here, hs⟩
  | definition hk he =>
    obtain ⟨q, u, hu, hread⟩ := Schema.keyword_stands hs hk
    obtain ⟨q', v, hv, hread⟩ :=
      Schema.subschema_stands ((Schema.readKeyword_ok hread).definitions _ _ rfl) he
    exact ⟨q', v, hu.trans hv, hread⟩
  | property _ hk he ih =>
    obtain ⟨q, u, hu, hread⟩ := ih
    obtain ⟨q', v, hv, hread⟩ := Schema.keyword_stands hread hk
    obtain ⟨q'', x, hx, hread⟩ :=
      Schema.subschema_stands ((Schema.readKeyword_ok hread).properties _ rfl) he
    exact ⟨q'', x, hu.trans (hv.trans hx), hread⟩

/-- **A spot of a schema is somewhere in the document** that the schema was read from. -/
theorem Spot.stands (hs : Schema.ofJson? j = .ok s) (h : Spot s p) : ∃ u, j.At p.segments u := by
  cases h with
  | node hp =>
    obtain ⟨q, u, hu, _⟩ := hp.stands hs
    exact ⟨u, hu⟩
  | keyword hp hk =>
    obtain ⟨q, u, hu, hread⟩ := hp.stands hs
    obtain ⟨q', v, hv, _⟩ := Schema.keyword_stands hread hk
    exact ⟨v, hu.trans hv⟩
  | entry hk hn =>
    obtain ⟨q, u, hu, hread⟩ := Schema.keyword_stands hs hk
    obtain ⟨v, hv⟩ := Schema.entry_stands hread hn
    exact ⟨v, hu.trans hv⟩

end Stands
end XsdSynthesis
