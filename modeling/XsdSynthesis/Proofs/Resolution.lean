import XsdSynthesis.Proofs.Exchange
import XsdSynthesis.Proofs.Whereabouts

/-!
# XsdSynthesis.Proofs.Resolution

Which texts refer to a definition. `Fragment` is the grammar of the texts that lead along a path:
`#`, and before each segment a slash; a segment may be written in several ways (`Spelled`).
Those are the fragments that the parser takes for the path (`fragment_iff`), so a text refers to a
definition exactly if it leads to one in the document (`resolve_iff`).
-/

namespace XsdSynthesis

open Conversion Xsd

/-! ## Fragments -/

namespace Pointer

/-- A way to write a segment: `~` and `/` as `~0` and `~1`, and any other character as it is. A `~`
that begins neither of the two also stands for itself. -/
inductive Spelled : List Char → List Char → Prop where
  | nil : Spelled [] []
  | tilde {w cs : List Char} : Spelled w cs → Spelled ('~' :: '0' :: w) ('~' :: cs)
  | slash {w cs : List Char} : Spelled w cs → Spelled ('~' :: '1' :: w) ('/' :: cs)
  | plain {c : Char} {w cs : List Char} : c ≠ '/' →
      (c = '~' → w.head? ≠ some '0' ∧ w.head? ≠ some '1') → Spelled w cs →
      Spelled (c :: w) (c :: cs)

/-- A text that leads along a path from the root of its own document. -/
def Fragment (text : String) (path : List String) : Prop :=
  ∃ ws : List (List Char), text.toList = '#' :: ws.flatMap ('/' :: ·) ∧
    List.Forall₂ (fun w s => Spelled w s.toList) ws path

theorem Spelled.slash_notMem {w cs : List Char} (h : Spelled w cs) : '/' ∉ w := by
  induction h with
  | nil => exact List.not_mem_nil
  | tilde _ ih => simpa using ih
  | slash _ ih => simpa using ih
  | plain hc _ _ ih => simpa [ih] using hc.symm

theorem Spelled.unescape_eq {w cs : List Char} (h : Spelled w cs) : unescape w = cs := by
  induction h with
  | nil => rfl
  | tilde _ ih => rw [unescape, ih]
  | slash _ ih => rw [unescape, ih]
  | plain _ hfree _ ih =>
    rw [unescape, ih]
    · rintro rest rfl rfl
      exact (hfree rfl).1 rfl
    · rintro rest rfl rfl
      exact (hfree rfl).2 rfl

/-- What is written without a slash spells the segment that the program reads. -/
theorem spelled_unescape {w : List Char} (h : '/' ∉ w) : Spelled w (unescape w) := by
  fun_induction unescape w with
  | case1 rest ih => exact .tilde (ih (by simpa using h))
  | case2 rest ih => exact .slash (ih (by simpa using h))
  | case3 c rest hzero hone ih =>
    rw [List.mem_cons, not_or] at h
    refine .plain (fun hc => h.1 hc.symm) (fun hc => ⟨fun hd => ?_, fun hd => ?_⟩) (ih h.2)
    · obtain ⟨tail, rfl⟩ := List.head?_eq_some_iff.1 hd
      exact hzero tail hc rfl
    · obtain ⟨tail, rfl⟩ := List.head?_eq_some_iff.1 hd
      exact hone tail hc rfl
  | case4 => exact .nil

theorem spelled_all_iff {ws : List (List Char)} {path : List String} :
    List.Forall₂ (fun w s => Spelled w s.toList) ws path ↔
      (∀ w ∈ ws, '/' ∉ w) ∧ ws.map (fun w => String.ofList (unescape w)) = path := by
  induction ws generalizing path with
  | nil => simp [eq_comm]
  | cons w rest ih =>
    simp only [List.forall₂_cons_left_iff, ih, List.forall_mem_cons, List.map_cons]
    constructor
    · rintro ⟨s, others, hs, ⟨hrest, rfl⟩, rfl⟩
      exact ⟨⟨hs.slash_notMem, hrest⟩, by rw [hs.unescape_eq, String.ofList_toList]⟩
    · rintro ⟨⟨hw, hrest⟩, rfl⟩
      refine ⟨_, _, ?_, ⟨hrest, rfl⟩, rfl⟩
      rw [String.toList_ofList]
      exact spelled_unescape hw

theorem flatMap_slash (w : List Char) (ws : List (List Char)) :
    (w :: ws).flatMap ('/' :: ·) = '/' :: ['/'].intercalate (w :: ws) := by
  induction ws generalizing w with
  | nil => simp
  | cons w' ws ih => rw [List.flatMap_cons, ih, List.intercalate_cons_cons]; simp

/-- No part of a list that is split contains what it is split at. -/
theorem notMem_of_mem_splitOn {c : Char} {cs w : List Char} (h : w ∈ cs.splitOn c) : c ∉ w := by
  induction cs generalizing w with
  | nil =>
    rw [List.splitOn_nil, List.mem_singleton] at h
    subst h
    exact List.not_mem_nil
  | cons x rest ih =>
    obtain ⟨first, others, hsplit⟩ := List.exists_cons_of_ne_nil (List.splitOn_ne_nil c rest)
    rw [List.splitOn_cons_eq_if_modifyHead, hsplit] at h
    rw [hsplit] at ih
    split at h
    · rcases List.mem_cons.1 h with rfl | h
      · exact List.not_mem_nil
      · exact ih h
    · rename_i hx
      rcases List.mem_cons.1 h with rfl | h
      · rw [List.mem_cons, not_or]
        exact ⟨fun hc => hx (beq_iff_eq.2 hc.symm), ih List.mem_cons_self⟩
      · exact ih (List.mem_cons_of_mem _ h)

/-- The paths that the parser accepts, each part as it is written. -/
theorem ofPath?_iff {cs : List Char} {path : List String} :
    ofPath? cs = some ⟨path⟩ ↔ ∃ ws : List (List Char), cs = ws.flatMap ('/' :: ·) ∧
      (∀ w ∈ ws, '/' ∉ w) ∧ ws.map (fun w => String.ofList (unescape w)) = path := by
  constructor
  · intro h
    unfold ofPath? at h
    split at h
    · cases h
      exact ⟨[], rfl, nofun, rfl⟩
    · rename_i rest
      cases h
      refine ⟨rest.splitOn '/', ?_, fun w hw => notMem_of_mem_splitOn hw, rfl⟩
      obtain ⟨first, others, hsplit⟩ := List.exists_cons_of_ne_nil (List.splitOn_ne_nil '/' rest)
      rw [hsplit, flatMap_slash, ← hsplit, List.intercalate_splitOn]
    · cases h
  · rintro ⟨ws, rfl, hslash, rfl⟩
    cases ws with
    | nil => rfl
    | cons w rest =>
      rw [flatMap_slash, ofPath?, List.splitOn_intercalate '/' hslash (List.cons_ne_nil _ _)]

/-- **A fragment leads along a path exactly if it begins with `#` and parses as the path.** -/
theorem fragment_iff {text : String} {path : List String} :
    Fragment text path ↔ text.toList.head? = some '#' ∧ ofText? text = some ⟨path⟩ := by
  have hfragment : Fragment text path ↔
      ∃ cs, text.toList = '#' :: cs ∧ ofPath? cs = some ⟨path⟩ := by
    simp only [Fragment, spelled_all_iff, ofPath?_iff]
    constructor
    · rintro ⟨ws, htext, h⟩
      exact ⟨_, htext, ws, rfl, h⟩
    · rintro ⟨_, htext, ws, rfl, h⟩
      exact ⟨ws, htext, h⟩
  rw [hfragment]
  constructor
  · rintro ⟨cs, htext, h⟩
    exact ⟨by rw [htext, List.head?_cons], by rw [ofText?, htext]; exact h⟩
  · rintro ⟨hhead, h⟩
    obtain ⟨cs, htext⟩ := List.head?_eq_some_iff.1 hhead
    rw [ofText?, htext] at h
    exact ⟨cs, htext, h⟩

/-- A pointer's own text leads along its segments. -/
theorem fragment_text (p : Pointer) : Fragment p.text p.segments :=
  fragment_iff.2 ⟨by rw [text, String.toList_ofList, List.head?_cons], ofText?_of_text p⟩

end Pointer

/-! ## Definitions of the document -/

namespace Schema

/-- A member of a schema object that is named like a container is read as that container, and no other
member is. -/
theorem readKeyword_container {p : Pointer} {name : String} {c : Container} {j : Json} {k : Keyword}
    (h : readKeyword p name j = .ok k) :
    (name = c.name ∧ ∃ members entries, j = .obj members ∧ k = .definitions c entries ∧
      entries.map Prod.fst = members.map Prod.fst) ∨
      name ≠ c.name ∧ k.kind ≠ .definitions c := by
  by_cases hname : name = c.name
  · subst hname
    unfold readKeyword at h
    rw [payload_container] at h
    cases j with
    | obj members =>
      obtain ⟨entries, he, h⟩ := Checks.bind_ok.1 h
      cases Checks.pure_ok.1 h
      exact .inl ⟨rfl, members, entries, rfl, rfl,
        Tables.map_eq_map (readEntries_ok.1 he) fun _ _ hsame => hsame.1⟩
    | _ => cases h
  · refine .inr ⟨hname, fun hkind => hname ?_⟩
    have hread : k.name = name := (readKeyword_ok h).name
    cases k with
    | definitions c' entries =>
      cases hkind
      exact hread.symm
    | _ => cases hkind

/-- What a document keeps in a container under a name, its schema has as a definition. -/
theorem exists_definition?_iff {j : Json} {s : Schema} (hs : ofJson? j = .ok s) (c : Container)
    (name : String) :
    (∃ t, s.definition? c name = some t) ↔ ∃ u, j.at? [c.name, name] = some u := by
  rcases readAt_keywords hs with ⟨members, rfl, hall⟩ | ⟨rfl, rfl⟩
  · clear hs
    obtain ⟨keywords⟩ := s
    rw [keywords_mk] at hall
    rw [definition?, Tables.exists_lookup_iff, definitions, get?, keywords_mk, Json.at?]
    induction hall with
    | nil => simp
    | @cons m k members keywords hk _ ih =>
      obtain ⟨spelling, u⟩ := m
      rcases readKeyword_container (c := c) hk with
        ⟨rfl, inner, entries, rfl, rfl, hnames⟩ | ⟨hname, hkind⟩
      · rw [List.find?_cons_of_pos (by simp [Keyword.kind]), List.lookup_cons_self]
        change name ∈ entries.map Prod.fst ↔ _
        rw [hnames, ← Tables.exists_lookup_iff, Option.bind_some, Json.at?]
        refine exists_congr fun u => ?_
        cases inner.lookup name <;> simp [Json.at?]
      · rw [List.find?_cons_of_neg (by simpa using hkind), List.lookup_cons,
          beq_eq_false_iff_ne.2 hname.symm]
        exact ih
  · simp [definition?, definitions, get?, Json.at?]

/-- A text refers to a definition if it begins with `#`, parses as the way to it, and the definition
is there. -/
theorem target?_iff {s : Schema} {r name : String} {c : Container} :
    s.target? r = some (c, name) ↔
      (r.toList.head? = some '#' ∧ Pointer.ofText? r = some ⟨[c.name, name]⟩) ∧
        ∃ t, s.definition? c name = some t := by
  unfold target?
  constructor
  · intro h
    split at h
    · rename_i hhead
      split at h
      · rename_i container other htext
        obtain ⟨c', hc, h⟩ := Option.bind_eq_some_iff.1 h
        obtain ⟨t, ht, h⟩ := Option.bind_eq_some_iff.1 h
        cases h
        rw [Container.eq_name_of_ofName? hc] at htext
        exact ⟨⟨hhead, htext⟩, t, ht⟩
      · cases h
    · cases h
  · rintro ⟨⟨hhead, htext⟩, t, ht⟩
    rw [if_pos hhead, htext]
    simp [Container.ofName?_name, ht]

end Schema

/-- A text that refers to no definition is an invalid reference, and only such a text is one. -/
theorem resolve_unresolved_iff {s : Schema} {ns : Option String} {place : Pointer} {r : String} :
    resolve s ns place r = .error (.unresolved place r) ↔ s.target? r = none := by
  unfold resolve
  cases s.target? r with
  | none => simp
  | some target => cases ns <;> simp

/-- **A reference resolves exactly to a definition of the document.** It resolves to a name exactly if
it begins with `#`, parses as a container and the name, the document has something there, and
the default namespace is not bound. It is an invalid reference, told of at its place, exactly if one of
the first three fails. So the texts that refer to a definition are the fragments that lead to it,
however they are written, and the text of its own place is one of them. -/
theorem resolve_iff {j : Json} {s : Schema} (hs : Schema.ofJson? j = .ok s) (d : Document) :
    (∀ place r name, resolve s (d.namespaceOf? "") place r = .ok name ↔
      ∃ c : Container, r.toList.head? = some '#' ∧
        Pointer.ofText? r = some ⟨[c.name, name]⟩ ∧ (∃ u, j.at? [c.name, name] = some u) ∧
          "" ∉ d.namespaces.map Prod.fst) ∧
      (∀ place r, resolve s (d.namespaceOf? "") place r = .error (.unresolved place r) ↔
        ¬ ∃ (c : Container) (name : String), r.toList.head? = some '#' ∧
          Pointer.ofText? r = some ⟨[c.name, name]⟩ ∧ ∃ u, j.at? [c.name, name] = some u) ∧
      ∀ (c : Container) (name : String), (∃ u, j.at? [c.name, name] = some u) →
        (∀ r, s.target? r = some (c, name) ↔ Pointer.Fragment r [c.name, name]) ∧
          ∀ place, "" ∉ d.namespaces.map Prod.fst →
            resolve s (d.namespaceOf? "") place (definitionPlace c name).text = .ok name := by
  have htarget : ∀ r c name, s.target? r = some (c, name) ↔
      (r.toList.head? = some '#' ∧ Pointer.ofText? r = some ⟨[c.name, name]⟩) ∧
        ∃ u, j.at? [c.name, name] = some u := by
    intro r c name
    rw [Schema.target?_iff, Schema.exists_definition?_iff hs]
  refine ⟨fun place r name => ?_, fun place r => ?_, fun c name hdef => ⟨fun r => ?_, ?_⟩⟩
  · rw [resolve_ok, Document.namespaceOf?, Tables.lookup_eq_none]
    simp only [htarget]
    constructor
    · rintro ⟨hfree, c, ⟨hhead, htext⟩, hdef⟩
      exact ⟨c, hhead, htext, hdef, hfree⟩
    · rintro ⟨c, hhead, htext, hdef, hfree⟩
      exact ⟨hfree, c, ⟨hhead, htext⟩, hdef⟩
  · rw [resolve_unresolved_iff, Option.eq_none_iff_forall_ne_some, Prod.forall, not_exists]
    refine forall_congr' fun c => ?_
    rw [not_exists]
    refine forall_congr' fun name => not_congr ?_
    rw [htarget, and_assoc]
  · rw [htarget, Pointer.fragment_iff]
    exact and_iff_left hdef
  · intro place hfree
    refine resolve_ok.2 ⟨Tables.lookup_eq_none.2 hfree, c, (htarget _ _ _).2 ⟨?_, hdef⟩⟩
    exact Pointer.fragment_iff.1 (Pointer.fragment_text (definitionPlace c name))

/-- A document with one definition, in whose name a slash occurs. -/
def slashedDefinition : Json :=
  .obj [("$defs", .obj [("a/b", .obj [("type", .str "string")])])]

/-- The definition is referred to with the slash escaped. As two segments its name leads nowhere, and
it is not looked for in the other container. -/
theorem resolve_slashedDefinition : ∃ s, Schema.ofJson? slashedDefinition = .ok s ∧
    resolve s none .root "#/$defs/a~1b" = .ok "a/b" ∧
    resolve s none .root "#/$defs/a/b" = .error (.unresolved .root "#/$defs/a/b") ∧
    resolve s none .root "#/definitions/a~1b" =
      .error (.unresolved .root "#/definitions/a~1b") := by
  obtain ⟨s, hs, _⟩ := Checks.exists_of_any (p := fun _ => true)
    (x := Schema.ofJson? slashedDefinition) (by decide +kernel)
  obtain ⟨hok, hunresolved, _⟩ := resolve_iff hs {}
  refine ⟨s, hs, (hok _ _ _).2 ⟨.defs, by decide, by decide, ⟨_, rfl⟩, by decide⟩,
    (hunresolved _ _).2 ?_, (hunresolved _ _).2 ?_⟩
  · rintro ⟨c, name, _, htext, _⟩
    have hthree : Pointer.ofText? "#/$defs/a/b" = some ⟨["$defs", "a", "b"]⟩ := by decide
    simp [hthree] at htext
  · rintro ⟨c, name, _, htext, u, hu⟩
    have hother : Pointer.ofText? "#/definitions/a~1b" = some ⟨["definitions", "a/b"]⟩ := by
      decide
    rw [hother, Option.some.injEq, Pointer.mk.injEq, List.cons.injEq] at htext
    rw [← htext.1] at hu
    cases hu

end XsdSynthesis
