import XsdSynthesis.Proofs.Resolution

/-!
# XsdSynthesis.Proofs.PointerTexts

Pointers and their texts. The escapes of a segment are two replacements, one after the other, and so
is their undoing: first `~` and then `/` is escaped, first `~1` and then `~0` is undone
(`escape_eq_replaceAll`, `unescape_eq_replaceAll`). Every pointer is read back from its text, and
what else a text may be is told from the parts between its slashes (`texts_correspond`).
-/

namespace XsdSynthesis
namespace Pointer

/-! ## Replacements -/

/-- A text in which every occurrence of a pattern is replaced, from left to right. The pattern is
given as its first character and the others. -/
def replaceAll (first : Char) (others new : List Char) : List Char → List Char
  | [] => []
  | c :: rest =>
    if c = first ∧ others <+: rest then
      new ++ replaceAll first others new (rest.drop others.length)
    else c :: replaceAll first others new rest
termination_by cs => cs.length
decreasing_by
  · simp only [List.length_drop, List.length_cons]
    omega
  · simp

variable {first c : Char} {others new rest : List Char}

theorem replaceAll_nil : replaceAll first others new [] = [] := by
  rw [replaceAll]

/-- An occurrence is replaced, and what follows it is replaced on its own. -/
theorem replaceAll_append (first : Char) (others new rest : List Char) :
    replaceAll first others new (first :: (others ++ rest)) =
      new ++ replaceAll first others new rest := by
  rw [replaceAll, if_pos ⟨rfl, List.prefix_append others rest⟩, List.drop_left]

theorem replaceAll_cons (h : ¬ (c = first ∧ others <+: rest)) :
    replaceAll first others new (c :: rest) = c :: replaceAll first others new rest := by
  rw [replaceAll, if_neg h]

/-- A character is replaced wherever it stands. -/
theorem replaceAll_single (cs : List Char) :
    replaceAll first [] new cs = cs.flatMap fun c => if c = first then new else [c] := by
  induction cs with
  | nil => exact replaceAll_nil
  | cons c rest ih =>
    rw [List.flatMap_cons, ← ih]
    by_cases hc : c = first
    · subst hc
      rw [if_pos rfl]
      exact replaceAll_append c [] new rest
    · rw [if_neg hc, List.singleton_append, replaceAll_cons fun h => hc h.1]

/-- `~` is escaped first: the `~` that the escape of `/` brings in stays as it is. -/
theorem escape_eq_replaceAll (cs : List Char) :
    escape cs = replaceAll '/' [] ['~', '1'] (replaceAll '~' [] ['~', '0'] cs) := by
  rw [replaceAll_single, replaceAll_single, List.flatMap_assoc, escape]
  congr 1
  funext c
  by_cases htilde : c = '~'
  · subst htilde
    decide
  · by_cases hslash : c = '/'
    · subst hslash
      decide
    · simp [escapeChar, htilde, hslash]

/-- Undoing `~1` makes no `0` follow a `~` that it did not follow before. -/
theorem head?_of_replaceAll_slash {cs : List Char}
    (h : (replaceAll '~' ['1'] ['/'] cs).head? = some '0') : cs.head? = some '0' := by
  cases cs with
  | nil =>
    rw [replaceAll_nil] at h
    cases h
  | cons c rest =>
    rw [replaceAll] at h
    split at h
    · cases h
    · exact h

/-- `~1` is undone first: a `~` that comes from `~0` begins nothing. -/
theorem unescape_eq_replaceAll (cs : List Char) :
    unescape cs = replaceAll '~' ['0'] ['~'] (replaceAll '~' ['1'] ['/'] cs) := by
  fun_induction unescape cs with
  | case1 rest ih =>
    have hkept : replaceAll '~' ['1'] ['/'] ('~' :: '0' :: rest) =
        '~' :: '0' :: replaceAll '~' ['1'] ['/'] rest := by
      rw [replaceAll_cons (by simp), replaceAll_cons (by simp)]
    rw [hkept, ih]
    exact (replaceAll_append '~' ['0'] ['~'] _).symm
  | case2 rest ih =>
    have hundone : replaceAll '~' ['1'] ['/'] ('~' :: '1' :: rest) =
        '/' :: replaceAll '~' ['1'] ['/'] rest := replaceAll_append '~' ['1'] ['/'] rest
    rw [hundone, replaceAll_cons (by simp), ih]
  | case3 c rest hzero hone ih =>
    have hslash : ¬ (c = '~' ∧ ['1'] <+: rest) := by
      rintro ⟨hc, tail, rfl⟩
      exact hone tail hc rfl
    have htilde : ¬ (c = '~' ∧ ['0'] <+: replaceAll '~' ['1'] ['/'] rest) := by
      rintro ⟨hc, tail, htail⟩
      have hhead : (replaceAll '~' ['1'] ['/'] rest).head? = some '0' := by
        rw [← htail]
        rfl
      obtain ⟨tail', rfl⟩ := List.head?_eq_some_iff.1 (head?_of_replaceAll_slash hhead)
      exact hzero tail' hc rfl
    rw [replaceAll_cons hslash, replaceAll_cons htilde, ih]
  | case4 => rw [replaceAll_nil, replaceAll_nil]

/-! ## Texts -/

/-- A text without one leading `#`. -/
def unmarked (text : String) : List Char :=
  match text.toList with
  | '#' :: rest => rest
  | cs => cs

theorem ofText?_eq (text : String) : ofText? text = ofPath? (unmarked text) := by
  unfold ofText? unmarked
  cases text.toList with
  | nil => rfl
  | cons c rest => by_cases hc : c = '#' <;> simp [hc]

theorem exists_ofPath?_iff (cs : List Char) :
    (∃ p, ofPath? cs = some p) ↔ cs = [] ∨ cs.head? = some '/' := by
  unfold ofPath?
  split
  · simp
  · simp
  · rename_i hnil hslash
    constructor
    · rintro ⟨p, ⟨⟩⟩
    · rintro (rfl | hhead)
      · exact absurd rfl hnil
      · obtain ⟨rest, rfl⟩ := List.head?_eq_some_iff.1 hhead
        exact absurd rfl (hslash rest)

theorem text_injective : Function.Injective text := by
  intro p q h
  have hp := ofText?_of_text p
  rw [h, ofText?_of_text q] at hp
  exact (Option.some.inj hp).symm

theorem path_append (ss ts : List String) : path (ss ++ ts) = path ss ++ path ts :=
  List.flatMap_append

theorem text_append (p : Pointer) (ss : List String) :
    (p.append ss).text = p.text ++ String.ofList (path ss) := by
  rw [text, text, segments_append, path_append, ← List.cons_append, String.ofList_append]

/-- **Pointers and their texts correspond.** A pointer is read back from its text, whatever its
segments hold, so no two pointers share one. A text is a pointer's if it is empty but for one
leading `#`, or goes on with a slash; the `#` makes no difference, each part after a slash is a
segment with its escapes undone, and the pointer's own text is read as the same pointer. Segments
are added one after another, each written as a slash and the segment with its escapes. -/
theorem texts_correspond :
    (∀ segments : List String, ofText? (text ⟨segments⟩) = some ⟨segments⟩) ∧
      Function.Injective text ∧
      (∀ t : String,
        ((∃ p, ofText? t = some p) ↔ unmarked t = [] ∨ (unmarked t).head? = some '/') ∧
          (∀ u, unmarked u = unmarked t → ofText? u = ofText? t) ∧
          ∀ p, ofText? t = some p → ofText? p.text = some p ∧
            ∃ parts : List (List Char), unmarked t = parts.flatMap ('/' :: ·) ∧
              (∀ part ∈ parts, '/' ∉ part) ∧
              p.segments = parts.map fun part => String.ofList
                (replaceAll '~' ['0'] ['~'] (replaceAll '~' ['1'] ['/'] part))) ∧
      ∀ (p : Pointer) (as bs : List String), (p.append as).append bs = p.append (as ++ bs) ∧
        (p.append as).text = p.text ++ String.ofList (as.flatMap fun s =>
          '/' :: replaceAll '/' [] ['~', '1'] (replaceAll '~' [] ['~', '0'] s.toList)) := by
  refine ⟨fun segments => ofText?_of_text ⟨segments⟩, text_injective, fun t => ⟨?_, ?_, ?_⟩,
    fun p as bs => ⟨append_append p as bs, ?_⟩⟩
  · rw [ofText?_eq]
    exact exists_ofPath?_iff (unmarked t)
  · intro u hu
    rw [ofText?_eq, ofText?_eq, hu]
  · rintro ⟨segments⟩ hp
    refine ⟨ofText?_of_text _, ?_⟩
    rw [ofText?_eq] at hp
    obtain ⟨parts, htext, hslash, hsegments⟩ := ofPath?_iff.1 hp
    simp only [unescape_eq_replaceAll] at hsegments
    exact ⟨parts, htext, hslash, hsegments.symm⟩
  · rw [text_append, path]
    simp only [escape_eq_replaceAll]

/-- Stray and escaped `~`, an empty segment, and the same path after a `#`. -/
theorem texts_correspond_stray :
    ofText? "/a~x/~01/" = some ⟨["a~x", "~1", ""]⟩ ∧
      ofText? "#/a~x/~01/" = ofText? "/a~x/~01/" ∧
      ofText? (text ⟨["a~x", "~1", ""]⟩) = some ⟨["a~x", "~1", ""]⟩ ∧
      (∃ parts : List (List Char), unmarked "/a~x/~01/" = parts.flatMap ('/' :: ·) ∧
        (∀ part ∈ parts, '/' ∉ part) ∧
        ["a~x", "~1", ""] = parts.map fun part => String.ofList
          (replaceAll '~' ['0'] ['~'] (replaceAll '~' ['1'] ['/'] part))) := by
  obtain ⟨_, _, hread, _⟩ := texts_correspond
  obtain ⟨_, hmark, hparts⟩ := hread "/a~x/~01/"
  have hstray : ofText? "/a~x/~01/" = some ⟨["a~x", "~1", ""]⟩ := by decide
  obtain ⟨hback, hspelled⟩ := hparts _ hstray
  exact ⟨hstray, hmark "#/a~x/~01/" (by decide), hback, hspelled⟩

end Pointer
end XsdSynthesis
