import Mathlib.Data.List.Forall2
import Mathlib.Data.List.Nodup

/-!
# XsdSynthesis.Proofs.Tables

Lists as tables: entries found by their names, elements by a key that none of them shares with another,
and lists of which each element has its counterpart.
-/

namespace XsdSynthesis
namespace Tables

variable {α β : Type}

theorem exists_of_mem_left {r : α → β → Prop} {as : List α} {bs : List β} {a : α}
    (h : List.Forall₂ r as bs) (ha : a ∈ as) : ∃ b ∈ bs, r a b := by
  induction h with
  | nil => cases ha
  | cons hr _ ih =>
    rcases List.mem_cons.1 ha with rfl | ha
    · exact ⟨_, List.mem_cons_self, hr⟩
    · obtain ⟨b, hb, hr⟩ := ih ha
      exact ⟨b, List.mem_cons_of_mem _ hb, hr⟩

theorem exists_of_mem_right {r : α → β → Prop} {as : List α} {bs : List β} {b : β}
    (h : List.Forall₂ r as bs) (hb : b ∈ bs) : ∃ a ∈ as, r a b :=
  exists_of_mem_left h.flip hb

theorem exists_of_getElem? {r : α → β → Prop} {as : List α} {bs : List β} {index : Nat} {a : α}
    (h : List.Forall₂ r as bs) (ha : as[index]? = some a) : ∃ b, bs[index]? = some b ∧ r a b := by
  induction h generalizing index with
  | nil => cases ha
  | cons hr _ ih =>
    cases index with
    | zero =>
      cases ha
      exact ⟨_, rfl, hr⟩
    | succ index => exact ih ha

theorem map_eq_map {γ : Type} {r : α → β → Prop} {f : α → γ} {g : β → γ} {as : List α}
    {bs : List β} (h : List.Forall₂ r as bs) (hr : ∀ a b, r a b → g b = f a) :
    bs.map g = as.map f := by
  induction h with
  | nil => rfl
  | cons hab _ ih => rw [List.map_cons, List.map_cons, ih, hr _ _ hab]

/-- Lists are equal that agree in keys, if a key belongs to one entry. -/
theorem eq_of_map_eq {key : α → β} {as bs : List α} (h : as.map key = bs.map key)
    (hkey : ∀ a ∈ as, ∀ b ∈ bs, key a = key b → a = b) : as = bs := by
  induction as generalizing bs with
  | nil => exact (List.map_eq_nil_iff.1 h.symm).symm
  | cons a as ih =>
    cases bs with
    | nil => cases h
    | cons b bs =>
      obtain ⟨hhead, htail⟩ := List.cons.inj h
      rw [hkey a List.mem_cons_self b List.mem_cons_self hhead, ih htail fun a ha b hb =>
        hkey a (List.mem_cons_of_mem _ ha) b (List.mem_cons_of_mem _ hb)]

theorem forall₂_congr {r r' : α → β → Prop} {as : List α} {bs : List β}
    (h : ∀ a ∈ as, ∀ b, r a b ↔ r' a b) : List.Forall₂ r as bs ↔ List.Forall₂ r' as bs := by
  induction as generalizing bs with
  | nil => rw [List.forall₂_nil_left_iff, List.forall₂_nil_left_iff]
  | cons a rest ih =>
    obtain ⟨ha, hrest⟩ := List.forall_mem_cons.1 h
    simp only [List.forall₂_cons_left_iff, ha, ih hrest]

theorem forall₂_imp {r r' : α → β → Prop} {as : List α} {bs : List β} (h : List.Forall₂ r as bs)
    (hr : ∀ a ∈ as, ∀ b, r a b → r' a b) : List.Forall₂ r' as bs :=
  ((List.forall₂_and_left as bs).2 ⟨hr, h⟩).imp fun _ b hab => hab.1 b hab.2

/-- A list has counterparts if each element has one. -/
theorem exists_forall₂ {r : α → β → Prop} {as : List α} (h : ∀ a ∈ as, ∃ b, r a b) :
    ∃ bs, List.Forall₂ r as bs := by
  induction as with
  | nil => exact ⟨[], .nil⟩
  | cons a rest ih =>
    obtain ⟨⟨b, hb⟩, hrest⟩ := List.forall_mem_cons.1 h
    obtain ⟨bs, hbs⟩ := ih hrest
    exact ⟨b :: bs, .cons hb hbs⟩

/-- Where no key occurs twice, only one element has a given key. -/
theorem filter_key_eq [DecidableEq β] {key : α → Option β} {l : List α} {a : α} {b : β}
    (hn : (l.filterMap key).Nodup) (ha : a ∈ l) (hb : key a = some b) :
    l.filter (fun x => key x = some b) = [a] := by
  induction l with
  | nil => cases ha
  | cons x rest ih =>
    cases hx : key x with
    | none =>
      rw [List.filterMap_cons_none hx] at hn
      have hax : a ≠ x := by
        rintro rfl
        rw [hx] at hb
        cases hb
      have hrest := ih hn ((List.mem_cons.1 ha).resolve_left hax)
      rw [List.filter_cons_of_neg (by simp [hx]), hrest]
    | some y =>
      rw [List.filterMap_cons_some hx, List.nodup_cons] at hn
      by_cases hy : y = b
      · subst hy
        have hnone : rest.filter (fun z => key z = some y) = [] := by
          rw [List.filter_eq_nil_iff]
          intro z hz hk
          exact hn.1 (List.mem_filterMap.2 ⟨z, hz, by simpa using hk⟩)
        have hax : a = x := by
          rcases List.mem_cons.1 ha with hax | hm
          · exact hax
          · exact absurd (List.mem_filterMap.2 ⟨a, hm, hb⟩) hn.1
        rw [List.filter_cons_of_pos (by simp [hx]), hnone, hax]
      · have hax : a ≠ x := by
          rintro rfl
          rw [hx] at hb
          exact hy (Option.some.inj hb)
        have hrest := ih hn.2 ((List.mem_cons.1 ha).resolve_left hax)
        rw [List.filter_cons_of_neg (by simpa [hx] using hy), hrest]

theorem lookup_of_mem {name : String} {a : α} {entries : List (String × α)}
    (hn : (entries.map Prod.fst).Nodup) (hm : (name, a) ∈ entries) :
    entries.lookup name = some a := by
  induction entries with
  | nil => cases hm
  | cons e rest ih =>
    obtain ⟨other, b⟩ := e
    rw [List.map_cons, List.nodup_cons] at hn
    rcases List.mem_cons.1 hm with he | hrest
    · cases he
      exact List.lookup_cons_self
    · have hne : (name == other) = false := by
        rw [beq_eq_false_iff_ne]
        rintro rfl
        exact hn.1 (List.mem_map.2 ⟨(name, a), hrest, rfl⟩)
      rw [List.lookup_cons, hne]
      exact ih hn.2 hrest

section Keys

variable {κ : Type} [BEq κ] {key other : κ}

theorem lookup_map {f : α → β} (key : κ) (entries : List (κ × α)) :
    (entries.map fun e => (e.1, f e.2)).lookup key = (entries.lookup key).map f := by
  induction entries with
  | nil => rfl
  | cons e rest ih =>
    rw [List.map_cons, List.lookup_cons, List.lookup_cons, ih]
    split <;> rfl

variable [LawfulBEq κ]

theorem mem_of_lookup {a : α} {entries : List (κ × α)} (h : entries.lookup key = some a) :
    (key, a) ∈ entries := by
  obtain ⟨before, after, rfl, _⟩ := List.lookup_eq_some_iff.1 h
  exact List.mem_append_right _ List.mem_cons_self

theorem exists_lookup_iff {entries : List (κ × α)} :
    (∃ a, entries.lookup key = some a) ↔ key ∈ entries.map Prod.fst := by
  constructor
  · rintro ⟨a, ha⟩
    exact List.mem_map_of_mem (mem_of_lookup ha)
  · intro h
    obtain ⟨e, he, rfl⟩ := List.mem_map.1 h
    exact Option.isSome_iff_exists.1 (List.lookup_isSome_iff.2 ⟨e, he, beq_self_eq_true _⟩)

theorem lookup_eq_none {entries : List (κ × α)} :
    entries.lookup key = none ↔ key ∉ entries.map Prod.fst := by
  rw [← exists_lookup_iff, ← Option.isSome_iff_exists, Option.not_isSome_iff_eq_none]

/-- Without the entries of one key those of another are found as before. -/
theorem lookup_filter (h : other ≠ key) (entries : List (κ × α)) :
    (entries.filter (·.1 != key)).lookup other = entries.lookup other := by
  induction entries with
  | nil => rfl
  | cons e rest ih =>
    obtain ⟨n, a⟩ := e
    by_cases hn : n = key
    · subst hn
      rw [List.filter_cons_of_neg (by simp), ih, List.lookup_cons, beq_eq_false_iff_ne.2 h]
    · rw [List.filter_cons_of_pos (by simpa using hn), List.lookup_cons, List.lookup_cons, ih]

end Keys

theorem eq_of_mem {name : String} {a b : α} {entries : List (String × α)}
    (hn : (entries.map Prod.fst).Nodup) (ha : (name, a) ∈ entries) (hb : (name, b) ∈ entries) :
    a = b :=
  Option.some.inj ((lookup_of_mem hn ha).symm.trans (lookup_of_mem hn hb))

end Tables
end XsdSynthesis
