import XsdSynthesis.Proofs.Rules

/-!
# XsdSynthesis.Proofs.Pulls

What pulls leave. A pull of one kind gives what the schema has under that kind and changes nothing for
the others, so a list from which some kinds were pulled still holds every keyword of the remaining
kinds. If nothing unmarked is left in the end, every keyword had a kind that was marked or
pulled (`kind_of_drained`).
-/

namespace XsdSynthesis
namespace WorkList

variable {w w' w'' : WorkList} {s : Schema} {kind other : Kind}

/-- The list gives, for a kind, the keyword that the schema has. -/
def Offers (w : WorkList) (s : Schema) (kind : Kind) : Prop :=
  w.items.find? (·.kind == kind) = s.get? kind

theorem offers_of_items (h : w.items = s.keywords) (kind : Kind) : w.Offers s kind := by
  unfold Offers Schema.get?
  rw [h]

theorem find?_eraseP_of_ne (h : other ≠ kind) (ks : List Keyword) :
    (ks.eraseP (·.kind == kind)).find? (·.kind == other) = ks.find? (·.kind == other) := by
  induction ks with
  | nil => rfl
  | cons k rest ih =>
    by_cases hk : k.kind = kind
    · have ho : (k.kind == other) = false := by simpa [hk] using h.symm
      rw [List.eraseP_cons_of_pos (by simpa using hk), List.find?_cons, ho]
    · rw [List.eraseP_cons_of_neg (by simpa using hk), List.find?_cons, List.find?_cons, ih]

theorem offers_pull (kind : Kind) (hw : w.Offers s other) (h : other ≠ kind) :
    (w.pull kind).2.Offers s other := by
  rw [Offers, items_pull, find?_eraseP_of_ne h]
  exact hw

/-- The second list lacks nothing of the first but keywords of some kinds, and has its marks. -/
structure Without (w : WorkList) (kinds : List Kind) (w' : WorkList) : Prop where
  marked : w'.marked = w.marked
  items : ∀ k ∈ w.items, k.kind ∈ kinds ∨ k ∈ w'.items

theorem without_refl (w : WorkList) : w.Without [] w := ⟨rfl, fun _ h => .inr h⟩

theorem without_pull (w : WorkList) (kind : Kind) : w.Without [kind] (w.pull kind).2 := by
  refine ⟨rfl, fun k hk => ?_⟩
  by_cases h : k.kind = kind
  · exact .inl (by simp [h])
  · right
    rw [items_pull]
    exact (List.mem_eraseP_of_neg (by simpa using h)).2 hk

theorem Without.trans {kinds kinds' : List Kind} (h : w.Without kinds w')
    (h' : w'.Without kinds' w'') : w.Without (kinds ++ kinds') w'' := by
  refine ⟨h'.marked.trans h.marked, fun k hk => ?_⟩
  rcases h.items k hk with hk | hk
  · exact .inl (List.mem_append_left _ hk)
  · rcases h'.items k hk with hk | hk
    · exact .inl (List.mem_append_right _ hk)
    · exact .inr hk

theorem mem_marked_iff : w.isMarked kind = true ↔ kind ∈ w.marked := List.contains_iff_mem

theorem mem_markAll {kinds : List Kind} :
    kind ∈ (w.markAll kinds).marked ↔ kind ∈ kinds ∨ kind ∈ w.marked := by
  induction kinds generalizing w with
  | nil => simp [markAll]
  | cons k rest ih =>
    have hm : w.markAll (k :: rest) = (w.mark k).markAll rest := rfl
    rw [hm, ih]
    simp only [mark, List.mem_cons]
    tauto

@[simp] theorem items_markAll (kinds : List Kind) : (w.markAll kinds).items = w.items := by
  induction kinds generalizing w with
  | nil => rfl
  | cons k rest ih => exact ih (w := w.mark k)

theorem drained_iff : w.unhandledNames = [] ↔ ∀ k ∈ w.items, k.kind ∈ w.marked := by
  simp only [unhandledNames, unhandled, enumerate, Bool.false_or, List.map_eq_nil_iff,
    List.filter_eq_nil_iff, Bool.not_eq_true', Bool.not_eq_false, mem_marked_iff]

/-- Once a list is drained, every keyword it began with has a kind that was marked or pulled. -/
theorem kind_of_drained {kinds : List Kind} (hw : w.Without kinds w')
    (h : w'.unhandledNames = []) : ∀ k ∈ w.items, k.kind ∈ w.marked ∨ k.kind ∈ kinds := by
  intro k hk
  rcases hw.items k hk with hk | hk
  · exact .inr hk
  · left
    rw [← hw.marked]
    exact drained_iff.1 h k hk

/-! ## Typed pulls -/

theorem pull_of_offers (h : w.Offers s kind) : w.pull kind = (s.get? kind, (w.pull kind).2) :=
  Prod.ext ((fst_pull w kind).trans h) rfl

theorem pullTypes_eq (h : w.Offers s .type) : w.pullTypes = (s.types?, (w.pull .type).2) := by
  rw [pullTypes, pull_of_offers h, Schema.types?]
  cases s.get? .type with
  | none => rfl
  | some k => cases k <;> rfl

theorem pullReference_eq (h : w.Offers s .ref) :
    w.pullReference = (s.reference?, (w.pull .ref).2) := by
  rw [pullReference, pull_of_offers h, Schema.reference?]
  cases s.get? .ref with
  | none => rfl
  | some k => cases k <;> rfl

theorem pullRequired_getD (h : w.Offers s .required) :
    w.pullRequired.1.getD [] = s.requiredNames ∧ w.pullRequired.2 = (w.pull .required).2 := by
  rw [pullRequired, pull_of_offers h, Schema.requiredNames]
  cases s.get? .required with
  | none => exact ⟨rfl, rfl⟩
  | some k => cases k <;> exact ⟨rfl, rfl⟩

theorem pullProperties_getD (h : w.Offers s .properties) :
    w.pullProperties.1.getD [] = s.properties ∧ w.pullProperties.2 = (w.pull .properties).2 := by
  rw [pullProperties, pull_of_offers h, Schema.properties]
  cases s.get? .properties with
  | none => exact ⟨rfl, rfl⟩
  | some k => cases k <;> exact ⟨rfl, rfl⟩

theorem pullAsAttribute_getD (h : w.Offers s .asAttribute) :
    w.pullAsAttribute.1.getD false = s.asksAttribute ∧
      w.pullAsAttribute.2 = (w.pull .asAttribute).2 := by
  rw [pullAsAttribute, pull_of_offers h, Schema.asksAttribute]
  cases s.get? .asAttribute with
  | none => exact ⟨rfl, rfl⟩
  | some k => cases k <;> exact ⟨rfl, rfl⟩

end WorkList
end XsdSynthesis
