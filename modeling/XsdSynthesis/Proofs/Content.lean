import XsdSynthesis.Proofs.Document

/-!
# XsdSynthesis.Proofs.Content

The items of a converted document. Its types are those of the definitions, each once
(`BecomesDocument.types`), so no two definitions share a name, and a name leads to one definition
and one type. One item is the root element (`BecomesDocument.element`).
-/

namespace XsdSynthesis
namespace Conversion

open Xsd

variable {source : Source} {ns : Option String} {marked : List Kind} {built final : Bool}
  {k : Keyword} {ks rest : List Keyword} {items : List Item} {d : Document} {c : Container}
  {name : String} {t : Schema}

/-! ## Keywords that are left -/

/-- The definitions that keywords declare, unless the container was taken before. -/
def pending (marked : List Kind) (ks : List Keyword) (c : Container) : List (String × Schema) :=
  if .definitions c ∈ marked then [] else (Schema.mk ks).definitions c

theorem definitions_cons_of_ne (h : k.kind ≠ .definitions c) :
    (Schema.mk (k :: rest)).definitions c = (Schema.mk rest).definitions c := by
  rw [Schema.definitions, Schema.get?_cons_of_ne h, Schema.definitions]

theorem pending_pass (h : k.kind ∈ marked ∨ k.kind.isDispatched = false) (c : Container) :
    pending marked (k :: rest) c = pending marked rest c := by
  unfold pending
  by_cases hm : Kind.definitions c ∈ marked
  · rw [if_pos hm, if_pos hm]
  · rw [if_neg hm, if_neg hm]
    apply definitions_cons_of_ne
    rintro hk
    rw [hk] at h
    rcases h with h | h
    · exact hm h
    · cases h

theorem pending_mark (kind : Kind) (hk : k.kind = kind) (h : kind ≠ .definitions c) :
    pending marked (k :: rest) c = pending (kind :: marked) rest c := by
  have hm : Kind.definitions c ∈ kind :: marked ↔ Kind.definitions c ∈ marked := by
    simp [h.symm]
  unfold pending
  rw [definitions_cons_of_ne (hk ▸ h)]
  simp only [hm]

theorem pending_marked (h : .definitions c ∈ marked) (ks : List Keyword) :
    pending marked ks c = [] := if_pos h

theorem pending_head {entries : List (String × Schema)} (h : .definitions c ∉ marked) :
    pending marked (.definitions c entries :: rest) c = entries := by
  rw [pending, if_neg h]
  simp [Schema.definitions, Schema.get?, Keyword.kind]

theorem pending_rootWorkList (s : Schema) (c : Container) :
    pending (rootWorkList s).marked s.keywords c = s.definitions c := by
  have hm : Kind.definitions c ∉ (rootWorkList s).marked := by
    intro h
    rcases WorkList.mem_markAll.1 h with h | h
    · cases c <;> exact absurd h (by decide)
    · cases h
  cases s
  exact if_neg hm

theorem ne_definitions_of_describesRoot {kind : Kind} (h : kind.describesRoot = true) :
    kind ≠ .definitions c := by
  rintro rfl
  cases h

theorem ne_info_of_describesRoot {kind : Kind} (h : kind.describesRoot = true) : kind ≠ .info := by
  rintro rfl
  cases h

/-! ## Items -/

theorem BecomesItem.isType {item : Item} (h : BecomesItem source ns c name t item) :
    item.isType = true := by
  cases h <;> rfl

def BecomeItems (source : Source) (ns : Option String) (c : Container) :
    List (String × Schema) → List Item → Prop :=
  List.Forall₂ fun e item => BecomesItem source ns c e.1 e.2 item

theorem BecomeItems.isType {entries : List (String × Schema)}
    (h : BecomeItems source ns c entries items) : items.filter Item.isType = items := by
  induction h with
  | nil => rfl
  | cons hi _ ih => rw [List.filter_cons_of_pos hi.isType, ih]

theorem BecomeItems.declaredNames {entries : List (String × Schema)}
    (h : BecomeItems source ns c entries items) :
    items.filterMap Item.declaredName? = entries.map Prod.fst := by
  induction h with
  | nil => rfl
  | cons hi _ ih => rw [List.filterMap_cons_some hi.declaredName, ih, List.map_cons]

/-- The types among the items are those of the definitions, by induction on the rules. A container
that occurs again was marked at its first place. -/
theorem BecomesItems.types (h : BecomesItems source ns marked built ks items final) :
    ∃ made : Container → List Item, (∀ c, BecomeItems source ns c (pending marked ks c) (made c)) ∧
      (items.filter Item.isType).Perm (made .defs ++ made .definitions) := by
  induction h with
  | nil =>
    refine ⟨fun _ => [], fun c => ?_, .refl _⟩
    unfold pending
    split <;> exact .nil
  | pass hk _ ih =>
    obtain ⟨made, hmade, hperm⟩ := ih
    refine ⟨made, fun c => ?_, hperm⟩
    rw [pending_pass hk c]
    exact hmade c
  | info _ _ _ ih =>
    obtain ⟨made, hmade, hperm⟩ := ih
    refine ⟨made, fun c => ?_, hperm⟩
    rw [pending_mark .info rfl (by simp)]
    exact hmade c
  | @definitions marked built final c entries new items rest hfresh hnew _ ih =>
    obtain ⟨made, hmade, hperm⟩ := ih
    have hnil : made c = [] := by
      have hc := hmade c
      rw [pending_marked List.mem_cons_self] at hc
      exact List.forall₂_nil_left_iff.1 hc
    refine ⟨fun c' => if c' = c then new else made c', fun c' => ?_, ?_⟩
    · by_cases hc : c' = c
      · subst hc
        simp only [if_true, pending_head hfresh]
        exact hnew
      · simp only [if_neg hc]
        rw [pending_mark (.definitions c) rfl (by simpa using Ne.symm hc)]
        exact hmade c'
    · rw [List.filter_append, BecomeItems.isType hnew]
      cases c with
      | defs =>
        rw [hnil, List.nil_append] at hperm
        simpa using hperm.append_left new
      | definitions =>
        rw [hnil, List.append_nil] at hperm
        simpa using (hperm.append_left new).trans List.perm_append_comm
  | root _ hd _ _ ih =>
    obtain ⟨made, hmade, hperm⟩ := ih
    refine ⟨made, fun c => ?_, hperm⟩
    rw [pending_mark _ rfl (ne_definitions_of_describesRoot hd)]
    exact hmade c
  | again _ hd _ ih =>
    obtain ⟨made, hmade, hperm⟩ := ih
    refine ⟨made, fun c => ?_, hperm⟩
    rw [pending_mark _ rfl (ne_definitions_of_describesRoot hd)]
    exact hmade c

theorem BecomesItems.documentation {entries : List (String × Json)}
    (h : BecomesItems source ns marked built ks items final) (hm : .info ∉ marked)
    (hg : (Schema.mk ks).get? .info = some (.info entries)) :
    ∃ a, documentationOf entries = .ok a ∧ .documentation a ∈ items := by
  induction h with
  | nil => cases hg
  | pass hk _ ih =>
    refine ih hm ?_
    rwa [Schema.get?_cons_of_ne] at hg
    rintro hi
    rw [hi] at hk
    rcases hk with hk | hk
    · exact hm hk
    · cases hk
  | info _ ha _ _ =>
    cases hg
    exact ⟨_, ha, List.mem_cons_self⟩
  | definitions _ _ _ ih =>
    rw [Schema.get?_cons_of_ne (by simp [Keyword.kind])] at hg
    obtain ⟨a, ha, hin⟩ := ih (by simpa using hm) hg
    exact ⟨a, ha, List.mem_append_right _ hin⟩
  | root _ hd _ _ ih =>
    have hne := ne_info_of_describesRoot hd
    rw [Schema.get?_cons_of_ne hne] at hg
    obtain ⟨a, ha, hin⟩ := ih (by simpa [hne.symm] using hm) hg
    exact ⟨a, ha, List.mem_cons_of_mem _ hin⟩
  | again _ hd _ ih =>
    have hne := ne_info_of_describesRoot hd
    rw [Schema.get?_cons_of_ne hne] at hg
    exact ih (by simpa [hne.symm] using hm) hg

/-- The elements among the items: one, or none if the root element was there before or never. -/
theorem BecomesItems.element (h : BecomesItems source ns marked built ks items final) :
    (built = true → final = true ∧ items.filterMap Item.element? = []) ∧
      (built = false → final = true →
        ∃ e, BecomesRoot source ns e ∧ items.filterMap Item.element? = [e]) ∧
      (final = false → items.filterMap Item.element? = []) := by
  induction h with
  | nil =>
    refine ⟨fun hb => ⟨hb, rfl⟩, fun hb hf => ?_, fun _ => rfl⟩
    rw [hb] at hf
    cases hf
  | pass _ _ ih => exact ih
  | info _ _ _ ih => exact ih
  | @definitions marked built final c entries new items rest _ hnew _ ih =>
    have hnone : new.filterMap Item.element? = [] := by
      rw [List.filterMap_eq_nil_iff]
      intro item hi
      obtain ⟨e, _, he⟩ := Tables.exists_of_mem_right hnew hi
      cases he <;> rfl
    rw [List.filterMap_append, hnone, List.nil_append]
    exact ih
  | @root marked final k e rest items _ _ he _ ih =>
    obtain ⟨hfinal, hrest⟩ := ih.1 rfl
    refine ⟨nofun, fun _ _ => ⟨e, he, ?_⟩, fun hf => ?_⟩
    · have hroot : Item.element? (.element e) = some e := rfl
      rw [List.filterMap_cons_some hroot, hrest]
    · rw [hfinal] at hf
      cases hf
  | again _ _ _ ih =>
    refine ⟨fun _ => ih.1 rfl, nofun, ih.2.2⟩

/-! ## The document -/

theorem filterMap_isType (items : List Item) :
    (items.filter Item.isType).filterMap Item.declaredName? =
      items.filterMap Item.declaredName? := by
  induction items with
  | nil => rfl
  | cons item rest ih =>
    cases item with
    | documentation a => exact ih
    | element e => exact ih
    | complexType type =>
      rw [List.filter_cons_of_pos rfl, List.filterMap_cons, List.filterMap_cons, ih]
    | simpleType type =>
      rw [List.filter_cons_of_pos rfl, List.filterMap_cons, List.filterMap_cons, ih]

/-- Where names are defined once, an entry is what is found under its name. -/
theorem findDefinition?_of_mem {s : Schema} (hn : s.definitionNames.Nodup)
    (hm : (name, t) ∈ s.definitions c) : s.findDefinition? name = some (c, t) := by
  rw [Schema.definitionNames, List.map_append, List.nodup_append] at hn
  obtain ⟨hdefs, hdefinitions, hapart⟩ := hn
  unfold Schema.findDefinition?
  cases c with
  | defs =>
    have hl : s.definition? .defs name = some t := Tables.lookup_of_mem hdefs hm
    rw [hl]
  | definitions =>
    have hl : s.definition? .definitions name = some t := Tables.lookup_of_mem hdefinitions hm
    cases hd : s.definition? .defs name with
    | none => simp only [hl, Option.map_some]
    | some u =>
      have hin := Schema.mem_map_fst_of_lookup hd
      have hin' := Schema.mem_map_fst_of_lookup hl
      exact absurd rfl (hapart name hin name hin')

namespace BecomesDocument

/-- **The types of the document are those of the definitions**, each once. -/
theorem types (h : BecomesDocument source d) :
    ∃ made : Container → List Item,
      (∀ c, BecomeItems source (d.namespaceOf? "") c (source.schema.definitions c) (made c)) ∧
        (d.items.filter Item.isType).Perm (made .defs ++ made .definitions) := by
  obtain ⟨items, built, hitems, hd⟩ := h.items
  obtain ⟨made, hmade, hperm⟩ := hitems.types
  refine ⟨made, fun c => pending_rootWorkList source.schema c ▸ hmade c, ?_⟩
  rcases hd with ⟨_, hd⟩ | ⟨_, _, e, _, hd⟩
  · rw [hd]
    exact hperm
  · rw [hd, List.filter_append]
    simpa [Item.isType] using hperm

/-- **One item is the root element**, as the rules make it. -/
theorem element (h : BecomesDocument source d) :
    ∃ e, BecomesRoot source (d.namespaceOf? "") e ∧ d.items.filterMap Item.element? = [e] := by
  obtain ⟨items, built, hitems, hd⟩ := h.items
  obtain ⟨_, hone, hnone⟩ := hitems.element
  rcases hd with ⟨hb, hd⟩ | ⟨hb, _, e, he, hd⟩
  · rw [hd]
    exact hone rfl hb
  · refine ⟨e, he, ?_⟩
    rw [hd, List.filterMap_append, hnone hb]
    rfl

theorem documentation (h : BecomesDocument source d) {entries : List (String × Json)}
    (hg : source.schema.get? .info = some (.info entries)) :
    ∃ a, documentationOf entries = .ok a ∧ .documentation a ∈ d.items := by
  obtain ⟨items, built, hitems, hd⟩ := h.items
  have hm : .info ∉ (rootWorkList source.schema).marked := by
    intro hi
    rcases WorkList.mem_markAll.1 hi with hi | hi
    · exact absurd hi (by decide)
    · cases hi
  obtain ⟨a, ha, hin⟩ := hitems.documentation hm (by simpa [Schema.get?] using hg)
  rcases hd with ⟨_, hd⟩ | ⟨_, _, e, _, hd⟩
  · exact ⟨a, ha, hd ▸ hin⟩
  · exact ⟨a, ha, hd ▸ List.mem_append_left _ hin⟩

theorem declaredNames_perm (h : BecomesDocument source d) :
    d.declaredNames.Perm source.schema.definitionNames := by
  obtain ⟨made, hmade, hperm⟩ := h.types
  have hp := hperm.filterMap Item.declaredName?
  rw [filterMap_isType, List.filterMap_append, (hmade .defs).declaredNames,
    (hmade .definitions).declaredNames, ← List.map_append] at hp
  exact hp

theorem definitionNames_nodup (h : BecomesDocument source d) :
    source.schema.definitionNames.Nodup :=
  h.declaredNames_perm.nodup h.names

theorem findDefinition? (h : BecomesDocument source d)
    (hm : (name, t) ∈ source.schema.definitions c) :
    source.schema.findDefinition? name = some (c, t) :=
  findDefinition?_of_mem h.definitionNames_nodup hm

theorem home (h : BecomesDocument source d) (hm : (name, t) ∈ source.schema.definitions c) :
    source.schema.home name = definitionPlace c name := by
  rw [Schema.home, h.findDefinition? hm]

theorem item_of_definition (h : BecomesDocument source d)
    (hm : (name, t) ∈ source.schema.definitions c) :
    ∃ item ∈ d.items, BecomesItem source (d.namespaceOf? "") c name t item ∧
      d.items.filter (fun i => i.declaredName? = some name) = [item] := by
  obtain ⟨made, hmade, hperm⟩ := h.types
  obtain ⟨item, hi, hitem⟩ := Tables.exists_of_mem_left (hmade c) hm
  have hall : item ∈ made .defs ++ made .definitions := by
    cases c with
    | defs => exact List.mem_append_left _ hi
    | definitions => exact List.mem_append_right _ hi
  have hd : item ∈ d.items := (List.mem_filter.1 (hperm.mem_iff.2 hall)).1
  exact ⟨item, hd, hitem, Tables.filter_key_eq h.names hd hitem.declaredName⟩

theorem definition_of_item (h : BecomesDocument source d) {item : Item} (hi : item ∈ d.items)
    (ht : item.isType = true) :
    ∃ c name t, (name, t) ∈ source.schema.definitions c ∧
      BecomesItem source (d.namespaceOf? "") c name t item := by
  obtain ⟨made, hmade, hperm⟩ := h.types
  have hall := hperm.mem_iff.1 (List.mem_filter.2 ⟨hi, ht⟩)
  rcases List.mem_append.1 hall with hm | hm
  · obtain ⟨⟨name, t⟩, he, hitem⟩ := Tables.exists_of_mem_right (hmade .defs) hm
    exact ⟨.defs, name, t, he, hitem⟩
  · obtain ⟨⟨name, t⟩, he, hitem⟩ := Tables.exists_of_mem_right (hmade .definitions) hm
    exact ⟨.definitions, name, t, he, hitem⟩

theorem eq_of_declaredName (h : BecomesDocument source d) {item other : Item}
    (hi : item ∈ d.items) (ho : other ∈ d.items) (hn : item.declaredName? = some name)
    (hn' : other.declaredName? = some name) : item = other := by
  have hone := Tables.filter_key_eq h.names hi hn
  have hm : other ∈ d.items.filter fun i => i.declaredName? = some name :=
    List.mem_filter.2 ⟨ho, decide_eq_true hn'⟩
  rw [hone] at hm
  exact (List.mem_singleton.1 hm).symm

theorem home_of_complexType (h : BecomesDocument source d) {type : ComplexType}
    (hi : .complexType type ∈ d.items) :
    ∃ c name, type.name = some name ∧
      source.schema.home (type.name.getD "") = definitionPlace c name := by
  obtain ⟨c, name, t, hm, hitem⟩ := h.definition_of_item hi rfl
  have hname : type.name = some name := hitem.declaredName
  refine ⟨c, name, hname, ?_⟩
  rw [hname, Option.getD_some, h.home hm]

theorem element_unique (h : BecomesDocument source d) {e e' : Element}
    (he : .element e ∈ d.items) (he' : .element e' ∈ d.items) : e = e' := by
  obtain ⟨_, _, hall⟩ := h.element
  have hm : e ∈ d.items.filterMap Item.element? := List.mem_filterMap.2 ⟨_, he, rfl⟩
  have hm' : e' ∈ d.items.filterMap Item.element? := List.mem_filterMap.2 ⟨_, he', rfl⟩
  rw [hall, List.mem_singleton] at hm hm'
  rw [hm, hm']

theorem rootElement (h : BecomesDocument source d) :
    ∃ e, .element e ∈ d.items ∧ BecomesRoot source (d.namespaceOf? "") e := by
  obtain ⟨e, hroot, hall⟩ := h.element
  have hm : e ∈ d.items.filterMap Item.element? := by
    rw [hall]
    exact List.mem_singleton.2 rfl
  obtain ⟨item, hi, heq⟩ := List.mem_filterMap.1 hm
  cases item with
  | element e' =>
    cases heq
    exact ⟨e, hi, hroot⟩
  | _ => cases heq

theorem root_of_element (h : BecomesDocument source d) {e : Element} (he : .element e ∈ d.items) :
    BecomesRoot source (d.namespaceOf? "") e := by
  obtain ⟨e', hroot, hall⟩ := h.element
  have hm : e ∈ d.items.filterMap Item.element? := List.mem_filterMap.2 ⟨_, he, rfl⟩
  rw [hall, List.mem_singleton] at hm
  rw [hm]
  exact hroot

end BecomesDocument
end Conversion
end XsdSynthesis
