import XsdSynthesis.Proofs.Capture

/-!
# XsdSynthesis.Proofs.Completeness

What the rules allow, synthesis does. If a subschema becomes a node, `synthesize` ends with that node
(`synthesize_of_becomes`): no place is entered twice, since distinct names lead to places apart, and
what is pulled was the only keyword of its kind, so nothing is left over.
-/

namespace XsdSynthesis

open Xsd Conversion

/-! ## Places visited -/

namespace Ledger

variable {l l' l'' : Ledger} {p q : Pointer}

/-- Neither the place nor one below it was visited. -/
def Clear (l : Ledger) (p : Pointer) : Prop := ∀ q ∈ l.visited, ¬ p.segments <+: q.segments

/-- The places visited between two ledgers are the given one and places below it. -/
def Visits (l l' : Ledger) (p : Pointer) : Prop :=
  ∀ q ∈ l'.visited, q ∈ l.visited ∨ p.segments <+: q.segments

theorem visits_of_eq (h : l'.visited = l.visited) (p : Pointer) : l.Visits l' p :=
  fun _ hq => .inl (h ▸ hq)

theorem Visits.trans (h : l.Visits l' p) (h' : l'.Visits l'' p) : l.Visits l'' p := by
  intro q hq
  rcases h' q hq with hq | hq
  · exact h q hq
  · exact .inr hq

theorem Visits.above (h : l.Visits l' q) (hp : p.segments <+: q.segments) : l.Visits l' p :=
  fun _ hr => (h _ hr).imp_right hp.trans

theorem Clear.below (h : l.Clear p) (hp : p.segments <+: q.segments) : l.Clear q :=
  fun r hr hq => h r hr (hp.trans hq)

theorem Clear.notMem (h : l.Clear p) : p ∉ l.visited := fun hp => h p hp (List.prefix_refl _)

/-- Visits elsewhere leave a place clear. -/
theorem Clear.after (h : l.Clear p) (hv : l.Visits l' q)
    (hapart : ∀ r : List String, q.segments <+: r → ¬ p.segments <+: r) : l'.Clear p := by
  intro r hr
  rcases hv r hr with hr | hr
  · exact h r hr
  · exact hapart _ hr

end Ledger

namespace Pointer

variable {p : Pointer}

/-- Nothing lies below two places that differ and are equally deep. -/
theorem apart {ss ts : List String} (hn : ss ≠ ts) (hl : ss.length = ts.length) {r : List String}
    (hs : ss <+: r) : ¬ ts <+: r := by
  intro ht
  exact hn ((List.prefix_of_prefix_length_le hs ht (Nat.le_of_eq hl)).eq_of_length hl)

theorem apart_child {s t : String} (h : s ≠ t) {r : List String}
    (hs : (p.child s).segments <+: r) : ¬ (p.child t).segments <+: r :=
  apart (by simpa using h) (by simp) hs

end Pointer

theorem prefix_propertyPlace (p : Pointer) (name : String) :
    (p.child "properties").segments <+: (propertyPlace p name).segments := by
  simp only [propertyPlace, Pointer.segments_child, Pointer.segments_append]
  exact (List.prefix_append_right_inj _).2 ⟨[name], rfl⟩

theorem apart_propertyPlace {p : Pointer} {name other : String} (h : name ≠ other)
    {r : List String} (hn : (propertyPlace p name).segments <+: r) :
    ¬ (propertyPlace p other).segments <+: r :=
  Pointer.apart (by simpa [propertyPlace] using h) (by simp [propertyPlace]) hn

namespace Conversion

variable {source : Source} {ns : Option String} {place : Pointer} {depth : Nat} {t : Schema}
  {made : Synthesized} {l l' : Ledger} {w w' : WorkList} {c : Container} {name : String}

/-- A place that is entered does not lie below itself. -/
theorem clear_entered {ss : List String} (hs : ss ≠ []) (h : l.Clear (place.append ss)) :
    (entered l place depth).Clear (place.append ss) := by
  intro q hq
  rcases List.mem_cons.1 hq with rfl | hq
  · intro hp
    have := hp.length_le
    simp only [Pointer.segments_append, List.length_append] at this
    exact hs (List.eq_nil_of_length_eq_zero (by omega))
  · exact h q hq

theorem visits_entered (l : Ledger) (place : Pointer) (depth : Nat) :
    l.Visits (entered l place depth) place := by
  intro q hq
  rcases List.mem_cons.1 hq with rfl | hq
  · exact .inr (List.prefix_refl _)
  · exact .inl hq

/-! ## Nothing is left over -/

/-- At most one keyword of a kind is left. -/
def Lone (w : WorkList) (kind : Kind) : Prop :=
  w.items.Pairwise fun k other => k.kind = kind → other.kind ≠ kind

theorem lone_of_items (hw : w.items = t.keywords) (ht : t.IsRead) {kind : Kind}
    (hk : kind ≠ .unknown) : Lone w kind := by
  unfold Lone
  rw [hw]
  refine ht.kinds.imp fun {k other} hne hkind hother => ?_
  exact hne (hkind ▸ hk) (hother.trans hkind.symm)

theorem Lone.pull {kind : Kind} (h : Lone w kind) (other : Kind) :
    Lone (w.pull other).2 kind := by
  rw [Lone, WorkList.items_pull]
  exact h.sublist List.eraseP_sublist

/-- A kind that was pulled is gone. -/
theorem Lone.gone {kind : Kind} (h : Lone w kind) :
    ∀ k ∈ (w.pull kind).2.items, k.kind ≠ kind := by
  rw [WorkList.items_pull]
  unfold Lone at h
  generalize w.items = ks at h ⊢
  induction h with
  | nil => simp
  | @cons k rest hk _ ih =>
    by_cases hkind : k.kind = kind
    -- the first one of the kind is erased, and no other one follows
    · rw [List.eraseP_cons_of_pos (by simpa using hkind)]
      exact fun other ho => hk other ho hkind
    · rw [List.eraseP_cons_of_neg (by simpa using hkind)]
      exact List.forall_mem_cons.2 ⟨hkind, ih⟩

theorem mem_of_mem_pull {kind : Kind} {k : Keyword} (h : k ∈ (w.pull kind).2.items) :
    k ∈ w.items := by
  rw [WorkList.items_pull] at h
  exact List.mem_of_mem_eraseP h

theorem afterComplex_gone (hw : ∀ kind, kind ≠ .unknown → Lone w kind) :
    ∀ k ∈ (afterComplex w).items,
      k ∈ w.items ∧ k.kind ∉ [Kind.type, .required, .properties] := by
  intro k hk
  have hp := ((hw .properties (by decide)).pull .type |>.pull .required).gone k hk
  have hk₂ := mem_of_mem_pull hk
  have hr := ((hw .required (by decide)).pull .type).gone k hk₂
  have hk₁ := mem_of_mem_pull hk₂
  have ht := (hw .type (by decide)).gone k hk₁
  exact ⟨mem_of_mem_pull hk₁, by simp [ht, hr, hp]⟩

theorem afterSimple_gone (hw : ∀ kind, kind ≠ .unknown → Lone w kind) :
    ∀ k ∈ (afterSimple w).items, k ∈ w.items ∧ k.kind ∉ [Kind.ref, .type] := by
  intro k hk
  have ht := ((hw .type (by decide)).pull .ref).gone k hk
  have hk₁ := mem_of_mem_pull hk
  have hr := (hw .ref (by decide)).gone k hk₁
  exact ⟨mem_of_mem_pull hk₁, by simp [ht, hr]⟩

theorem flagless_lone (ht : t.IsRead) {kind : Kind} (hk : kind ≠ .unknown) :
    Lone (flaglessWorkList t) kind :=
  (lone_of_items (items_nestedWorkList t) ht hk).pull .asAttribute

/-- A list of a subschema is drained once its kinds are pulled. -/
theorem nested_drained {kinds : List Kind} (ht : t.IsRead)
    (hkinds : ∀ k ∈ t.keywords, k.kind ∈ documentKinds ++ .asAttribute :: kinds)
    (hm : w.marked = (flaglessWorkList t).marked)
    (hw : ∀ k ∈ w.items, k ∈ (flaglessWorkList t).items ∧ k.kind ∉ kinds) :
    w.unhandledNames = [] := by
  refine WorkList.drained_iff.2 fun k hk => ?_
  obtain ⟨hk, hgone⟩ := hw k hk
  have hlone : Lone (nestedWorkList t) .asAttribute :=
    lone_of_items (items_nestedWorkList t) ht (by decide)
  have hflag := hlone.gone k hk
  have hmem : k ∈ t.keywords := by simpa using mem_of_mem_pull hk
  rw [hm]
  rcases List.mem_append.1 (hkinds k hmem) with hd | hk
  · exact WorkList.mem_markAll.2 (.inl hd)
  · rcases List.mem_cons.1 hk with hk | hk
    · exact absurd hk hflag
    · exact absurd hk hgone

/-! ## Subschemas -/

theorem membersOf_eq (place : Pointer) (depth : Nat) (required : List String)
    (keywords : List Keyword) :
    membersOf source place depth required keywords =
      entriesOf source place depth required (Schema.mk keywords).properties := by
  induction keywords with
  | nil => rfl
  | cons k rest ih =>
    by_cases hk : k.kind = .properties
    · cases k with
      | properties entries => rfl
      | _ => cases hk
    · rw [membersOf_cons hk, properties_cons hk, ih]

/-- From any ledger with a clear place and the given default namespace, synthesis there ends with
the node, and visits nothing elsewhere. -/
def Synthesizes (source : Source) (ns : Option String) (place : Pointer) (depth : Nat) (t : Schema)
    (made : Synthesized) : Prop :=
  ∀ l : Ledger, l.document.namespaceOf? "" = ns → l.Clear place →
    ∃ l', synthesize source place depth t l = (.ok made, l') ∧ l'.document = l.document ∧
      l.Visits l' place

/-- Properties under distinct names, each of which synthesis can make, all become members. -/
theorem entriesOf_of_parts {parts : List Part} {required : List String}
    (hnames : ∀ p ∈ parts, Xml.isName p.name = true) (hdistinct : (parts.map Part.name).Nodup)
    (hmade : ∀ p ∈ parts,
      Synthesizes source ns (propertyPlace place p.name) (depth + 1) p.schema p.made)
    (hns : l.document.namespaceOf? "" = ns)
    (hclear : ∀ p ∈ parts, l.Clear (propertyPlace place p.name)) :
    ∃ l', entriesOf source place depth required (parts.map Part.entry) l =
        (.ok (Members.ofParts required parts), l') ∧ l'.document = l.document ∧
      l.Visits l' (place.child "properties") := by
  induction parts generalizing l with
  | nil => exact ⟨l, pure_ok.2 ⟨rfl, rfl⟩, rfl, Ledger.visits_of_eq rfl _⟩
  | cons p rest ih =>
    obtain ⟨hname, hnames⟩ := List.forall_mem_cons.1 hnames
    obtain ⟨hp, hrest⟩ := List.forall_mem_cons.1 hmade
    obtain ⟨hc, hclear⟩ := List.forall_mem_cons.1 hclear
    rw [List.map_cons, List.nodup_cons] at hdistinct
    obtain ⟨l₁, hrun, hdoc, hvisits⟩ := hp l hns hc
    -- the first property visits only its own place and places below
    have hclear₁ : ∀ other ∈ rest, l₁.Clear (propertyPlace place other.name) := by
      intro other ho
      have hne : p.name ≠ other.name := fun he => hdistinct.1 (he ▸ List.mem_map_of_mem ho)
      exact (hclear other ho).after hvisits fun r => apart_propertyPlace hne
    obtain ⟨l₂, hothers, hdoc', hvisits'⟩ :=
      ih hnames hdistinct.2 hrest (by rw [hdoc, hns]) hclear₁
    refine ⟨l₂, ?_, hdoc'.trans hdoc,
      (hvisits.above (prefix_propertyPlace place p.name)).trans hvisits'⟩
    rw [List.map_cons, Part.entry, entriesOf]
    refine bind_lift_ok.2 ⟨(), checkName_ok.2 hname, ?_⟩
    exact bind_ok.2 ⟨_, _, hrun, bind_ok.2 ⟨_, _, hothers, pure_ok.2 ⟨rfl, rfl⟩⟩⟩

theorem names_of_entries {parts : List Part} {entries : List (String × Schema)}
    (h : parts.map Part.entry = entries) : parts.map Part.name = entries.map Prod.fst := by
  rw [← h, List.map_map]
  rfl

/-- **Synthesis makes what the rules allow**, by induction on the rules. -/
theorem synthesize_of_becomes (h : Becomes source ns place depth t made) (ht : t.IsRead) :
    Synthesizes source ns place depth t made := by
  induction h with
  | @complex place depth t parts hd ho hflag hkinds hparts hnames _ ih =>
    intro l hns hclear
    obtain ⟨keywords⟩ := t
    have hchildren : ∀ p ∈ parts,
        Synthesizes source ns (propertyPlace place p.name) (depth + 1) p.schema p.made := by
      intro p hp
      have hentry : p.entry ∈ (Schema.mk keywords).properties :=
        hparts ▸ List.mem_map_of_mem hp
      obtain ⟨entries, hk, he⟩ := Schema.mem_properties hentry
      exact ih p hp ((ht.properties hk).2 _ he)
    have hdistinct : (parts.map Part.name).Nodup :=
      names_of_entries hparts ▸ ht.properties_nodup
    have hclear₁ : ∀ p ∈ parts, (entered l place depth).Clear (propertyPlace place p.name) :=
      fun p _ => clear_entered (List.cons_ne_nil _ _) (hclear.below ⟨_, rfl⟩)
    have hns₁ : (entered l place depth).document.namespaceOf? "" = ns := hns
    obtain ⟨l₁, hrun, hdoc, hvisits⟩ := entriesOf_of_parts
      hnames hdistinct hchildren hns₁ hclear₁
    refine ⟨l₁, ?_, hdoc, (visits_entered l place depth).trans (hvisits.above ⟨_, rfl⟩)⟩
    obtain ⟨ha, hf⟩ := WorkList.pullAsAttribute_getD (nested_offers (.mk keywords) .asAttribute)
    rw [← flaglessWorkList] at hf
    simp only [synthesize, nestedWorkList_mk, ha, hf]
    refine bind_enter_ok.2 ⟨hd, hclear.notMem, ?_⟩
    rw [if_pos ho.shape, hflag, if_neg (by decide)]
    refine bind_lift_ok.2 ⟨(_, _), (openComplex_ok fun kind hk =>
      flagless_offers (.mk keywords) hk).2 ⟨ho.plain, ho.types, ho.required, rfl, rfl⟩, ?_⟩
    rw [hparts, ← membersOf_eq] at hrun
    refine bind_ok.2 ⟨_, _, hrun, ?_⟩
    have hdrained := nested_drained ht hkinds (without_afterComplex _).marked
      (afterComplex_gone fun kind hk => flagless_lone ht hk)
    exact bind_lift_ok.2 ⟨(), checkDrained_ok.2 hdrained, pure_ok.2 ⟨rfl, rfl⟩⟩
  | @simple place depth t typeName hd ho hkinds hname =>
    intro l hns hclear
    obtain ⟨keywords⟩ := t
    refine ⟨entered l place depth, ?_, rfl, visits_entered l place depth⟩
    obtain ⟨ha, hf⟩ := WorkList.pullAsAttribute_getD (nested_offers (.mk keywords) .asAttribute)
    rw [← flaglessWorkList] at hf
    simp only [synthesize, nestedWorkList_mk, ha, hf]
    refine bind_enter_ok.2 ⟨hd, hclear.notMem, ?_⟩
    rw [if_neg (by simp [ho.notComplex]), if_pos ho.shape, bind_defaultNamespace_ok]
    have hsame : (entered l place depth).document.namespaceOf? "" = ns := hns
    rw [hsame]
    refine bind_lift_ok.2 ⟨(_, _), (simpleTypeName_ok fun kind hk =>
      flagless_offers (.mk keywords) hk).2 ⟨ho.plain, hname, rfl⟩, ?_⟩
    have hdrained := nested_drained ht hkinds (without_afterSimple _).marked
      (afterSimple_gone fun kind hk => flagless_lone ht hk)
    exact bind_lift_ok.2 ⟨(), checkDrained_ok.2 hdrained, pure_ok.2 ⟨rfl, rfl⟩⟩

end Conversion
end XsdSynthesis
