import XsdSynthesis.Proofs.Transfer

/-!
# XsdSynthesis.Proofs.KeyOrder

The order of keys decides nothing but orders. Alike schemas yield alike documents (`Yields.transfer`):
the table of prefixes and the attributes come from the same declarations, and the keywords of the
root contribute the same items wherever they stand (`BecomesItems.perm`). So conversions of
two reordered values both succeed or both fail, and the documents are alike (`key_order`).
-/

namespace XsdSynthesis

open Xsd Conversion
open Json (Role)

namespace Conversion

variable {free : Role → Prop} {source source' : Source} {ns : Option String} {d : Document}
  {marked : List Kind} {built final : Bool} {k : Keyword} {ks ks' rest : List Keyword}
  {items : List Item}

/-! ## Heading -/

theorem addBuiltIn_transfer {free : Prop} {table table' added : List (String × String)}
    {binding : String × String} (h : Rearranged free table table')
    (ha : addBuiltIn table binding = .ok added) :
    ∃ added', addBuiltIn table' binding = .ok added' ∧ Rearranged free added added' := by
  have hprefixes := (h.map Prod.fst).mem_iff (a := binding.1)
  have huris := (h.map Prod.snd).mem_iff (a := binding.2)
  rcases addBuiltIn_ok.1 ha with ⟨hu, rfl⟩ | ⟨hu, hfree, rfl⟩
  · exact ⟨table', addBuiltIn_ok.2 (.inl ⟨huris.1 hu, rfl⟩), h⟩
  · refine ⟨table' ++ [binding], addBuiltIn_ok.2 (.inr ⟨?_, ?_, rfl⟩), h.append (.refl [binding])⟩
    · exact fun hm => hu (huris.2 hm)
    · exact fun hm => hfree (hprefixes.2 hm)

/-- Declarations in another order give the same table, as far as order goes. -/
theorem namespaceTable_transfer {free : Prop} {declared declared' table : List (String × String)}
    (h : Rearranged free declared declared') (ht : namespaceTable declared = .ok table) :
    ∃ table', namespaceTable declared' = .ok table' ∧ Rearranged free table table' := by
  obtain ⟨_, hchecked, ht⟩ := Checks.bind_ok.1 ht
  simp only [builtInNamespaces, List.foldlM_cons, List.foldlM_nil] at ht
  obtain ⟨t₁, h₁, ht⟩ := Checks.bind_ok.1 ht
  obtain ⟨t₂, h₂, ht⟩ := Checks.bind_ok.1 ht
  cases Checks.pure_ok.1 ht
  have hchecked' : (declared'.forM fun b => checkPrefix b.1) = (.ok () : Except Problem Unit) :=
    checkPrefixes_ok.2 fun p hp => checkPrefixes_ok.1 hchecked p ((h.map Prod.fst).mem_iff.2 hp)
  obtain ⟨t₁', h₁', hr₁⟩ := addBuiltIn_transfer h h₁
  obtain ⟨t₂', h₂', hr₂⟩ := addBuiltIn_transfer hr₁ h₂
  refine ⟨t₂', Checks.bind_ok.2 ⟨(), hchecked', ?_⟩, hr₂⟩
  simp only [builtInNamespaces, List.foldlM_cons, List.foldlM_nil]
  exact Checks.bind_ok.2 ⟨t₁', h₁', Checks.bind_ok.2 ⟨t₂', h₂', rfl⟩⟩

/-! ## Keywords of the root, one by one -/

theorem documentationOf_transfer {entries entries' : List (String × Json)} {a : Documentation}
    (h : Matches (free .plain) (Json.MemberReordered free .plain) entries entries')
    (ha : documentationOf entries = .ok a) :
    ∃ a', documentationOf entries' = .ok a' ∧
      Item.Alike free (.documentation a) (.documentation a') := by
  obtain ⟨markup, hmarkup, ha⟩ := Checks.bind_ok.1 ha
  cases Checks.pure_ok.1 ha
  obtain ⟨markup', hmarkup', hsame⟩ := h.mapM_ok (q := fun x y => y = x) hmarkup (by
    rintro ⟨name, v⟩ ⟨_, v'⟩ x ⟨rfl, hv⟩ hx
    cases v with
    | str fixed =>
      cases hv
      exact ⟨x, hx, rfl⟩
    | _ => cases hx)
  exact ⟨⟨[markup']⟩, Checks.bind_ok.2 ⟨markup', hmarkup', rfl⟩,
    .documentation (.cons hsame.of_eq .nil)⟩

/-- **Alike keywords in one order become alike items**, by induction on the rules. -/
theorem BecomesItems.transfer (hs : SourcesAlike free source source')
    (hall : List.Forall₂ (Keyword.Alike free) ks ks')
    (hmem : ∀ k ∈ ks', k ∈ source'.schema.keywords)
    (h : BecomesItems source ns marked built ks items final) :
    ∃ items', BecomesItems source' ns marked built ks' items' final ∧
      Matches (free .nodes) (Item.Alike free) items items' := by
  induction h generalizing ks' with
  | nil =>
    cases hall
    exact ⟨[], .nil, .of_forall₂ .nil⟩
  | pass hk _ ih =>
    cases hall with
    | cons halike hrest =>
      obtain ⟨items', hitems, hm⟩ := ih hrest (List.forall_mem_cons.1 hmem).2
      exact ⟨items', .pass (halike.kind ▸ hk) hitems, hm⟩
  | info hfresh ha _ ih =>
    cases hall with
    | cons halike hrest =>
      obtain ⟨items', hitems, hm⟩ := ih hrest (List.forall_mem_cons.1 hmem).2
      cases halike with
      | atom hatom => cases hatom
      | info hentries =>
        obtain ⟨a', ha', hsame⟩ := documentationOf_transfer hentries ha
        exact ⟨_, .info hfresh ha' hitems, hm.cons hsame⟩
  | definitions hfresh hmade _ ih =>
    cases hall with
    | cons halike hrest =>
      obtain ⟨hk, hmem⟩ := List.forall_mem_cons.1 hmem
      obtain ⟨items', hitems, hm⟩ := ih hrest hmem
      cases halike with
      | atom hatom => cases hatom
      | definitions hentries =>
        obtain ⟨made', hmade', hsame⟩ := BecomeItems.transfer hs (entriesAlike_iff.1 hentries)
          (hs.read'.definitions hk).2 hmade
        exact ⟨_, .definitions hfresh hmade' hitems, hsame.append hm⟩
  | root hfresh hd hbecomes _ ih =>
    cases hall with
    | cons halike hrest =>
      rw [← halike.kind] at hfresh hd ih
      obtain ⟨items', hitems, hm⟩ := ih hrest (List.forall_mem_cons.1 hmem).2
      obtain ⟨e', he', hsame⟩ := hbecomes.transfer hs
      exact ⟨_, .root hfresh hd he' hitems, hm.cons (.element hsame)⟩
  | again hfresh hd _ ih =>
    cases hall with
    | cons halike hrest =>
      rw [← halike.kind] at hfresh hd ih
      obtain ⟨items', hitems, hm⟩ := ih hrest (List.forall_mem_cons.1 hmem).2
      exact ⟨items', .again hfresh hd hitems, hm⟩

/-! ## Keywords of the root in another order -/

/-- The items that a keyword of the root gives, apart from the root element. -/
inductive Contributes (source : Source) (ns : Option String) : Keyword → List Item → Prop where
  | info {entries : List (String × Json)} {a : Documentation} : documentationOf entries = .ok a →
      Contributes source ns (.info entries) [.documentation a]
  | definitions {c : Container} {entries : List (String × Schema)} {made : List Item} :
      BecomeItems source ns c entries made → Contributes source ns (.definitions c entries) made
  | other {k : Keyword} : (k.kind.isDispatched = false ∨ k.kind.describesRoot = true) →
      Contributes source ns k []

/-- The root element that keywords give, if it was not there before. -/
inductive GivesRoot (source : Source) (ns : Option String) :
    Bool → List Keyword → List Item → Bool → Prop where
  | there {ks : List Keyword} : GivesRoot source ns true ks [] true
  | absent {ks : List Keyword} : (∀ k ∈ ks, k.kind.describesRoot = false) →
      GivesRoot source ns false ks [] false
  | made {ks : List Keyword} {k : Keyword} {e : Element} : k ∈ ks → k.kind.describesRoot = true →
      BecomesRoot source ns e → GivesRoot source ns false ks [.element e] true

/-- Keywords of dispatched kinds are of different kinds. -/
def Apart (ks : List Keyword) : Prop :=
  ks.Pairwise fun k other => k.kind.isDispatched = true → other.kind ≠ k.kind

/-- No keyword is of a dispatched kind that is marked. -/
def Unmarked (marked : List Kind) (ks : List Keyword) : Prop :=
  ∀ k ∈ ks, k.kind.isDispatched = true → k.kind ∉ marked

theorem unmarked_tail (h : Unmarked marked (k :: rest)) (ha : Apart (k :: rest))
    (hd : k.kind.isDispatched = true) : Unmarked (k.kind :: marked) rest := by
  intro other ho hother hm
  rcases List.mem_cons.1 hm with hm | hm
  · exact (List.pairwise_cons.1 ha).1 other ho hd hm
  · exact h other (List.mem_cons_of_mem _ ho) hother hm

theorem describesRoot_of_notDispatched {kind : Kind} (h : kind.isDispatched = false) :
    kind.describesRoot = false := by
  cases hd : kind.describesRoot with
  | false => rfl
  | true =>
    rw [isDispatched_of_describesRoot hd] at h
    cases h

namespace GivesRoot

variable {root : List Item}

theorem perm (h : GivesRoot source ns built ks root final) (hp : ks.Perm ks') :
    GivesRoot source ns built ks' root final := by
  cases h with
  | there => exact .there
  | absent hnone => exact .absent fun k hk => hnone k (hp.mem_iff.2 hk)
  | made hk hd he => exact .made (hp.mem_iff.1 hk) hd he

theorem cons (h : GivesRoot source ns built rest root final) (hk : k.kind.describesRoot = false) :
    GivesRoot source ns built (k :: rest) root final := by
  cases h with
  | there => exact .there
  | absent hnone => exact .absent (List.forall_mem_cons.2 ⟨hk, hnone⟩)
  | made hm hd he => exact .made (List.mem_cons_of_mem _ hm) hd he

theorem tail (h : GivesRoot source ns built (k :: rest) root final)
    (hk : k.kind.describesRoot = false) : GivesRoot source ns built rest root final := by
  cases h with
  | there => exact .there
  | absent hnone => exact .absent (List.forall_mem_cons.1 hnone).2
  | made hm hd he =>
    rcases List.mem_cons.1 hm with rfl | hm
    · rw [hk] at hd
      cases hd
    · exact .made hm hd he

end GivesRoot

/-- What the items are made of, whatever the order of the keywords. -/
theorem BecomesItems.contributions (h : BecomesItems source ns marked built ks items final)
    (hu : Unmarked marked ks) (ha : Apart ks) :
    ∃ news root, List.Forall₂ (Contributes source ns) ks news ∧
      GivesRoot source ns built ks root final ∧ items.Perm (news.flatten ++ root) := by
  induction h with
  | @nil marked built =>
    cases built with
    | true => exact ⟨[], [], .nil, .there, .refl _⟩
    | false => exact ⟨[], [], .nil, .absent (by simp), .refl _⟩
  | @pass marked built final k rest items hk _ ih =>
    have hnot : k.kind.isDispatched = false := by
      rcases hk with hk | hk
      · by_contra hd
        exact hu k List.mem_cons_self (by simpa using hd) hk
      · exact hk
    obtain ⟨news, root, hnews, hroot, hperm⟩ :=
      ih (List.forall_mem_cons.1 hu).2 (List.pairwise_cons.1 ha).2
    exact ⟨[] :: news, root, .cons (.other (.inl hnot)) hnews,
      hroot.cons (describesRoot_of_notDispatched hnot), hperm⟩
  | @info marked built final entries a rest items _ hdoc _ ih =>
    obtain ⟨news, root, hnews, hroot, hperm⟩ :=
      ih (unmarked_tail hu ha rfl) (List.pairwise_cons.1 ha).2
    exact ⟨_ :: news, root, .cons (.info hdoc) hnews, hroot.cons rfl, hperm.cons _⟩
  | @definitions marked built final c entries made items rest _ hmade _ ih =>
    obtain ⟨news, root, hnews, hroot, hperm⟩ :=
      ih (unmarked_tail hu ha rfl) (List.pairwise_cons.1 ha).2
    refine ⟨made :: news, root, .cons (.definitions hmade) hnews, hroot.cons rfl, ?_⟩
    rw [List.flatten_cons, List.append_assoc]
    exact hperm.append_left made
  | @root marked final k e rest items _ hd he _ ih =>
    obtain ⟨news, root, hnews, hroot, hperm⟩ :=
      ih (unmarked_tail hu ha (isDispatched_of_describesRoot hd)) (List.pairwise_cons.1 ha).2
    -- the other keywords find the root element there, so it is not among their items
    cases hroot with
    | there =>
      refine ⟨[] :: news, [.element e], .cons (.other (.inr hd)) hnews,
        .made List.mem_cons_self hd he, ?_⟩
      rw [List.append_nil] at hperm
      exact (hperm.cons _).trans (List.perm_append_singleton _ _).symm
  | @again marked final k rest items _ hd _ ih =>
    obtain ⟨news, root, hnews, hroot, hperm⟩ :=
      ih (unmarked_tail hu ha (isDispatched_of_describesRoot hd)) (List.pairwise_cons.1 ha).2
    cases hroot with
    | there => exact ⟨[] :: news, [], .cons (.other (.inr hd)) hnews, .there, hperm⟩

/-- What keywords contribute, they contribute in any order, by induction on the keywords. -/
theorem becomesItems_of_contributions {news : List (List Item)} {root : List Item}
    (hnews : List.Forall₂ (Contributes source ns) ks news)
    (hroot : GivesRoot source ns built ks root final) (hu : Unmarked marked ks) (ha : Apart ks) :
    ∃ items, BecomesItems source ns marked built ks items final ∧
      items.Perm (news.flatten ++ root) := by
  induction hnews generalizing marked built root with
  | nil =>
    cases hroot with
    | there => exact ⟨[], .nil, .refl _⟩
    | absent _ => exact ⟨[], .nil, .refl _⟩
    | made hk _ _ => cases hk
  | @cons k new rest news hk _ ih =>
    have harest := (List.pairwise_cons.1 ha).2
    have hfresh := hu k List.mem_cons_self
    cases hk with
    | info hdoc =>
      obtain ⟨items, hitems, hperm⟩ := ih (hroot.tail rfl) (unmarked_tail hu ha rfl) harest
      exact ⟨_, .info (hfresh rfl) hdoc hitems, hperm.cons _⟩
    | definitions hmade =>
      obtain ⟨items, hitems, hperm⟩ := ih (hroot.tail rfl) (unmarked_tail hu ha rfl) harest
      refine ⟨_, .definitions (hfresh rfl) hmade hitems, ?_⟩
      rw [List.flatten_cons, List.append_assoc]
      exact hperm.append_left new
    | other hkind =>
      cases hd : k.kind.describesRoot with
      | false =>
        have hnot := hkind.resolve_right (by simp [hd])
        obtain ⟨items, hitems, hperm⟩ :=
          ih (hroot.tail hd) (List.forall_mem_cons.1 hu).2 harest
        exact ⟨items, .pass (.inr hnot) hitems, hperm⟩
      | true =>
        have hdispatched := isDispatched_of_describesRoot hd
        have hrest := unmarked_tail hu ha hdispatched
        cases hroot with
        | there =>
          obtain ⟨items, hitems, hperm⟩ := ih .there hrest harest
          exact ⟨items, .again (hfresh hdispatched) hd hitems, hperm⟩
        | absent hnone =>
          rw [hnone k List.mem_cons_self] at hd
          cases hd
        -- the keyword that describes the root and comes first gives its element
        | made _ _ he =>
          obtain ⟨items, hitems, hperm⟩ := ih .there hrest harest
          rw [List.append_nil] at hperm
          exact ⟨_, .root (hfresh hdispatched) hd he hitems,
            (hperm.cons _).trans (List.perm_append_singleton _ _).symm⟩

theorem Apart.perm (h : Apart ks) (hp : ks.Perm ks') : Apart ks' := by
  refine (hp.pairwise_iff fun {k other} hk ho hsame => ?_).1 h
  exact hk (hsame ▸ ho) hsame.symm

/-- **The keywords of the root in another order become the same items**, in some order. -/
theorem BecomesItems.perm (h : BecomesItems source ns marked built ks items final)
    (hp : ks.Perm ks') (hu : Unmarked marked ks) (ha : Apart ks) :
    ∃ items', BecomesItems source ns marked built ks' items' final ∧ items.Perm items' := by
  obtain ⟨news, root, hnews, hroot, hperm⟩ := h.contributions hu ha
  obtain ⟨news', hnews', hpnews⟩ := List.perm_comp_forall₂ hp.symm hnews
  obtain ⟨items', hitems', hperm'⟩ := becomesItems_of_contributions hnews' (hroot.perm hp)
    (fun k hk => hu k (hp.mem_iff.2 hk)) (ha.perm hp)
  exact ⟨items', hitems',
    hperm.trans ((hpnews.flatten.append_right root).symm.trans hperm'.symm)⟩

/-! ## The document -/

theorem apart_of_isRead {s : Schema} (hs : s.IsRead) : Apart s.keywords := by
  refine hs.kinds.imp fun {k other} hne hd => hne fun hu => ?_
  rw [hu] at hd
  cases hd

theorem unmarked_rootWorkList (s : Schema) : Unmarked (rootWorkList s).marked ks := by
  intro k _ hd hm
  have hnone : ∀ kind ∈ documentKinds ++ [.type], kind.isDispatched = false := by decide
  rcases WorkList.mem_markAll.1 hm with hm | hm
  · rw [hnone _ hm] at hd
    cases hd
  · cases hm

/-- Alike roots become the same items but for orders, with the root element where it comes. -/
theorem BecomesAll.transfer {all : List Item} (hs : SourcesAlike free source source')
    (h : BecomesAll source ns all) :
    ∃ all', BecomesAll source' ns all' ∧
      Matches (free .root ∨ free .nodes) (Item.Alike free) all all' := by
  obtain ⟨items, built, hitems, hall⟩ := h
  obtain ⟨middle, halike, hm⟩ := hs.schema.keywords
  obtain ⟨items₁, hitems₁, hsame⟩ := hitems.transfer hs halike fun k hk => hm.mem_iff.1 hk
  -- first each keyword becomes its counterpart, then the counterparts change places
  obtain ⟨items₂, hitems₂, hmoved⟩ : ∃ items₂,
      BecomesItems source' ns (rootWorkList source'.schema).marked false source'.schema.keywords
        items₂ built ∧ Rearranged (free .root) items₁ items₂ := by
    by_cases hf : free .root
    · have hapart := (apart_of_isRead hs.read').perm hm.perm.symm
      obtain ⟨items₂, hitems₂, hperm⟩ :=
        hitems₁.perm hm.perm (unmarked_rootWorkList source'.schema) hapart
      exact ⟨items₂, hitems₂, hperm, fun hn => absurd hf hn⟩
    · exact ⟨items₁, hm.kept hf ▸ hitems₁, .refl items₁⟩
  have hmatch : Matches (free .root ∨ free .nodes) (Item.Alike free) items items₂ :=
    (hsame.weaken .inr).rearranged (hmoved.weaken .inl)
  rcases hall with ⟨rfl, rfl⟩ | ⟨rfl, hi, e, he, rfl⟩
  · exact ⟨items₂, ⟨items₂, true, hitems₂, .inl ⟨rfl, rfl⟩⟩, hmatch⟩
  · obtain ⟨e', he', hroot⟩ := he.transfer hs
    refine ⟨items₂ ++ [.element e'], ⟨items₂, false, hitems₂, .inr ⟨rfl, ?_, e', he', rfl⟩⟩, ?_⟩
    · rw [hs.classifier, hi]
    · exact hmatch.append (.of_forall₂ (.cons (.element hroot) .nil))

theorem rootKinds_transfer (hs : SourcesAlike free source source') :
    rootKinds source' = rootKinds source := by
  rw [rootKinds, rootKinds, hs.classifier]

/-- **What a schema yields, alike schemas yield in likeness.** -/
theorem Yields.transfer (hs : SourcesAlike free source source') (h : Yields source d) :
    ∃ d', Yields source' d' ∧ d.Alike free d' := by
  obtain ⟨table, htable, hns⟩ :=
    namespaceTable_transfer (hs.schema.declaredNamespaces hs.read') h.table
  obtain ⟨items, hitems, hsame⟩ := h.items.transfer hs
  have hfit := (prefixesFit_namespaceTable (declaredNamespaces_nodup hs.read) h.table).1
  have hdefault : table.lookup "" = d.namespaceOf? "" := hns.lookup hfit.distinct ""
  have hattributes := hs.schema.declaredAttributes hs.read'
  have halike : d.Alike free { d with namespaces := table, items := items } :=
    ⟨rfl, rfl, rfl, rfl, hns, hsame⟩
  refine ⟨_, ⟨fun a ha => ?_, fun name v => ?_, htable, ?_, ?_, ?_, ?_⟩, halike⟩
  · rw [hs.options]
    exact h.accepted a (hattributes.mem_iff.2 ha)
  · have hiff := h.attributes name v
    simp only [hattributes.mem_iff] at hiff
    exact hiff
  · rw [hs.classifier]
    exact h.named
  · exact halike.declaredNames.nodup h.names
  · rw [rootKinds_transfer hs]
    exact kinds_transfer (P := fun kind => kind ∈ documentKinds ++ [.type] ∨
      kind.isDispatched = true ∨ kind ∈ rootKinds source) hs.schema h.kinds
  -- references are checked against the default namespace, which is the same
  · change BecomesAll source' (table.lookup "") items
    rw [hdefault]
    exact hitems

end Conversion

/-! ## Conversions of reordered values -/

namespace Json

/-- What converts, converts in another order, and the documents are alike. -/
theorem Reordered.convert {free : Role → Prop} {j j' : Json} {classifier : Classifier}
    {options : Options} {d : Document} (h : j.Reordered free .root j') (hj : j.Distinct)
    (hd : convertJson j classifier options = .ok d) :
    ∃ d', convertJson j' classifier options = .ok d' ∧ d.Alike free d' := by
  have hj' := h.distinct hj
  obtain ⟨s, hs, hyields⟩ := (convertJson_ok_iff hj).1 hd
  obtain ⟨s', hs', halike⟩ := Schema.ofJson?_of_reordered h hs
  have hsources : SourcesAlike free ⟨s, classifier, options⟩ ⟨s', classifier, options⟩ :=
    ⟨halike, ⟨_, _, hj, hs⟩, ⟨_, _, hj', hs'⟩, rfl, rfl⟩
  obtain ⟨d', hyields', hsame⟩ := hyields.transfer hsources
  exact ⟨d', (convertJson_ok_iff hj').2 ⟨s', hs', hyields'⟩, hsame⟩

end Json

/-- **The order of keys decides nothing but orders.** If two values differ at most in the order of
members, at any depth, both are converted or neither, and the documents are equal but for the order of
namespaces, items, elements of sequences, attributes and entries of documentation. If only
keywords of schemas below the root were put into another order, the documents are equal, and if only
those of the root were, they differ at most in the order of items. -/
theorem key_order {j j' : Json} (hj : j.Distinct) (h : j.Reordered (fun _ => True) .root j')
    (classifier : Classifier) (options : Options) :
    ((∃ d, convertJson j classifier options = .ok d) ↔
      ∃ d', convertJson j' classifier options = .ok d') ∧
    ∀ d d', convertJson j classifier options = .ok d → convertJson j' classifier options = .ok d' →
      d.Alike (fun _ => True) d' ∧ (j.Reordered (· = .node) .root j' → d' = d) ∧
        (j.Reordered (· = .root) .root j' →
          ∃ items, items.Perm d.items ∧ d' = { d with items := items }) := by
  have halike : ∀ {free : Role → Prop} {d d' : Document}, j.Reordered free .root j' →
      convertJson j classifier options = .ok d → convertJson j' classifier options = .ok d' →
      d.Alike free d' := by
    intro free d d' hr hd hd'
    obtain ⟨other, hother, hsame⟩ := hr.convert hj hd
    cases hd'.symm.trans hother
    exact hsame
  refine ⟨⟨?_, ?_⟩, fun d d' hd hd' => ⟨halike h hd hd', fun hr => ?_, fun hr => ?_⟩⟩
  · rintro ⟨d, hd⟩
    obtain ⟨d', hd', _⟩ := h.convert hj hd
    exact ⟨d', hd'⟩
  · rintro ⟨d', hd'⟩
    obtain ⟨d, hd, _⟩ := h.symm.convert (h.distinct hj) hd'
    exact ⟨d, hd⟩
  · exact (halike hr hd hd').eq nofun nofun nofun
  · exact (halike hr hd hd').items_perm nofun nofun

/-- `attributeSchema` with its two keywords in the other order. -/
def definitionsFirst : Json :=
  .obj [("$defs", .obj [("P", .obj [("$ref", .str "#/$defs/Q")]),
      ("Q", .obj [("type", .str "string")])]),
    ("properties", .obj [("x", .obj [("$ref", .str "#/$defs/P"), ("@xsdAttribute", .bool true)])])]

/-- `attributeSchema` with the keywords of its property in the other order. -/
def attributeFirst : Json :=
  .obj [("properties", .obj [("x", .obj [("@xsdAttribute", .bool true),
      ("$ref", .str "#/$defs/P")])]),
    ("$defs", .obj [("P", .obj [("$ref", .str "#/$defs/Q")]),
      ("Q", .obj [("type", .str "string")])])]

theorem reordered_definitionsFirst {free : Role → Prop} (hf : free .root) :
    attributeSchema.Reordered free .root definitionsFirst :=
  .of_perm hf (.swap _ _ _)

theorem reordered_attributeFirst {free : Role → Prop} (hf : free .node) :
    attributeSchema.Reordered free .root attributeFirst := by
  refine .of_members (.of_forall₂ (.cons ⟨rfl, ?_⟩ (.cons ⟨rfl, .refl _ _⟩ .nil)))
  refine .of_members (.of_forall₂ (.cons ⟨rfl, ?_⟩ .nil))
  exact .of_perm hf (.swap _ _ _)

theorem key_order_attributeSchema :
    ∃ d items, convertJson attributeSchema complexRoot {} = .ok d ∧
      convertJson attributeFirst complexRoot {} = .ok d ∧ items.Perm d.items ∧
      convertJson definitionsFirst complexRoot {} = .ok { d with items := items } := by
  have hmerged : attributeSchema.merged = attributeSchema := by rfl
  have hdistinct : attributeSchema.Distinct := hmerged ▸ Json.distinct_merged attributeSchema
  have hrun : (convertJson attributeSchema complexRoot {}).toOption.any (fun _ => true) = true := by
    decide +kernel
  obtain ⟨d, hd, _⟩ := Checks.exists_of_any hrun
  obtain ⟨hiff, hsame⟩ :=
    key_order hdistinct (reordered_attributeFirst trivial) complexRoot {}
  obtain ⟨d', hd'⟩ := hiff.1 ⟨d, hd⟩
  obtain rfl := (hsame d d' hd hd').2.1 (reordered_attributeFirst rfl)
  obtain ⟨hiff₂, hmoved⟩ :=
    key_order hdistinct (reordered_definitionsFirst trivial) complexRoot {}
  obtain ⟨moved, hd₂⟩ := hiff₂.1 ⟨_, hd⟩
  obtain ⟨items, hperm, rfl⟩ := (hmoved _ _ hd hd₂).2.2 (reordered_definitionsFirst rfl)
  exact ⟨_, items, hd, hd', hperm, hd₂⟩

end XsdSynthesis
