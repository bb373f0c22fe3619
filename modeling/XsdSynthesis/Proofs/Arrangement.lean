import Mathlib.Data.List.Perm.Basic
import XsdSynthesis.Proofs.Reading

/-!
# XsdSynthesis.Proofs.Arrangement

Values that differ in the order of members. `Json.Role` is the part that a value plays in a schema
document, and `Json.Reordered` relates two values if one becomes the other when objects in some
roles are put into another order, at any depth. `Rearranged` and `Matches` are the same for lists, and
everything that a document is made of is compared by them.
-/

namespace XsdSynthesis

/-! ## Lists -/

/-- Two lists have the same elements, in the same order unless another one is `free`. -/
structure Rearranged {α : Type} (free : Prop) (as bs : List α) : Prop where
  perm : as.Perm bs
  kept : ¬ free → as = bs

namespace Rearranged

variable {α β : Type} {free other : Prop} {as bs cs : List α}

theorem refl (as : List α) : Rearranged free as as := ⟨.refl as, fun _ => rfl⟩

theorem symm (h : Rearranged free as bs) : Rearranged free bs as :=
  ⟨h.perm.symm, fun hf => (h.kept hf).symm⟩

theorem trans (h : Rearranged free as bs) (h' : Rearranged free bs cs) : Rearranged free as cs :=
  ⟨h.perm.trans h'.perm, fun hf => (h.kept hf).trans (h'.kept hf)⟩

theorem weaken (h : Rearranged free as bs) (hf : free → other) : Rearranged other as bs :=
  ⟨h.perm, fun hn => h.kept fun hfree => hn (hf hfree)⟩

theorem append {as' bs' : List α} (h : Rearranged free as bs) (h' : Rearranged free as' bs') :
    Rearranged free (as ++ as') (bs ++ bs') :=
  ⟨h.perm.append h'.perm, fun hf => by rw [h.kept hf, h'.kept hf]⟩

theorem map (h : Rearranged free as bs) (f : α → β) : Rearranged free (as.map f) (bs.map f) :=
  ⟨h.perm.map f, fun hf => congrArg (List.map f) (h.kept hf)⟩

theorem filterMap (h : Rearranged free as bs) (f : α → Option β) :
    Rearranged free (as.filterMap f) (bs.filterMap f) :=
  ⟨h.perm.filterMap f, fun hf => congrArg (List.filterMap f) (h.kept hf)⟩

theorem mem_iff (h : Rearranged free as bs) {a : α} : a ∈ as ↔ a ∈ bs := h.perm.mem_iff

/-- Counterparts follow when a list is rearranged. -/
theorem forall₂ {r : α → β → Prop} {ds : List β} (h : Rearranged free as bs)
    (hr : List.Forall₂ r as ds) : ∃ es, List.Forall₂ r bs es ∧ Rearranged free ds es := by
  by_cases hf : free
  · obtain ⟨es, hes, hperm⟩ := List.perm_comp_forall₂ h.perm.symm hr
    exact ⟨es, hes, hperm.symm, fun hn => absurd hf hn⟩
  · exact ⟨ds, h.kept hf ▸ hr, refl ds⟩

/-- Look-ups do not depend on the order of a table. -/
theorem lookup {table table' : List (String × β)} (h : Rearranged free table table')
    (hn : (table.map Prod.fst).Nodup) (name : String) :
    table'.lookup name = table.lookup name := by
  have hn' : (table'.map Prod.fst).Nodup := (h.map Prod.fst).perm.nodup hn
  refine Option.ext fun value => ⟨fun hl => ?_, fun hl => ?_⟩
  · exact Tables.lookup_of_mem hn (h.mem_iff.2 (Tables.mem_of_lookup hl))
  · exact Tables.lookup_of_mem hn' (h.mem_iff.1 (Tables.mem_of_lookup hl))

end Rearranged

/-- Two lists, the second rearranged, are related element by element. -/
def Matches {α β : Type} (free : Prop) (r : α → β → Prop) (as : List α) (bs : List β) : Prop :=
  ∃ middle, List.Forall₂ r as middle ∧ Rearranged free middle bs

namespace Matches

variable {α β γ δ : Type} {free other : Prop} {r : α → β → Prop} {as : List α} {bs : List β}

theorem of_forall₂ (h : List.Forall₂ r as bs) : Matches free r as bs := ⟨bs, h, .refl bs⟩

theorem rearranged {cs : List β} (h : Matches free r as bs) (h' : Rearranged free bs cs) :
    Matches free r as cs := by
  obtain ⟨middle, hr, hm⟩ := h
  exact ⟨middle, hr, hm.trans h'⟩

theorem weaken (h : Matches free r as bs) (hf : free → other) : Matches other r as bs := by
  obtain ⟨middle, hr, hm⟩ := h
  exact ⟨middle, hr, hm.weaken hf⟩

theorem append {as' : List α} {bs' : List β} (h : Matches free r as bs)
    (h' : Matches free r as' bs') : Matches free r (as ++ as') (bs ++ bs') := by
  obtain ⟨middle, hr, hm⟩ := h
  obtain ⟨middle', hr', hm'⟩ := h'
  exact ⟨_, List.rel_append hr hr', hm.append hm'⟩

theorem cons {a : α} {b : β} (hab : r a b) (h : Matches free r as bs) :
    Matches free r (a :: as) (b :: bs) :=
  append (of_forall₂ (.cons hab .nil)) h

theorem mem_left (h : Matches free r as bs) {a : α} (ha : a ∈ as) : ∃ b ∈ bs, r a b := by
  obtain ⟨middle, hr, hm⟩ := h
  obtain ⟨b, hb, hab⟩ := Tables.exists_of_mem_left hr ha
  exact ⟨b, hm.mem_iff.1 hb, hab⟩

theorem mem_right (h : Matches free r as bs) {b : β} (hb : b ∈ bs) : ∃ a ∈ as, r a b := by
  obtain ⟨middle, hr, hm⟩ := h
  exact Tables.exists_of_mem_right hr (hm.mem_iff.2 hb)

theorem imp {r' : α → β → Prop} (h : Matches free r as bs) (hr : ∀ a b, r a b → r' a b) :
    Matches free r' as bs := by
  obtain ⟨middle, hall, hm⟩ := h
  exact ⟨middle, hall.imp hr, hm⟩

theorem flip {r' : β → α → Prop} (h : Matches free r as bs) (hr : ∀ a b, r a b → r' b a) :
    Matches free r' bs as := by
  obtain ⟨middle, hall, hm⟩ := h
  obtain ⟨cs, hcs, hc⟩ := hm.forall₂ (hall.flip.imp fun b a => hr a b)
  exact ⟨cs, hcs, hc.symm⟩

theorem map_eq {f : α → γ} {g : β → γ} (h : Matches free r as bs)
    (hr : ∀ a b, r a b → g b = f a) : Rearranged free (as.map f) (bs.map g) := by
  obtain ⟨middle, hall, hm⟩ := h
  rw [← Tables.map_eq_map hall hr]
  exact hm.map g

theorem filterMap {r' : γ → δ → Prop} {f : α → Option γ} {g : β → Option δ}
    (h : Matches free r as bs) (hr : ∀ a b, r a b → Option.Rel r' (f a) (g b)) :
    Matches free r' (as.filterMap f) (bs.filterMap g) := by
  obtain ⟨middle, hall, hm⟩ := h
  exact ⟨_, List.rel_filterMap (fun {a b} => hr a b) hall, hm.filterMap g⟩

/-- What belongs to the elements of one list has counterparts that belong to those of the other. -/
theorem follow {s : α → γ → Prop} {s' : β → δ → Prop} {q : γ → δ → Prop} {cs : List γ}
    (h : Matches free r as bs) (hs : List.Forall₂ s as cs)
    (hr : ∀ a, ∀ b ∈ bs, ∀ c, r a b → s a c → ∃ d, s' b d ∧ q c d) :
    ∃ ds, List.Forall₂ s' bs ds ∧ Matches free q cs ds := by
  obtain ⟨middle, hall, hm⟩ := h
  replace hr : ∀ b ∈ middle, ∀ a c, r a b → s a c → ∃ d, s' b d ∧ q c d :=
    fun b hb a => hr a b (hm.mem_iff.1 hb)
  -- pair by pair up to the middle list, then along the rearrangement
  obtain ⟨ds, hds, hq⟩ : ∃ ds, List.Forall₂ s' middle ds ∧ List.Forall₂ q cs ds := by
    clear hm
    induction hall generalizing cs with
    | nil =>
      cases hs
      exact ⟨[], .nil, .nil⟩
    | @cons a b as bs hab _ ih =>
      obtain ⟨hb, hrest⟩ := List.forall_mem_cons.1 hr
      cases hs with
      | cons hac hs =>
        obtain ⟨d, hbd, hcd⟩ := hb a _ hab hac
        obtain ⟨ds, hds, hq⟩ := ih hs hrest
        exact ⟨d :: ds, .cons hbd hds, .cons hcd hq⟩
  obtain ⟨es, hes, hrearranged⟩ := hm.forall₂ hds
  exact ⟨es, hes, ds, hq, hrearranged⟩

/-- A check that accepts each counterpart accepts the other list. -/
theorem mapM_ok {ε : Type} {r : α → α → Prop} {as bs : List α} {f : α → Except ε γ}
    {q : γ → γ → Prop} {cs : List γ} (h : Matches free r as bs) (hf : as.mapM f = .ok cs)
    (hr : ∀ a b c, r a b → f a = .ok c → ∃ d, f b = .ok d ∧ q c d) :
    ∃ ds, bs.mapM f = .ok ds ∧ Matches free q cs ds := by
  obtain ⟨ds, hds, hq⟩ := h.follow (Checks.mapM_ok.1 hf) fun a b _ => hr a b
  exact ⟨ds, Checks.mapM_ok.2 hds, hq⟩

/-- Lists with equal elements are rearranged. -/
theorem of_eq {bs : List α} (h : Matches free (fun a b => b = a) as bs) :
    Rearranged free as bs := by
  have hmap := h.map_eq fun (a b : α) (hab : b = a) => (hab : id b = id a)
  simpa using hmap

/-- Where the order is kept and related elements are equal, the lists are equal. -/
theorem eq {as bs : List α} {r : α → α → Prop} (h : Matches free r as bs) (hf : ¬ free)
    (hr : ∀ a ∈ as, ∀ b, r a b → b = a) : bs = as := by
  obtain ⟨middle, hall, hm⟩ := h
  rw [← hm.kept hf]
  clear hm
  induction hall with
  | nil => rfl
  | cons hab _ ih =>
    obtain ⟨ha, hrest⟩ := List.forall_mem_cons.1 hr
    rw [ha _ hab, ih hrest]

end Matches

/-! ## Values -/

namespace Json

/-- The part that a value plays in a schema document: its root, another schema, an object or an array
of schemas, or a value without schemas. -/
inductive Role where
  | root
  | node
  | nodes
  | plain
  deriving DecidableEq

namespace Role

/-- The role of a keyword's value. -/
def ofKeyword (name : String) : Role :=
  match Keyword.payload name with
  | .leaf _ => plain
  | _ => nodes

/-- The role of a member's value. -/
def member : Role → String → Role
  | root, name | node, name => ofKeyword name
  | nodes, _ => node
  | plain, _ => plain

/-- The role of an item of an array. -/
def item : Role → Role
  | nodes => node
  | _ => plain

end Role

/-- Two values differ at most in the order of members, and only within objects whose role is `free`. -/
inductive Reordered (free : Role → Prop) : Role → Json → Json → Prop where
  | null {r : Role} : Reordered free r .null .null
  | bool {r : Role} {b : Bool} : Reordered free r (.bool b) (.bool b)
  | num {r : Role} {n : Number} : Reordered free r (.num n) (.num n)
  | str {r : Role} {s : String} : Reordered free r (.str s) (.str s)
  | arr {r : Role} {items items' : List Json} : items.length = items'.length →
      (∀ p ∈ items.zip items', Reordered free r.item p.1 p.2) →
      Reordered free r (.arr items) (.arr items')
  | obj {r : Role} {members middle members' : List (String × Json)} :
      List.Forall₂ (fun m n => m.1 = n.1) members middle →
      (∀ p ∈ members.zip middle, Reordered free (r.member p.1.1) p.1.2 p.2.2) →
      Rearranged (free r) middle members' → Reordered free r (.obj members) (.obj members')

/-- Members of two objects in a role that have the same name and reordered values. -/
def MemberReordered (free : Role → Prop) (r : Role) (m n : String × Json) : Prop :=
  m.1 = n.1 ∧ Reordered free (r.member m.1) m.2 n.2

namespace Reordered

variable {free : Role → Prop} {r : Role} {j j' : Json} {items : List Json}
  {members : List (String × Json)}

theorem of_items {items' : List Json}
    (h : List.Forall₂ (Reordered free r.item) items items') :
    Reordered free r (.arr items) (.arr items') := by
  obtain ⟨hlength, hall⟩ := List.forall₂_iff_zip.1 h
  exact .arr hlength fun _ hp => hall hp

theorem of_members {members' : List (String × Json)}
    (h : Matches (free r) (MemberReordered free r) members members') :
    Reordered free r (.obj members) (.obj members') := by
  obtain ⟨middle, hr, hm⟩ := h
  exact .obj (hr.imp fun _ _ h => h.1) (fun _ hp => (List.forall₂_zip hr hp).2) hm

/-- Items and members are related one by one, in the style of `List.Forall₂`. -/
theorem cases_arr (h : Reordered free r (.arr items) j') :
    ∃ items', j' = .arr items' ∧ List.Forall₂ (Reordered free r.item) items items' := by
  cases h with
  | arr hlength hall => exact ⟨_, rfl, List.forall₂_iff_zip.2 ⟨hlength, fun hp => hall _ hp⟩⟩

theorem matches_of_zip {s : String × Json → String × Json → Prop}
    {middle members' : List (String × Json)}
    (hnames : List.Forall₂ (fun m n => m.1 = n.1) members middle)
    (hall : ∀ p ∈ members.zip middle, p.1.1 = p.2.1 → s p.1 p.2)
    (hm : Rearranged (free r) middle members') : Matches (free r) s members members' := by
  obtain ⟨hlength, hnames⟩ := List.forall₂_iff_zip.1 hnames
  exact ⟨middle, List.forall₂_iff_zip.2 ⟨hlength, fun hp => hall _ hp (hnames hp)⟩, hm⟩

theorem cases_obj (h : Reordered free r (.obj members) j') :
    ∃ members', j' = .obj members' ∧
      Matches (free r) (MemberReordered free r) members members' := by
  cases h with
  | obj hnames hall hm =>
    exact ⟨_, rfl, matches_of_zip hnames (fun p hp hn => ⟨hn, hall p hp⟩) hm⟩

mutual

theorem refl : ∀ (r : Role) (j : Json), Reordered free r j j
  | _, .null => .null
  | _, .bool _ => .bool
  | _, .num _ => .num
  | _, .str _ => .str
  | r, .arr items => of_items (refl_items r.item items)
  | r, .obj members => of_members (.of_forall₂ (refl_members r members))

theorem refl_items : ∀ (r : Role) (items : List Json), List.Forall₂ (Reordered free r) items items
  | _, [] => .nil
  | r, first :: rest => .cons (refl r first) (refl_items r rest)

theorem refl_members : ∀ (r : Role) (members : List (String × Json)),
    List.Forall₂ (MemberReordered free r) members members
  | _, [] => .nil
  | r, (name, first) :: rest => .cons ⟨rfl, refl (r.member name) first⟩ (refl_members r rest)

end

/-- The members of an object in a free role, in another order. -/
theorem of_perm {members' : List (String × Json)} (hf : free r) (hp : members.Perm members') :
    Reordered free r (.obj members) (.obj members') :=
  of_members ⟨members, refl_members r members, hp, fun hn => absurd hf hn⟩

/-- Whatever was reordered can be put back. -/
theorem symm (h : Reordered free r j j') : Reordered free r j' j := by
  induction h with
  | null => exact .null
  | bool => exact .bool
  | num => exact .num
  | str => exact .str
  | arr hlength _ ih =>
    refine of_items (List.Forall₂.flip ?_)
    exact List.forall₂_iff_zip.2 ⟨hlength, fun hp => ih _ hp⟩
  | @obj r members middle members' hnames _ hm ih =>
    have hall := matches_of_zip (s := fun m n => MemberReordered free r n m) hnames
      (fun p hp hn => ⟨hn.symm, hn ▸ ih p hp⟩) hm
    exact of_members (hall.flip fun _ _ h => h)

theorem distinct (h : Reordered free r j j') (hj : j.Distinct) : j'.Distinct := by
  induction h with
  | null => exact .null
  | bool => exact .bool
  | num => exact .num
  | str => exact .str
  | @arr r items items' hlength _ ih =>
    refine .arr fun b hb => ?_
    have hall : List.Forall₂ (fun a b => a.Distinct → b.Distinct) items items' :=
      List.forall₂_iff_zip.2 ⟨hlength, fun hp => ih _ hp⟩
    obtain ⟨a, ha, hab⟩ := Tables.exists_of_mem_right hall hb
    cases hj with
    | arr hitems => exact hab (hitems a ha)
  | @obj r members middle members' hnames _ hm ih =>
    have hall := matches_of_zip (s := fun m n => m.1 = n.1 ∧ (m.2.Distinct → n.2.Distinct)) hnames
      (fun p hp hn => ⟨hn, ih p hp⟩) hm
    refine .obj ?_ fun n hn => ?_
    · exact (hall.map_eq fun _ _ h => h.1.symm).perm.nodup hj.names
    · obtain ⟨m, hmem, hmn⟩ := hall.mem_right hn
      exact hmn.2 (hj.member hmem)

end Reordered
end Json
end XsdSynthesis
