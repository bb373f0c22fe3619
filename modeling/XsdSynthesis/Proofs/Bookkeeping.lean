import XsdSynthesis.Proofs.Pulls

/-!
# XsdSynthesis.Proofs.Bookkeeping

Whole runs over a work list. A caller marks kinds and pulls keywords, of any kind or of one kind with
the value it carries, in any order and as often as it likes. The keywords that the list began with
say beforehand what every pull gives: the n-th pull of a kind gives the n-th keyword of that kind, and
empty are the slots of the keywords that the pulls of their kind have come to.

* `Pull.takes`: one pull empties the first slot with a keyword of its kind, or finds none and changes
  nothing. What follows for the keywords of each kind and for the slots are the lemmas of `Pull.Takes`.
* `given_run`, `slots_run`, `perm_run`: what the pulls of a run give and what they leave, by induction
  on the requests.
* `run_accountsFor`: the whole account of a run, with its marks and what the list answers about itself.
-/

namespace XsdSynthesis
namespace WorkList

/-! ## One pull -/

/-- A pull: of any kind, or of one kind for the value that its keywords carry. -/
inductive Pull where
  | any (kind : Kind)
  | required
  | properties
  | reference
  | types
  | asAttribute
  deriving DecidableEq

namespace Pull

/-- The kind that a pull looks for. -/
def kind : Pull → Kind
  | any kind => kind
  | required => .required
  | properties => .properties
  | reference => .ref
  | types => .type
  | asAttribute => .asAttribute

/-- What a pull gives if it finds a keyword. -/
def Value : Pull → Type
  | any _ => Keyword
  | required => List String
  | properties => List (String × Schema)
  | reference => String
  | types => List ValueType
  | asAttribute => Bool

/-- The keyword that a pull took, read off the value it gave. -/
def keyword : (p : Pull) → p.Value → Keyword
  | any _, k => k
  | required, names => .required names
  | properties, entries => .properties entries
  | reference, target => .ref target
  | types, names => .type names
  | asAttribute, flag => .asAttribute flag

/-- The value of a keyword of the kind that a pull looks for. -/
def value? : (p : Pull) → Keyword → Option p.Value
  | any _, k => some k
  | required, .required names => some names
  | properties, .properties entries => some entries
  | reference, .ref target => some target
  | types, .type names => some names
  | asAttribute, .asAttribute flag => some flag
  | _, _ => none

def apply : (p : Pull) → WorkList → Option p.Value × WorkList
  | any kind, w => w.pull kind
  | required, w => w.pullRequired
  | properties, w => w.pullProperties
  | reference, w => w.pullReference
  | types, w => w.pullTypes
  | asAttribute, w => w.pullAsAttribute

/-- No keyword of the kind is without a value for the pull. -/
theorem exists_value? {p : Pull} {k : Keyword} (h : k.kind = p.kind) :
    ∃ v, p.value? k = some v ∧ p.keyword v = k := by
  cases p with
  | any => exact ⟨k, rfl, rfl⟩
  | _ =>
    cases k <;> cases h
    exact ⟨_, rfl, rfl⟩

/-- Every pull is the pull of its kind, and gives the value that the keyword found has for it. -/
theorem apply_eq (p : Pull) (w : WorkList) :
    p.apply w = ((w.pull p.kind).1.bind p.value?, (w.pull p.kind).2) := by
  cases p with
  | any kind =>
    change w.pull kind = ((w.pull kind).1.bind some, (w.pull kind).2)
    rw [Option.bind_fun_some]
  | _ =>
    simp only [apply, Pull.kind, pullRequired, pullProperties, pullReference, pullTypes,
      pullAsAttribute]
    rcases w.pull _ with ⟨_ | k, w'⟩
    · rfl
    · cases k <;> rfl

/-- What one pull does: it finds no keyword of its kind and changes nothing, or empties the first slot
with one and leaves the others as they are. -/
inductive Takes (p : Pull) (w : WorkList) : Option p.Value → WorkList → Prop where
  | nothing : (∀ k ∈ w.items, k.kind ≠ p.kind) → Takes p w none w
  | first {before after : List (Option Keyword)} {v : p.Value} :
      w.slots.toList = before ++ some (p.keyword v) :: after →
      (∀ k, some k ∈ before → k.kind ≠ p.kind) → (p.keyword v).kind = p.kind →
      Takes p w (some v) ⟨⟨before ++ none :: after⟩, w.marked⟩

theorem takes (p : Pull) (w : WorkList) : p.Takes w (p.apply w).1 (p.apply w).2 := by
  obtain ⟨⟨slots⟩, marked⟩ := w
  rw [apply_eq, pull]
  rcases Slots.takeFirst_cases p.kind slots with
    ⟨heq, hnone⟩ | ⟨before, k, after, rfl, heq, hbefore, hkind⟩
  · rw [heq]
    exact .nothing fun k hk => hnone k (mem_items.1 hk)
  · obtain ⟨v, hv, rfl⟩ := exists_value? hkind
    simp only [heq, Option.bind_some, hv]
    exact .first rfl hbefore hkind

/-- Seen past the empty slots, a pull finds the first keyword of its kind and removes it. -/
theorem apply_items (p : Pull) (w : WorkList) :
    (p.apply w).1.map p.keyword = w.items.find? (·.kind == p.kind) ∧
      (p.apply w).2.items = w.items.eraseP (·.kind == p.kind) := by
  rw [apply_eq, ← fst_pull, ← items_pull]
  refine ⟨?_, rfl⟩
  cases hfound : (w.pull p.kind).1 with
  | none => rfl
  | some k =>
    have hkind := List.find?_some ((fst_pull w p.kind).symm.trans hfound)
    obtain ⟨v, hv, rfl⟩ := exists_value? (beq_iff_eq.1 hkind)
    simp [hv]

theorem apply_mark (p : Pull) (kind : Kind) (w : WorkList) :
    p.apply (w.mark kind) = ((p.apply w).1, (p.apply w).2.mark kind) := by
  rw [apply_eq, apply_eq]
  rfl

theorem marked_apply (p : Pull) (w : WorkList) : (p.apply w).2.marked = w.marked := by
  rw [apply_eq]
  exact marked_pull w p.kind

end Pull

/-! ## Runs -/

/-- A call that changes the list. -/
inductive Request where
  | mark (kind : Kind)
  | pull (p : Pull)
  deriving DecidableEq

/-- A pull of a run, and what it gave. -/
structure Reply where
  pull : Pull
  value? : Option pull.Value

/-- The keyword that a reply hands over. -/
def Reply.keyword? (r : Reply) : Option Keyword := r.value?.map r.pull.keyword

/-- The replies to the pulls among requests, made one after the other, and the list in the end. -/
def run : List Request → WorkList → List Reply × WorkList
  | [], w => ([], w)
  | .mark kind :: rest, w => run rest (w.mark kind)
  | .pull p :: rest, w =>
    let (value?, w) := p.apply w
    let (replies, w) := run rest w
    (⟨p, value?⟩ :: replies, w)

theorem run_pull (p : Pull) (rest : List Request) (w : WorkList) :
    run (.pull p :: rest) w =
      (⟨p, (p.apply w).1⟩ :: (run rest (p.apply w).2).1, (run rest (p.apply w).2).2) := rfl

/-- How many of the requests pull a kind. -/
def pulls (requests : List Request) (kind : Kind) : Nat :=
  requests.countP fun
    | .pull p => p.kind == kind
    | .mark _ => false

/-- What the pulls of a kind gave, in turn. -/
def given (kind : Kind) (replies : List Reply) : List (Option Keyword) :=
  (replies.filter (·.pull.kind == kind)).map Reply.keyword?

/-- The keywords of a kind, in order. -/
def ofKind (kind : Kind) (ks : List Keyword) : List Keyword := ks.filter (·.kind == kind)

/-- How many keywords of a kind stand before a position. The pull of that number comes to it. -/
def turn (ks : List Keyword) (kind : Kind) (position : Nat) : Nat :=
  (ofKind kind (ks.take position)).length

/-- The keywords, in order, whose turn does not come in so many pulls of each kind. -/
def remaining (taken : Kind → Nat) (ks : List Keyword) : List Keyword :=
  (ks.zipIdx.filter fun e => taken e.1.kind ≤ turn ks e.1.kind e.2).map Prod.fst

/-- The slots after so many pulls of each kind. A keyword of a kind that is pulled leaves its slot, and
those behind it see one pull of that kind less. -/
def emptied : (Kind → Nat) → List (Option Keyword) → List (Option Keyword)
  | _, [] => []
  | taken, none :: rest => none :: emptied taken rest
  | taken, some k :: rest =>
    (if taken k.kind = 0 then some k else none) ::
      emptied (fun kind => taken kind - if k.kind = kind then 1 else 0) rest

variable {w w' : WorkList} {kind other : Kind} {taken : Kind → Nat} {p : Pull}
  {value? : Option p.Value}

theorem pulls_mark (kind : Kind) (rest : List Request) : pulls (.mark kind :: rest) = pulls rest := by
  funext other
  exact List.countP_cons_of_neg Bool.false_ne_true

theorem pulls_pull (p : Pull) (rest : List Request) (kind : Kind) :
    pulls (.pull p :: rest) kind = pulls rest kind + if p.kind = kind then 1 else 0 := by
  simp [pulls, List.countP_cons]

theorem ofKind_cons (kind : Kind) (k : Keyword) (rest : List Keyword) :
    ofKind kind (k :: rest) = (if k.kind = kind then [k] else []) ++ ofKind kind rest := by
  by_cases h : k.kind = kind <;> simp [ofKind, h]

theorem ofKind_append (kind : Kind) (ks rest : List Keyword) :
    ofKind kind (ks ++ rest) = ofKind kind ks ++ ofKind kind rest := List.filter_append ..

theorem ofKind_eq_nil {ks : List Keyword} (h : ∀ k ∈ ks, k.kind ≠ kind) : ofKind kind ks = [] := by
  simpa [ofKind] using h

theorem turn_cons (k : Keyword) (rest : List Keyword) (kind : Kind) (i : Nat) :
    turn (k :: rest) kind (i + 1) = turn rest kind i + if k.kind = kind then 1 else 0 := by
  rw [turn, turn, List.take_succ_cons, ofKind_cons, List.length_append, Nat.add_comm]
  split <;> rfl

theorem emptied_congr {taken taken' : Kind → Nat} {slots : List (Option Keyword)}
    (h : ∀ k, some k ∈ slots → taken k.kind = taken' k.kind) :
    emptied taken slots = emptied taken' slots := by
  induction slots generalizing taken taken' with
  | nil => rfl
  | cons slot rest ih =>
    have hrest : ∀ k, some k ∈ rest → taken k.kind = taken' k.kind :=
      fun k hk => h k (List.mem_cons_of_mem _ hk)
    cases slot with
    | none => simp [emptied, ih hrest]
    | some k =>
      have hk := h k List.mem_cons_self
      rw [emptied, emptied, hk]
      congr 1
      exact ih fun other ho => by rw [hrest other ho]

theorem emptied_zero (slots : List (Option Keyword)) : emptied (fun _ => 0) slots = slots := by
  induction slots with
  | nil => rfl
  | cons slot rest ih => cases slot <;> simp [emptied, ih]

/-- With one pull of a kind more, the first keyword of that kind has left its slot. -/
theorem emptied_middle {before : List (Option Keyword)} {k : Keyword}
    (h : ∀ b, some b ∈ before → b.kind ≠ k.kind) (taken : Kind → Nat)
    (after : List (Option Keyword)) :
    emptied (fun kind => taken kind + if k.kind = kind then 1 else 0) (before ++ some k :: after) =
      emptied taken (before ++ none :: after) := by
  induction before generalizing taken with
  | nil => simp [emptied]
  | cons slot rest ih =>
    have hrest : ∀ b, some b ∈ rest → b.kind ≠ k.kind :=
      fun b hb => h b (List.mem_cons_of_mem _ hb)
    cases slot with
    | none => simp [emptied, ih hrest]
    | some b =>
      have hb := h b List.mem_cons_self
      -- `b` and `k` are of two kinds, so that each of them changes a count of its own.
      have hcounts : (fun kind => taken kind + (if k.kind = kind then 1 else 0) -
          if b.kind = kind then 1 else 0) =
          fun kind => taken kind - (if b.kind = kind then 1 else 0) +
            if k.kind = kind then 1 else 0 := by
        funext kind
        by_cases hk : k.kind = kind
        · have hne : b.kind ≠ kind := hk ▸ hb
          simp [hk, hne]
        · simp [hk]
      rw [List.cons_append, List.cons_append, emptied, emptied, hcounts, ih hrest,
        if_neg (Ne.symm hb), Nat.add_zero]

/-- Where no slot is empty yet, the turn of each keyword says whether its slot will be. -/
theorem emptied_full (taken : Kind → Nat) (ks : List Keyword) :
    emptied taken (ks.map some) = ks.zipIdx.map fun e =>
      if turn ks e.1.kind e.2 < taken e.1.kind then none else some e.1 := by
  induction ks generalizing taken with
  | nil => rfl
  | cons k rest ih =>
    rw [List.map_cons, emptied, ih, List.zipIdx_cons', List.map_cons, List.map_map]
    refine congrArg₂ List.cons ?_ (List.map_congr_left fun e _ => ?_)
    · by_cases h : taken k.kind = 0 <;> simp [h, turn, ofKind, Nat.pos_iff_ne_zero]
    · change _ = if turn (k :: rest) e.1.kind (e.2 + 1) < taken e.1.kind then none else some e.1
      simp only [turn_cons, Nat.lt_sub_iff_add_lt]

/-- What the slots still hold are the keywords whose turn has not come. -/
theorem filterMap_emptied (taken : Kind → Nat) (ks : List Keyword) :
    (emptied taken (ks.map some)).filterMap id = remaining taken ks := by
  rw [emptied_full, remaining, List.filterMap_map, ← List.filterMap_eq_map,
    ← List.filterMap_eq_filter, List.filterMap_filterMap]
  refine List.filterMap_congr fun e _ => ?_
  by_cases h : turn ks e.1.kind e.2 < taken e.1.kind
  · simp [Option.guard, h, Nat.not_le.2 h]
  · simp [Option.guard, h, Nat.not_lt.1 h]

namespace Pull.Takes

/-- A keyword that a pull takes is the first one of its kind, and the others stay in order. -/
theorem split {v : p.Value} (h : p.Takes w (some v) w') :
    ∃ before after, w.items = before ++ p.keyword v :: after ∧ w'.items = before ++ after ∧
      (∀ k ∈ before, k.kind ≠ p.kind) ∧ (p.keyword v).kind = p.kind := by
  cases h with
  | @first before after _ hslots hbefore hkind =>
    refine ⟨before.filterMap id, after.filterMap id, ?_, ?_, by simpa using hbefore, hkind⟩
    · simp [items, Slots.keywords, hslots]
    · simp [items, Slots.keywords]

/-- The pulls of a kind go through its keywords one by one. -/
theorem own (h : p.Takes w value? w') :
    value?.map p.keyword = (ofKind p.kind w.items)[0]? ∧
      ofKind p.kind w'.items = (ofKind p.kind w.items).tail := by
  cases value? with
  | none =>
    cases h with
    | nothing hnone => simp [ofKind_eq_nil hnone]
  | some v =>
    obtain ⟨before, after, hitems, hleft, hbefore, hkind⟩ := h.split
    rw [hitems, hleft, ofKind_append, ofKind_append, ofKind_cons, ofKind_eq_nil hbefore,
      if_pos hkind]
    exact ⟨rfl, rfl⟩

/-- The keywords of other kinds stay. -/
theorem others (h : p.Takes w value? w') (hne : p.kind ≠ kind) :
    ofKind kind w'.items = ofKind kind w.items := by
  cases value? with
  | none =>
    cases h with
    | nothing hnone => rfl
  | some v =>
    obtain ⟨before, after, hitems, hleft, hbefore, hkind⟩ := h.split
    rw [hitems, hleft, ofKind_append, ofKind_append, ofKind_cons, if_neg (hkind ▸ hne)]
    rfl

/-- The slots that this pull and more pulls empty are those that the others empty after it. -/
theorem emptied_eq (h : p.Takes w value? w') (taken : Kind → Nat) :
    emptied (fun kind => taken kind + if p.kind = kind then 1 else 0) w.slots.toList =
      emptied taken w'.slots.toList := by
  cases h with
  | nothing hnone =>
    refine emptied_congr fun k hk => ?_
    rw [if_neg (hnone k (mem_items.2 hk)).symm, Nat.add_zero]
  | first hslots hbefore hkind =>
    rw [hslots, ← hkind]
    exact emptied_middle (hkind ▸ hbefore) taken _

/-- No keyword is lost, and none is there twice. -/
theorem perm (h : p.Takes w value? w') :
    ((value?.map p.keyword).toList ++ w'.items).Perm w.items := by
  cases value? with
  | none =>
    cases h with
    | nothing hnone => exact .refl _
  | some v =>
    obtain ⟨before, after, hitems, hleft, -, -⟩ := h.split
    have hmiddle : (before ++ p.keyword v :: after).Perm (p.keyword v :: (before ++ after)) :=
      List.perm_middle
    rw [hitems, hleft]
    exact hmiddle.symm

theorem eq_none_iff (h : p.Takes w value? w') :
    value? = none ↔ ∀ k ∈ w.items, k.kind ≠ p.kind := by
  cases value? with
  | none =>
    cases h with
    | nothing hnone => exact iff_of_true rfl hnone
  | some v =>
    obtain ⟨before, after, hitems, -, -, hkind⟩ := h.split
    refine iff_of_false nofun fun hnone => hnone _ ?_ hkind
    rw [hitems]
    exact List.mem_append_right _ List.mem_cons_self

end Pull.Takes

/-! ## Whole runs -/

theorem given_cons (kind : Kind) (r : Reply) (rest : List Reply) :
    given kind (r :: rest) =
      if r.pull.kind = kind then r.keyword? :: given kind rest else given kind rest := by
  by_cases h : r.pull.kind = kind <;> simp [given, h]

/-- **The n-th pull of a kind gives the n-th keyword of the kind**, by induction on the requests. -/
theorem given_run (requests : List Request) (w : WorkList) (kind : Kind) :
    given kind (run requests w).1 =
      (List.range (pulls requests kind)).map ((ofKind kind w.items)[·]?) := by
  induction requests generalizing w with
  | nil => rfl
  | cons r rest ih =>
    cases r with
    | mark marked =>
      rw [pulls_mark]
      exact ih (w.mark marked)
    | pull p =>
      have htakes := p.takes w
      rw [run_pull, pulls_pull, given_cons, ih]
      by_cases hkind : p.kind = kind
      · subst hkind
        obtain ⟨hfirst, hrest⟩ := htakes.own
        rw [if_pos rfl, if_pos rfl, hrest, List.range_succ_eq_map, List.map_cons, List.map_map]
        refine congrArg₂ List.cons hfirst (List.map_congr_left fun n _ => ?_)
        exact List.getElem?_tail
      · rw [if_neg hkind, if_neg hkind, htakes.others hkind, Nat.add_zero]

/-- **The slots after a run** are those that its pulls do not come to, in their places. -/
theorem slots_run (requests : List Request) (w : WorkList) :
    (run requests w).2.slots.toList = emptied (pulls requests) w.slots.toList := by
  induction requests generalizing w with
  | nil => exact (emptied_zero w.slots.toList).symm
  | cons r rest ih =>
    cases r with
    | mark kind =>
      rw [pulls_mark]
      exact ih (w.mark kind)
    | pull p =>
      rw [run_pull, ih, ← (p.takes w).emptied_eq (pulls rest)]
      congr 1
      funext kind
      exact (pulls_pull p rest kind).symm

theorem items_run (requests : List Request) (ks : List Keyword) :
    (run requests ⟨ks, []⟩).2.items = remaining (pulls requests) ks := by
  rw [items, Slots.keywords, slots_run]
  exact filterMap_emptied (pulls requests) ks

/-- What the pulls of a run hand over and what they leave are the keywords at the start. -/
theorem perm_run (requests : List Request) (w : WorkList) :
    ((run requests w).1.filterMap Reply.keyword? ++ (run requests w).2.items).Perm w.items := by
  induction requests generalizing w with
  | nil => exact .refl _
  | cons r rest ih =>
    cases r with
    | mark kind => exact ih (w.mark kind)
    | pull p =>
      refine List.Perm.trans ?_ (p.takes w).perm
      have hrest := ih (p.apply w).2
      rw [run_pull]
      cases hvalue : (p.apply w).1 with
      | none =>
        rw [List.filterMap_cons_none (by rfl)]
        exact hrest
      | some v =>
        rw [List.filterMap_cons_some (by rfl)]
        exact hrest.cons _

theorem mem_marked_run (requests : List Request) (w : WorkList) (kind : Kind) :
    kind ∈ (run requests w).2.marked ↔ .mark kind ∈ requests ∨ kind ∈ w.marked := by
  induction requests generalizing w with
  | nil => simp [run]
  | cons r rest ih =>
    cases r with
    | mark other =>
      have hmark : (Request.mark kind = .mark other) ↔ kind = other := by simp
      rw [run, ih, List.mem_cons, hmark, mark, List.mem_cons, or_left_comm, or_assoc]
    | pull p =>
      rw [run_pull, ih, Pull.marked_apply, List.mem_cons]
      simp

/-- Marks change neither what later pulls give nor what these leave. -/
theorem run_of_slots (requests : List Request) (h : w.slots = w'.slots) :
    (run requests w).1 = (run requests w').1 ∧
      (run requests w).2.slots = (run requests w').2.slots := by
  induction requests generalizing w w' with
  | nil => exact ⟨rfl, h⟩
  | cons r rest ih =>
    cases r with
    | mark kind => exact ih h
    | pull p =>
      have hvalue : (p.apply w).1 = (p.apply w').1 := by
        rw [Pull.apply_eq, Pull.apply_eq, pull, pull, h]
      have hslots : (p.apply w).2.slots = (p.apply w').2.slots := by
        rw [Pull.apply_eq, Pull.apply_eq, pull, pull, h]
      obtain ⟨hreplies, hleft⟩ := ih hslots
      rw [run_pull, run_pull, hvalue, hreplies]
      exact ⟨rfl, hleft⟩

/-- The keyword at a position is the one of its kind that its turn says. -/
theorem getElem?_turn {ks : List Keyword} {i : Nat} {k : Keyword} (h : ks[i]? = some k) :
    (ofKind k.kind ks)[turn ks k.kind i]? = some k := by
  obtain ⟨hi, hk⟩ := List.getElem?_eq_some_iff.1 h
  have hsplit : ks.take i ++ k :: ks.drop (i + 1) = ks := by
    rw [← hk, ← List.drop_eq_getElem_cons hi, List.take_append_drop]
  have hkinds := congrArg (ofKind k.kind) hsplit
  rw [ofKind_append, ofKind_cons, if_pos rfl] at hkinds
  rw [← hkinds, turn, List.getElem?_append_right (Nat.le_refl _), Nat.sub_self]
  rfl

/-- The pull whose turn it is hands over the keyword at a position, if there is such a pull. -/
theorem handed_iff {ks : List Keyword} {i : Nat} {k : Keyword} (h : ks[i]? = some k)
    (requests : List Request) :
    (given k.kind (run requests ⟨ks, []⟩).1)[turn ks k.kind i]? = some (some k) ↔
      turn ks k.kind i < pulls requests k.kind := by
  rw [given_run, items_full, List.getElem?_map]
  by_cases hturn : turn ks k.kind i < pulls requests k.kind
  · rw [List.getElem?_range hturn, Option.map_some, getElem?_turn h]
    exact iff_of_true rfl hturn
  · rw [List.getElem?_eq_none (by simpa using hturn)]
    exact iff_of_false nofun hturn

theorem enumerate_false_run (requests : List Request) (ks : List Keyword) :
    (run requests ⟨ks, []⟩).2.enumerate false =
      (run requests ⟨ks, []⟩).2.items.filter fun k => .mark k.kind ∉ requests := by
  refine List.filter_congr fun k _ => ?_
  rw [Bool.false_or, Bool.eq_iff_iff, Bool.not_eq_true', ← Bool.not_eq_true, mem_marked_iff,
    mem_marked_run, decide_eq_true_iff]
  simp

theorem isPending_iff_enumerate :
    w.isPending kind = true ↔ ∃ k ∈ w.enumerate false, k.kind = kind := by
  rw [isPending, Bool.and_eq_true, contains_iff]
  constructor
  · rintro ⟨hmarked, k, hk, rfl⟩
    exact ⟨k, List.mem_filter.2 ⟨hk, hmarked⟩, rfl⟩
  · rintro ⟨k, hk, rfl⟩
    obtain ⟨hleft, hmarked⟩ := List.mem_filter.1 hk
    exact ⟨hmarked, k, hleft, rfl⟩

/-- What there is to say of a run over the keywords `ks`: `replies` is what its pulls gave, and `w` the
list it leaves. -/
structure AccountsFor (ks : List Keyword) (requests : List Request) (replies : List Reply)
    (w : WorkList) : Prop where
  /-- The pulls of a kind gave its keywords one after the other, and nothing after the last one. -/
  inTurn : ∀ kind, given kind replies =
    (List.range (pulls requests kind)).map ((ofKind kind ks)[·]?)
  /-- A keyword was handed over, by the pull whose turn it was, if its turn came. -/
  handed : ∀ i k, ks[i]? = some k →
    ((given k.kind replies)[turn ks k.kind i]? = some (some k) ↔
      turn ks k.kind i < pulls requests k.kind)
  /-- Its slot is empty then. The others hold what they held. -/
  slots : w.slots.toList = ks.zipIdx.map fun e =>
    if turn ks e.1.kind e.2 < pulls requests e.1.kind then none else some e.1
  /-- The others are left, in order. -/
  left : w.items = remaining (pulls requests) ks
  /-- No keyword was lost, and none was handed over twice. -/
  whole : (replies.filterMap Reply.keyword? ++ w.items).Perm ks
  /-- All that is left is enumerated, or what no mark was made for. -/
  all : w.enumerate true = w.items
  unhandled : w.enumerate false = (w.enumerate true).filter fun k => .mark k.kind ∉ requests
  contains : ∀ kind, w.contains kind = true ↔ ∃ k ∈ w.enumerate true, k.kind = kind
  pending : ∀ kind, w.isPending kind = true ↔ ∃ k ∈ w.enumerate false, k.kind = kind
  /-- The next pull empties the first slot of its kind, or finds none and changes nothing. -/
  next : ∀ p : Pull, p.Takes w (p.apply w).1 (p.apply w).2
  /-- Past the empty slots, it finds the first keyword of its kind and removes it. -/
  flat : ∀ p : Pull, (p.apply w).1.map p.keyword = w.items.find? (·.kind == p.kind) ∧
    (p.apply w).2.items = w.items.eraseP (·.kind == p.kind)
  /-- It gives nothing only where no keyword of its kind is left. -/
  nothing : ∀ p : Pull, (p.apply w).1 = none ↔ ∀ k ∈ w.items, k.kind ≠ p.kind
  /-- Marking and pulling may change places. -/
  commutes : ∀ (p : Pull) (kind : Kind),
    p.apply (w.mark kind) = ((p.apply w).1, (p.apply w).2.mark kind)
  /-- A mark changes neither what later pulls give nor what they leave. -/
  silent : ∀ kind later, (run later (w.mark kind)).1 = (run later w).1 ∧
    (run later (w.mark kind)).2.slots = (run later w).2.slots

/-- **A work list neither loses keywords nor hands one out twice**, whatever it is asked. -/
theorem run_accountsFor (ks : List Keyword) (requests : List Request) :
    AccountsFor ks requests (run requests ⟨ks, []⟩).1 (run requests ⟨ks, []⟩).2 where
  inTurn kind := by rw [given_run, items_full]
  handed _ _ hk := handed_iff hk requests
  slots := (slots_run requests ⟨ks, []⟩).trans (emptied_full (pulls requests) ks)
  left := items_run requests ks
  whole := by simpa only [items_full] using perm_run requests ⟨ks, []⟩
  all := enumerate_true _
  unhandled := by rw [enumerate_false_run, enumerate_true]
  contains _ := by rw [contains_iff, enumerate_true]
  pending _ := isPending_iff_enumerate
  next p := p.takes _
  flat p := p.apply_items _
  nothing p := (p.takes _).eq_none_iff
  commutes p kind := p.apply_mark kind _
  silent _ later := run_of_slots later rfl

/-- A mark hides both keywords of a kind. The pulls of the kind get one after the other all the same. -/
example :
    (run [.mark .id, .pull (.any .id), .pull .types, .pull (.any .id), .pull (.any .id)]
      ⟨.full [.id "a", .type [.string], .id "b"], []⟩).1.map Reply.keyword? =
      [some (.id "a"), some (.type [.string]), some (.id "b"), none] := rfl

end WorkList
end XsdSynthesis
