import XsdSynthesis.Schema.Keyword

/-!
# XsdSynthesis.Schema.WorkList

The keywords of one schema that nothing has consumed yet. A rule pulls the keyword it consumes,
or marks a kind as one that means nothing here. What is neither pulled nor marked in the end was
not understood. Marking a kind does not keep a keyword from being pulled.

Every keyword has a slot. A pull empties a slot in place, and everything that looks at the list goes
past the empty ones, so that a pull looks like the removal of a keyword (`fst_pull`, `items_pull`).
-/

namespace XsdSynthesis

/-- The slots of a work list in source order, empty where the keyword was pulled. -/
structure Slots where
  toList : List (Option Keyword)

namespace Slots

/-- A slot for every keyword, none of them empty. -/
def full (ks : List Keyword) : Slots := ⟨ks.map some⟩

instance : Coe (List Keyword) Slots := ⟨full⟩

/-- The keywords in the slots. -/
def keywords (slots : Slots) : List Keyword := slots.toList.filterMap id

/-- What the first slot with a keyword of a kind holds, and the slots with that one emptied. -/
def takeFirst (kind : Kind) : List (Option Keyword) → Option Keyword × List (Option Keyword)
  | [] => (none, [])
  | slot :: rest =>
    if slot.any (·.kind == kind) then (slot, none :: rest)
    else ((takeFirst kind rest).1, slot :: (takeFirst kind rest).2)

@[simp] theorem keywords_full (ks : List Keyword) : (full ks).keywords = ks := by
  simp [full, keywords]

theorem mem_keywords {slots : Slots} {k : Keyword} :
    k ∈ slots.keywords ↔ some k ∈ slots.toList := by
  simp [keywords]

/-- There is no keyword of the kind and nothing changes, or the first slot with one is emptied. -/
theorem takeFirst_cases (kind : Kind) (slots : List (Option Keyword)) :
    (takeFirst kind slots = (none, slots) ∧ ∀ k, some k ∈ slots → k.kind ≠ kind) ∨
      ∃ before k after, slots = before ++ some k :: after ∧
        takeFirst kind slots = (some k, before ++ none :: after) ∧
        (∀ b, some b ∈ before → b.kind ≠ kind) ∧ k.kind = kind := by
  induction slots with
  | nil => exact .inl ⟨rfl, by simp⟩
  | cons slot rest ih =>
    by_cases hslot : slot.any (·.kind == kind) = true
    · obtain ⟨k, rfl, hk⟩ := (Option.any_eq_true _ _).1 hslot
      exact .inr ⟨[], k, rest, rfl, by simp [takeFirst, hk], by simp, beq_iff_eq.1 hk⟩
    · have hne : ∀ b, some b = slot → b.kind ≠ kind := by
        rintro b rfl
        simpa using hslot
      rcases ih with ⟨heq, hnone⟩ | ⟨before, k, after, rfl, heq, hbefore, hk⟩
      · refine .inl ⟨by simp [takeFirst, hslot, heq], fun b hb => ?_⟩
        exact (List.mem_cons.1 hb).elim (hne b) (hnone b)
      · refine .inr ⟨slot :: before, k, after, rfl, by simp [takeFirst, hslot, heq], ?_, hk⟩
        intro b hb
        exact (List.mem_cons.1 hb).elim (hne b) (hbefore b)

/-- Past the empty slots, taking the first keyword of a kind removes it from the list. -/
theorem takeFirst_eq (kind : Kind) (slots : List (Option Keyword)) :
    (takeFirst kind slots).1 = (slots.filterMap id).find? (·.kind == kind) ∧
      (takeFirst kind slots).2.filterMap id =
        (slots.filterMap id).eraseP (·.kind == kind) := by
  induction slots with
  | nil => exact ⟨rfl, rfl⟩
  | cons slot rest ih =>
    obtain ⟨hfound, hleft⟩ := ih
    cases slot with
    | none => exact ⟨hfound, hleft⟩
    | some k =>
      by_cases hk : k.kind = kind
      · simp [takeFirst, hk]
      · constructor
        · simpa [takeFirst, hk] using hfound
        · simpa [takeFirst, hk] using hleft

end Slots

/-- The slots, and the kinds marked so far. -/
structure WorkList where
  slots : Slots
  marked : List Kind

namespace WorkList

/-- All keywords of a schema, none marked. -/
def ofSchema (s : Schema) : WorkList := ⟨s.keywords, []⟩

/-- The keywords left, in source order. -/
def items (w : WorkList) : List Keyword := w.slots.keywords

/-- The list with a kind marked. -/
def mark (w : WorkList) (kind : Kind) : WorkList := { w with marked := kind :: w.marked }

def markAll (w : WorkList) (kinds : List Kind) : WorkList := kinds.foldl mark w

def isMarked (w : WorkList) (kind : Kind) : Bool := w.marked.contains kind

/-- Whether a keyword of a kind is left, marked or not. -/
def contains (w : WorkList) (kind : Kind) : Bool := w.items.any (·.kind == kind)

/-- Whether a keyword of a kind is left and the kind is not marked. -/
def isPending (w : WorkList) (kind : Kind) : Bool := !w.isMarked kind && w.contains kind

/-- The first keyword of a kind, and the list with its slot emptied. -/
def pull (w : WorkList) (kind : Kind) : Option Keyword × WorkList :=
  let (found, slots) := Slots.takeFirst kind w.slots.toList
  (found, { w with slots := ⟨slots⟩ })

/-- The keywords left. Those of marked kinds are left out unless they are asked for. -/
def enumerate (w : WorkList) (withMarked : Bool) : List Keyword :=
  w.items.filter fun k => withMarked || !w.isMarked k.kind

/-- The keywords left whose kind is not marked. -/
def unhandled (w : WorkList) : List Keyword := w.enumerate false

/-- The spellings of the keywords left whose kind is not marked. -/
def unhandledNames (w : WorkList) : List String := w.unhandled.map Keyword.name

def pullRequired (w : WorkList) : Option (List String) × WorkList :=
  match w.pull .required with
  | (some (.required names), w) => (some names, w)
  | (_, w) => (none, w)

def pullProperties (w : WorkList) : Option (List (String × Schema)) × WorkList :=
  match w.pull .properties with
  | (some (.properties entries), w) => (some entries, w)
  | (_, w) => (none, w)

def pullReference (w : WorkList) : Option String × WorkList :=
  match w.pull .ref with
  | (some (.ref reference), w) => (some reference, w)
  | (_, w) => (none, w)

def pullTypes (w : WorkList) : Option (List ValueType) × WorkList :=
  match w.pull .type with
  | (some (.type types), w) => (some types, w)
  | (_, w) => (none, w)

def pullAsAttribute (w : WorkList) : Option Bool × WorkList :=
  match w.pull .asAttribute with
  | (some (.asAttribute flag), w) => (some flag, w)
  | (_, w) => (none, w)

@[simp] theorem items_full (ks : List Keyword) (marked : List Kind) :
    (WorkList.mk ks marked).items = ks := Slots.keywords_full ks

@[simp] theorem items_ofSchema (s : Schema) : (ofSchema s).items = s.keywords :=
  items_full s.keywords []

theorem mem_items {w : WorkList} {k : Keyword} : k ∈ w.items ↔ some k ∈ w.slots.toList :=
  Slots.mem_keywords

@[simp] theorem items_mark (w : WorkList) (kind : Kind) : (w.mark kind).items = w.items := rfl

@[simp] theorem marked_pull (w : WorkList) (kind : Kind) : (w.pull kind).2.marked = w.marked := rfl

/-- A pull gives the first keyword of its kind among those left. -/
theorem fst_pull (w : WorkList) (kind : Kind) :
    (w.pull kind).1 = w.items.find? (·.kind == kind) := (Slots.takeFirst_eq kind w.slots.toList).1

/-- A pull leaves the other keywords in their order. -/
theorem items_pull (w : WorkList) (kind : Kind) :
    (w.pull kind).2.items = w.items.eraseP (·.kind == kind) :=
  (Slots.takeFirst_eq kind w.slots.toList).2

@[simp] theorem enumerate_true (w : WorkList) : w.enumerate true = w.items := by
  simp [enumerate]

theorem contains_iff {w : WorkList} {kind : Kind} :
    w.contains kind = true ↔ ∃ k ∈ w.items, k.kind = kind := by
  simp [contains]

theorem isPending_iff {w : WorkList} {kind : Kind} :
    w.isPending kind = true ↔ kind ∉ w.marked ∧ ∃ k ∈ w.items, k.kind = kind := by
  simp [isPending, contains, isMarked]

end WorkList
end XsdSynthesis
