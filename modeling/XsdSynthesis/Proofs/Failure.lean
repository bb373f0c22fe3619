import XsdSynthesis.Proofs.Items

/-!
# XsdSynthesis.Proofs.Failure

Steps that fail. A sequence fails as its first failing step does (`bind_error`, `mapM_error`). A check `RefusesAt`
places with a property if it fails only there; each check of a conversion fails at the place it is
given, or at a keyword that is to blame. No check fails as the walk through the places does: neither
for the depth of a place, nor because it was visited before, nor for keywords left over there.
-/

namespace XsdSynthesis

namespace Checks

variable {ε α β : Type}

theorem bind_error {x : Except ε α} {f : α → Except ε β} {e : ε} :
    (x >>= f) = .error e ↔ x = .error e ∨ ∃ a, x = .ok a ∧ f a = .error e := by
  cases x with
  | error e' => simp [bind, Except.bind]
  | ok a => simp [bind, Except.bind]

theorem return_error {x : Except ε α} {f : α → β} {e : ε} :
    (x >>= fun a => pure (f a)) = .error e ↔ x = .error e := by
  cases x <;> simp [bind, Except.bind, pure, Except.pure]

theorem exists_return_ok {x : Except ε α} {f : α → β} :
    (∃ b, (x >>= fun a => pure (f a)) = .ok b) ↔ ∃ a, x = .ok a := by
  cases x <;> simp [bind, Except.bind, pure, Except.pure]

/-- A map over a list fails as it does at the first place where it fails. -/
theorem mapM_error {f : α → Except ε β} {as : List α} {e : ε} :
    as.mapM f = .error e ↔ ∃ (i : Nat) (a : α), as[i]? = some a ∧
      (∀ b ∈ as.take i, ∃ c, f b = .ok c) ∧ f a = .error e := by
  induction as with
  | nil => simp [pure, Except.pure]
  | cons first rest ih =>
    rw [List.mapM_cons, bind_error]
    constructor
    · rintro (hfail | ⟨c, hc, h⟩)
      · exact ⟨0, first, rfl, by simp, hfail⟩
      · obtain ⟨i, a, ha, hbefore, hfail⟩ := ih.1 (return_error.1 h)
        refine ⟨i + 1, a, ha, ?_, hfail⟩
        rw [List.take_succ_cons]
        exact List.forall_mem_cons.2 ⟨⟨c, hc⟩, hbefore⟩
    · rintro ⟨i, a, ha, hbefore, hfail⟩
      cases i with
      | zero =>
        cases ha
        exact .inl hfail
      | succ i =>
        rw [List.take_succ_cons] at hbefore
        obtain ⟨⟨c, hc⟩, hrest⟩ := List.forall_mem_cons.1 hbefore
        exact .inr ⟨c, hc, return_error.2 (ih.2 ⟨i, a, ha, hrest, hfail⟩)⟩

end Checks

/-- Whether a problem is one that only the walk ends with, as it enters a place or leaves one. -/
def Problem.isOfWalk : Problem → Bool
  | .tooDeep .. | .fault _ .visitedTwice | .unhandled .. => true
  | _ => false

/-- A problem that a check may find: its place, if any, has a property. -/
structure Refused (P : Pointer → Prop) (e : Problem) : Prop where
  walk : e.isOfWalk = false
  place : ∀ p, e.place? = some p → P p

/-- A check fails only at places that have a property. -/
def RefusesAt {α : Type} (P : Pointer → Prop) (x : Except Problem α) : Prop :=
  ∀ e, x = .error e → Refused P e

variable {α β : Type} {P : Pointer → Prop} {place : Pointer}

theorem refused_at {e : Problem} (h : e.place? = some place) (he : e.isOfWalk = false)
    (hp : P place) : Refused P e := by
  refine ⟨he, fun p hplace => ?_⟩
  cases h.symm.trans hplace
  exact hp

theorem refused_root (f : RootFault) : Refused P (.root f) := ⟨rfl, nofun⟩

theorem refusesAt_ok (a : α) : RefusesAt P (.ok a) := nofun

theorem refusesAt_error {e : Problem} (h : Refused P e) :
    RefusesAt P (.error e : Except Problem α) := by
  rintro _ ⟨⟩
  exact h

theorem Refused.mono {Q : Pointer → Prop} {e : Problem} (he : Refused P e)
    (h : ∀ p, P p → Q p) : Refused Q e :=
  ⟨he.walk, fun p hp => h p (he.place p hp)⟩

theorem RefusesAt.bind {x : Except Problem α} {f : α → Except Problem β} (hx : RefusesAt P x)
    (hf : ∀ a, x = .ok a → RefusesAt P (f a)) : RefusesAt P (x >>= f) := by
  intro e h
  rcases Checks.bind_error.1 h with h | ⟨a, ha, h⟩
  · exact hx e h
  · exact hf a ha e h

theorem refusesAt_mapM {f : α → Except Problem β} {as : List α}
    (h : ∀ a ∈ as, RefusesAt P (f a)) : RefusesAt P (as.mapM f) := by
  intro e he
  obtain ⟨i, a, ha, _, hfail⟩ := Checks.mapM_error.1 he
  exact h a (List.mem_of_getElem? ha) e hfail

theorem refusesAt_forM {f : α → Except Problem PUnit.{1}} {as : List α}
    (h : ∀ a ∈ as, RefusesAt P (f a)) : RefusesAt P (as.forM f) := by
  induction as with
  | nil => exact refusesAt_ok _
  | cons a rest ih =>
    obtain ⟨ha, hrest⟩ := List.forall_mem_cons.1 h
    exact RefusesAt.bind ha fun _ _ => ih hrest

namespace Conversion

open Xsd WorkList

variable {l l' : Ledger} {e : Problem}

theorem bind_error {x : Conversion α} {f : α → Conversion β} :
    (x >>= f) l = (.error e, l') ↔
      x l = (.error e, l') ∨ ∃ a m, x l = (.ok a, m) ∧ f a m = (.error e, l') := by
  rw [bind_apply]
  obtain ⟨r, m⟩ := x l
  cases r with
  | error e' => simp
  | ok a =>
    constructor
    · intro h
      exact .inr ⟨a, m, rfl, h⟩
    · rintro (h | ⟨_, _, hx, h⟩)
      · cases h
      · cases hx
        exact h

/-! ## Checks of one place -/

theorem checkName_refuses (hp : P place) (name : String) : RefusesAt P (checkName place name) := by
  unfold checkName
  split
  · exact refusesAt_ok ()
  · exact refusesAt_error (refused_at rfl rfl hp)

theorem checkPlain_refuses (hp : P place) (derivations : List Shape) (shapes : ShapeSet) :
    RefusesAt P (checkPlain place derivations shapes) := by
  unfold checkPlain
  split
  · exact refusesAt_error (refused_at rfl rfl hp)
  · exact refusesAt_ok ()

theorem checkObject_refuses (hp : P place) (types : Option (List ValueType)) :
    RefusesAt P (checkObject place types) := by
  unfold checkObject
  split
  · exact refusesAt_ok ()
  · split
    · exact refusesAt_ok ()
    · exact refusesAt_error (refused_at rfl rfl hp)

/-- What is required and not declared is refused at `required`, which then is there. -/
theorem checkRequired_refuses {required : List String}
    (hp : required ≠ [] → P (place.child "required")) (properties : List (String × Schema)) :
    RefusesAt P (checkRequired place required properties) := by
  unfold checkRequired
  split
  · rename_i n hn
    have hm := List.mem_of_find?_eq_some hn
    exact refusesAt_error (refused_at rfl rfl (hp (List.ne_nil_of_mem hm)))
  · exact refusesAt_ok ()

theorem primitiveOf_refuses (hp : P place) (types : List ValueType) :
    RefusesAt P (primitiveOf place types) := by
  unfold primitiveOf
  split
  · split
    · exact refusesAt_ok _
    · exact refusesAt_error (refused_at rfl rfl hp)
  · exact refusesAt_error (refused_at rfl rfl hp)

/-! ## Types -/

variable {s t : Schema} {ns : Option String} {w : WorkList}

/-- A reference is refused where it stands, or at the namespaces, one of which is the default. -/
theorem resolve_refuses (hp : P place) (hns : ns ≠ none → P namespacesPlace) (reference : String) :
    RefusesAt P (resolve s ns place reference) := by
  unfold resolve
  split
  · exact refusesAt_error (refused_at rfl rfl hp)
  · cases ns with
    | none => exact refusesAt_ok _
    | some uri => exact refusesAt_error (refused_at rfl rfl (hns nofun))

theorem simpleTypeName_refuses (hp : P place) (hns : ns ≠ none → P namespacesPlace)
    (shapes : ShapeSet) (w : WorkList) : RefusesAt P (simpleTypeName s ns place shapes w) := by
  refine (checkPlain_refuses hp _ _).bind fun _ _ => ?_
  dsimp only
  split
  · exact refusesAt_error (refused_at rfl rfl hp)
  · exact (resolve_refuses hp hns _).bind fun name _ => refusesAt_ok _
  · exact (primitiveOf_refuses hp _).bind fun q _ => refusesAt_ok _
  · exact refusesAt_ok _

theorem openComplex_refuses (hp : P place)
    (hr : w.pullTypes.2.pullRequired.1.getD [] ≠ [] → P (place.child "required"))
    (shapes : ShapeSet) : RefusesAt P (openComplex place shapes w) := by
  refine (checkPlain_refuses hp _ _).bind fun _ _ => ?_
  refine (checkObject_refuses hp _).bind fun _ _ => ?_
  exact RefusesAt.bind (checkRequired_refuses hr _) fun _ _ => refusesAt_ok _

theorem pullRequired_of_pullTypes (hw : ∀ kind, kind ≠ .asAttribute → w.Offers t kind) :
    w.pullTypes.2.pullRequired.1.getD [] = t.requiredNames := by
  rw [pullTypes_eq (hw .type (by decide))]
  exact (pullRequired_getD (offers_pull .type (hw .required (by decide)) (by decide))).1

/-! ## Definitions and the root -/

theorem checkBase_refuses (hp : P place) (source : Source) (name : String) (base : QualifiedName) :
    RefusesAt P (checkBase source ns place name base) := by
  unfold checkBase
  split
  · exact refusesAt_ok ()
  · split
    · exact refusesAt_ok ()
    · exact refusesAt_error (refused_at rfl rfl hp)

theorem definitionItem_refuses (hp : P place) (source : Source) (name : String) (node : Node) :
    RefusesAt P (definitionItem source ns place name node) := by
  unfold definitionItem
  split
  · exact refusesAt_ok _
  · exact (checkBase_refuses hp source name _).bind fun _ _ => refusesAt_ok _
  · exact refusesAt_error (refused_at rfl rfl hp)

theorem documentationOf_refuses {entries : List (String × Json)}
    (hp : ∀ e ∈ entries, P (Pointer.root.append ["info", e.1])) :
    RefusesAt P (documentationOf entries) := by
  refine (refusesAt_mapM fun e he => ?_).bind fun markup _ => refusesAt_ok _
  obtain ⟨name, value⟩ := e
  cases value with
  | str fixed => exact refusesAt_ok _
  | _ => exact refusesAt_error (refused_at rfl rfl (hp _ he))

theorem wrappedBranch_refuses (s : Schema) : RefusesAt P (wrappedBranch s) := by
  unfold wrappedBranch
  split
  · exact refusesAt_error (refused_root _)
  · split
    · exact refusesAt_error (refused_root _)
    · exact refusesAt_ok _
    · exact refusesAt_error (refused_root _)
    · exact refusesAt_error (refused_root _)

theorem wrappedTypeName_refuses
    (hp : ∀ c branch, s.combinators = [(c, [branch])] → P (Pointer.root.append [c.name, "0"]))
    (hns : ns ≠ none → P namespacesPlace) : RefusesAt P (wrappedTypeName s ns) := by
  refine (wrappedBranch_refuses s).bind fun found hb => ?_
  obtain ⟨place, branch⟩ := found
  obtain ⟨_, c, hc, rfl⟩ := wrappedBranch_ok hb
  dsimp only
  split
  · exact (resolve_refuses (hp c branch hc) hns _).bind fun name _ => refusesAt_ok _
  · exact refusesAt_error (refused_root _)

/-! ## The heading -/

theorem form?_refuses (hp : P place) (value : String) : RefusesAt P (form? place value) := by
  unfold form?
  split
  · exact refusesAt_ok _
  · exact refusesAt_error (refused_at rfl rfl hp)

theorem derivations?_refuses (hp : P place) (allowed : Derivation → Bool) (value : String) :
    RefusesAt P (derivations? place allowed value) := by
  unfold derivations?
  split
  · exact refusesAt_ok _
  · exact refusesAt_error (refused_at rfl rfl hp)

theorem checkPrefix_refuses {p : String} (hp : P (namespacesPlace.child p)) :
    RefusesAt P (checkPrefix p) := by
  unfold checkPrefix
  split
  · exact refusesAt_ok ()
  · exact checkName_refuses hp p

theorem addBuiltIn_refuses (hp : P namespacesPlace) (table : List (String × String))
    (binding : String × String) : RefusesAt P (addBuiltIn table binding) := by
  unfold addBuiltIn
  split
  split
  · exact refusesAt_ok _
  · split
    · exact refusesAt_error (refused_at rfl rfl hp)
    · exact refusesAt_ok _

/-- Where nothing is declared nothing is refused: the built-in prefixes do not clash. -/
theorem namespaceTable_refuses {declared : List (String × String)}
    (hp : declared ≠ [] → P namespacesPlace)
    (hentries : ∀ b ∈ declared, P (namespacesPlace.child b.1)) :
    RefusesAt P (namespaceTable declared) := by
  cases declared with
  | nil =>
    have hok : namespaceTable [] = .ok builtInNamespaces := by decide
    rw [hok]
    exact refusesAt_ok _
  | cons first rest =>
    refine (refusesAt_forM fun b hb => checkPrefix_refuses (hentries b hb)).bind fun _ _ => ?_
    simp only [builtInNamespaces, List.foldlM_cons, List.foldlM_nil]
    refine (addBuiltIn_refuses (hp nofun) _ _).bind fun _ _ => ?_
    exact (addBuiltIn_refuses (hp nofun) _ _).bind fun _ _ => refusesAt_ok _

end Conversion
end XsdSynthesis
