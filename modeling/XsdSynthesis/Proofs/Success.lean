import XsdSynthesis.Conversion.Converter
import XsdSynthesis.Proofs.Tables

/-!
# XsdSynthesis.Proofs.Success

Steps that succeed. Each lemma reads off what the success of one step says: which values it went
through, and which ledger it ends with. Later proofs take a conversion apart with these lemmas only
and never unfold the monad.
-/

namespace XsdSynthesis

namespace Checks

variable {ε α β : Type}

theorem bind_ok {x : Except ε α} {f : α → Except ε β} {b : β} :
    (x >>= f) = .ok b ↔ ∃ a, x = .ok a ∧ f a = .ok b := by
  cases x with
  | error e => simp [bind, Except.bind]
  | ok a => simp [bind, Except.bind]

theorem pure_ok {a b : α} : (pure a : Except ε α) = .ok b ↔ a = b := by
  simp [pure, Except.pure]

/-- A map over a list succeeds exactly when it succeeds at each place. -/
theorem mapM_ok {f : α → Except ε β} {as : List α} {bs : List β} :
    as.mapM f = .ok bs ↔ List.Forall₂ (fun a b => f a = .ok b) as bs := by
  induction as generalizing bs with
  | nil =>
    rw [List.mapM_nil, pure_ok, List.forall₂_nil_left_iff]
    exact eq_comm
  | cons a rest ih =>
    simp only [List.mapM_cons, bind_ok, pure_ok, List.forall₂_cons_left_iff, ih]
    constructor
    · rintro ⟨b, hb, bs', hbs, rfl⟩
      exact ⟨b, bs', hb, hbs, rfl⟩
    · rintro ⟨b, bs', hb, hbs, rfl⟩
      exact ⟨b, hb, bs', hbs, rfl⟩

theorem exists_of_any {x : Except ε α} {p : α → Bool} (h : x.toOption.any p = true) :
    ∃ a, x = .ok a ∧ p a = true := by
  cases x with
  | error e => cases h
  | ok a => exact ⟨a, rfl, h⟩

end Checks

namespace Conversion

variable {α β : Type} {l l' : Ledger}

theorem bind_ok {x : Conversion α} {f : α → Conversion β} {b : β} :
    (x >>= f) l = (.ok b, l') ↔ ∃ a m, x l = (.ok a, m) ∧ f a m = (.ok b, l') := by
  rw [bind_apply]
  obtain ⟨r, m⟩ := x l
  cases r with
  | error e => simp
  | ok a =>
    constructor
    · intro h
      exact ⟨a, m, rfl, h⟩
    · rintro ⟨_, _, hx, h⟩
      cases hx
      exact h

theorem pure_ok {a b : α} : (pure a : Conversion α) l = (.ok b, l') ↔ a = b ∧ l = l' := by
  rw [pure_apply]
  simp

theorem map_ok {x : Conversion α} {f : α → β} {b : β} :
    (f <$> x) l = (.ok b, l') ↔ ∃ a, x l = (.ok a, l') ∧ f a = b := by
  rw [map_eq_pure_bind, bind_ok]
  constructor
  · rintro ⟨a, m, hx, hp⟩
    obtain ⟨rfl, rfl⟩ := pure_ok.1 hp
    exact ⟨a, hx, rfl⟩
  · rintro ⟨a, hx, rfl⟩
    exact ⟨a, l', hx, rfl⟩

theorem stop_ok {e : Problem} {a : α} : ¬ (stop e : Conversion α) l = (.ok a, l') := by
  simp [stop]

theorem lift_ok {x : Except Problem α} {a : α} :
    (liftM x : Conversion α) l = (.ok a, l') ↔ x = .ok a ∧ l = l' := by
  change (x, l) = (.ok a, l') ↔ _
  rw [Prod.mk.injEq]

theorem addItem_ok {item : Xsd.Item} {u : Unit} :
    addItem item l = (.ok u, l') ↔ l' = l.addItem item := by
  simp [addItem, update, eq_comm]

section Next

variable {f : α → Conversion β} {g : Unit → Conversion β} {b : β}

theorem bind_lift_ok {x : Except Problem α} :
    ((liftM x : Conversion α) >>= f) l = (.ok b, l') ↔
      ∃ a, x = .ok a ∧ f a l = (.ok b, l') := by
  rw [bind_ok]
  constructor
  · rintro ⟨a, m, hx, hf⟩
    cases hx
    exact ⟨a, rfl, hf⟩
  · rintro ⟨a, rfl, hf⟩
    exact ⟨a, l, rfl, hf⟩

theorem bind_ledger_ok {f : Ledger → Conversion β} :
    (ledger >>= f) l = (.ok b, l') ↔ f l l = (.ok b, l') := by
  rw [bind_apply, ledger]

theorem bind_update_ok {change : Ledger → Ledger} :
    (update change >>= g) l = (.ok b, l') ↔ g () (change l) = (.ok b, l') := by
  rw [bind_apply, update]

theorem bind_emit_ok {event : Event} :
    (emit event >>= g) l = (.ok b, l') ↔ g () (l.emit event) = (.ok b, l') := bind_update_ok

theorem bind_advance_ok {next : Stage} :
    (advance next >>= g) l = (.ok b, l') ↔ g () (l.advance next) = (.ok b, l') := bind_update_ok

theorem bind_addItem_ok {item : Xsd.Item} :
    (addItem item >>= g) l = (.ok b, l') ↔ g () (l.addItem item) = (.ok b, l') := bind_update_ok

theorem bind_defaultNamespace_ok {f : Option String → Conversion β} :
    (defaultNamespace >>= f) l = (.ok b, l') ↔
      f (l.document.namespaceOf? "") l = (.ok b, l') := by
  rw [defaultNamespace, bind_assoc, bind_ledger_ok, pure_bind]

def entered (l : Ledger) (place : Pointer) (depth : Nat) : Ledger :=
  { l with visited := place :: l.visited }.emit (.entered place depth)

theorem bind_enter_ok {source : Source} {place : Pointer} {depth : Nat} :
    (enter source place depth >>= g) l = (.ok b, l') ↔
      depth ≤ source.options.maxDepth ∧ place ∉ l.visited ∧
        g () (entered l place depth) = (.ok b, l') := by
  by_cases hd : source.options.maxDepth < depth
  · have hn : ¬ depth ≤ source.options.maxDepth := by omega
    rw [enter, if_pos hd, bind_apply]
    simp [stop, hn]
  · have hle : depth ≤ source.options.maxDepth := by omega
    rw [enter, if_neg hd, bind_assoc, bind_ledger_ok]
    by_cases hv : place ∈ l.visited
    · rw [if_pos (by simpa using hv), bind_apply]
      simp [stop, hv]
    · rw [if_neg (by simpa using hv), bind_assoc, bind_update_ok, bind_emit_ok]
      simp [hle, hv, entered]

end Next

theorem checkName_ok {place : Pointer} {name : String} {u : Unit} :
    checkName place name = .ok u ↔ Xml.isName name = true := by
  unfold checkName
  split
  · rename_i h
    simp [h]
  · rename_i h
    simp [h]

end Conversion
end XsdSynthesis
