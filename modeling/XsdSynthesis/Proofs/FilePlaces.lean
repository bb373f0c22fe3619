import XsdSynthesis.CommandLine.Workspace
import XsdSynthesis.Proofs.Tables

/-!
# XsdSynthesis.Proofs.FilePlaces

Writing a file changes what the paths to it lead to, and nothing else. A path to a place that is neither a
directory nor a device ends with a name in a directory (`entry_of_locate`), so a file that is put there
makes no directory and closes no way, and every path leads where it led (`find_put`).
-/

namespace XsdSynthesis
namespace CommandLine

/-! ## Places above one another -/

namespace Place

variable {p q r : Place}

theorem isWithin_iff : p.isWithin q = true ↔ q.names <+: p.names := List.isPrefixOf_iff_prefix

theorem isBelow_iff : p.isBelow q = true ↔ q.names <+: p.names ∧ p ≠ q := by
  rw [isBelow, Bool.and_eq_true, isWithin_iff, bne_iff_ne]

theorem isWithin_trans (h : p.isWithin q = true) (h' : q.isWithin r = true) :
    p.isWithin r = true :=
  isWithin_iff.2 ((isWithin_iff.1 h').trans (isWithin_iff.1 h))

/-- What lies below a place lies below the places that this is within. -/
theorem isBelow_of_isWithin (h : p.isBelow q = true) (h' : q.isWithin r = true) :
    p.isBelow r = true := by
  obtain ⟨habove, hne⟩ := isBelow_iff.1 h
  have hup := isWithin_iff.1 h'
  refine isBelow_iff.2 ⟨hup.trans habove, ?_⟩
  rintro rfl
  have hsame := habove.eq_of_length_le hup.length_le
  exact hne (congrArg Place.mk hsame.symm)

theorem isWithin_parent (p : Place) : p.isWithin p.parent = true :=
  isWithin_iff.2 (List.dropLast_prefix _)

/-- What a name in a place lies below, the place is within. -/
theorem isWithin_of_child {name : String} (h : (p.child name).isBelow q = true) :
    p.isWithin q = true := by
  obtain ⟨habove, hne⟩ := isBelow_iff.1 h
  rcases List.prefix_concat_iff.1 habove with hsame | habove
  · exact absurd (congrArg Place.mk hsame.symm) hne
  · exact isWithin_iff.2 habove

end Place

/-! ## Directories -/

namespace Machine

variable {p q : Place}

/-- The places that a directory of the machine lies in are directories. -/
theorem isDirectory_of_isWithin (h : isDirectory p = true) (hq : p.isWithin q = true) :
    isDirectory q = true := by
  have hroot : isDirectory .root = true := by decide
  simp only [isDirectory, Bool.or_eq_true, List.any_eq_true] at h ⊢
  rcases h with (hhome | hdirectory) | ⟨device, hm, hbelow⟩
  · exact .inl (.inl (Place.isWithin_trans hhome hq))
  · obtain ⟨name, _, rfl⟩ := List.mem_map.1 (List.contains_iff_mem.1 hdirectory)
    rcases List.prefix_concat_iff.1 (Place.isWithin_iff.1 hq) with hsame | habove
    · rw [show q = Place.root.child name from congrArg Place.mk hsame]
      exact .inl (.inr hdirectory)
    · rw [show q = Place.root from congrArg Place.mk (List.prefix_nil.1 habove)]
      simpa only [isDirectory, Bool.or_eq_true, List.any_eq_true] using hroot
  · exact .inr ⟨device, hm, Place.isBelow_of_isWithin hbelow hq⟩

/-- A link leads to a directory or to a device. -/
theorem follow_cases (p : Place) :
    follow p = p ∨ isDirectory (follow p) = true ∨ (device? (follow p)).isSome = true := by
  have hall : ∀ l ∈ links, isDirectory l.2 = true ∨ (device? l.2).isSome = true := by decide
  cases hl : links.lookup p with
  | none =>
    left
    rw [follow, hl]
    rfl
  | some target =>
    right
    rw [follow, hl]
    exact hall _ (Tables.mem_of_lookup hl)

end Machine

namespace Workspace

variable {w : Workspace} {p q place : Place} {path : String}

theorem isDirectory_iff : w.isDirectory p = true ↔
    Machine.isDirectory p = true ∨ ∃ f ∈ w.files, f.1.isBelow p = true := by
  rw [isDirectory, Bool.or_eq_true, List.any_eq_true]

/-- The places that a directory lies in are directories. -/
theorem isDirectory_of_isWithin (h : w.isDirectory p = true) (hq : p.isWithin q = true) :
    w.isDirectory q = true := by
  rcases isDirectory_iff.1 h with hm | ⟨f, hf, hbelow⟩
  · exact isDirectory_iff.2 (.inl (Machine.isDirectory_of_isWithin hm hq))
  · exact isDirectory_iff.2 (.inr ⟨f, hf, Place.isBelow_of_isWithin hbelow hq⟩)

/-! ## What paths lead to -/

/-- A place that a path leads to: a directory, a device, or a name in a directory. -/
inductive Entry (w : Workspace) : Place → Prop where
  | directory {p : Place} : w.isDirectory p = true → Entry w p
  | device {p : Place} : (Machine.device? p).isSome = true → Entry w p
  | child {p : Place} {name : String} : w.isDirectory p = true → Entry w (p.child name)

theorem entry_of_step {component : String} (h : w.step p component = some q) : w.Entry q := by
  unfold step at h
  split at h
  · rename_i hp
    split at h
    · cases h
      exact .directory hp
    · split at h
      · cases h
        exact .directory (isDirectory_of_isWithin hp p.isWithin_parent)
      · split at h
        · cases h
        · cases h
          rcases Machine.follow_cases (p.child component) with hsame | hd | hd
          · rw [hsame]
            exact .child hp
          · exact .directory (isDirectory_iff.2 (.inl hd))
          · exact .device hd
  · cases h

theorem entry_of_steps {components : List String} (hp : w.Entry p)
    (h : components.foldlM w.step p = some q) : w.Entry q := by
  induction components generalizing p with
  | nil =>
    cases h
    exact hp
  | cons component rest ih =>
    rw [List.foldlM_cons] at h
    obtain ⟨next, hnext, hrest⟩ := Option.bind_eq_some_iff.1 h
    exact ih (entry_of_step hnext) hrest

theorem entry_of_locate (h : w.locate path = some place) : w.Entry place := by
  unfold locate at h
  split at h
  · cases h
  · refine entry_of_steps (.directory (isDirectory_iff.2 (.inl ?_))) h
    split <;> decide

/-! ## Writing -/

/-- A path leads to a place where a file can be made or replaced. -/
structure Writable (w : Workspace) (path : String) (place : Place) : Prop where
  located : w.locate path = some place
  noDirectory : w.isDirectory place = false
  noDevice : Machine.device? place = none
  noSeal : Machine.isSealed place = false

theorem write_of_writable (h : w.Writable path place) (bytes : ByteArray) :
    w.write path bytes = .stored (w.put place bytes) := by
  rw [write, h.located]
  simp only [h.noDirectory, h.noDevice, h.noSeal, Bool.false_eq_true, if_false]

/-- A path leads to a device that takes bytes. -/
structure Passes (w : Workspace) (path : String) (device : Device) : Prop where
  located : ∃ place, w.locate path = some place ∧ w.isDirectory place = false ∧
    Machine.device? place = some device
  accepts : device ≠ .full

theorem write_of_passes {device : Device} (h : w.Passes path device) (bytes : ByteArray) :
    w.write path bytes = if device = .output then .printed else .stored w := by
  obtain ⟨⟨place, hplace, hno, hdevice⟩, haccepts⟩ := h
  rw [write, hplace]
  simp only [hno, hdevice, Bool.false_eq_true, if_false]
  cases device with
  | full => exact absurd rfl haccepts
  | _ => rfl

/-- Where neither a file nor a device takes bytes, nothing is written. -/
theorem write_of_neither (hno : ∀ place, ¬ w.Writable path place)
    (hpass : ∀ device, ¬ w.Passes path device) (bytes : ByteArray) :
    w.write path bytes = .refused ∨ w.write path bytes = .noRoom := by
  rw [write]
  cases hplace : w.locate path with
  | none => exact .inl rfl
  | some place =>
    dsimp only
    cases hd : w.isDirectory place with
    | true => exact .inl rfl
    | false =>
      cases hdevice : Machine.device? place with
      | none =>
        left
        cases hseal : Machine.isSealed place with
        | true => rfl
        | false => exact absurd ⟨hplace, hd, hdevice, hseal⟩ (hno place)
      | some device =>
        right
        by_cases hfull : device = .full
        · rw [hfull]
          rfl
        · exact absurd ⟨⟨place, hplace, hd, hdevice⟩, hfull⟩ (hpass device)

/-- A file that is put where a path leads makes no directory and removes none. -/
theorem isDirectory_put (h : w.Writable path place) (bytes : ByteArray) (q : Place) :
    (w.put place bytes).isDirectory q = w.isDirectory q := by
  rw [Bool.eq_iff_iff]
  constructor
  · intro hq
    rcases isDirectory_iff.1 hq with hm | ⟨f, hf, hbelow⟩
    · exact isDirectory_iff.2 (.inl hm)
    · rcases List.mem_cons.1 hf with rfl | hf
      · -- the new file lies below `q`, so the directory that it is put in is within `q`
        have hentry := entry_of_locate h.located
        cases hentry with
        | directory hd => cases h.noDirectory.symm.trans hd
        | device hd =>
          rw [h.noDevice] at hd
          cases hd
        | child hp => exact isDirectory_of_isWithin hp (Place.isWithin_of_child hbelow)
      · exact isDirectory_iff.2 (.inr ⟨f, (List.mem_filter.1 hf).1, hbelow⟩)
  · intro hq
    rcases isDirectory_iff.1 hq with hm | ⟨f, hf, hbelow⟩
    · exact isDirectory_iff.2 (.inl hm)
    · refine isDirectory_iff.2 (.inr ?_)
      by_cases hsame : f.1 = place
      · exact ⟨(place, bytes), List.mem_cons_self, hsame ▸ hbelow⟩
      · refine ⟨f, List.mem_cons_of_mem _ (List.mem_filter.2 ⟨hf, ?_⟩), hbelow⟩
        exact bne_iff_ne.2 hsame

theorem locate_put (h : w.Writable path place) (bytes : ByteArray) (other : String) :
    (w.put place bytes).locate other = w.locate other := by
  have hstep : (w.put place bytes).step = w.step := by
    funext p component
    rw [step, step, isDirectory_put h]
  rw [locate, locate, hstep]

theorem lookup_put (w : Workspace) (place q : Place) (bytes : ByteArray) :
    (w.put place bytes).files.lookup q = if q = place then some bytes else w.files.lookup q := by
  rw [put, List.lookup_cons]
  split
  · rename_i hq
    rw [if_pos (beq_iff_eq.1 hq)]
  · rename_i hq
    have hne : q ≠ place := beq_eq_false_iff_ne.1 hq
    rw [if_neg hne, Tables.lookup_filter hne]

/-- **A path finds what was put if it leads there, and else what it found before.** -/
theorem find_put (h : w.Writable path place) (bytes : ByteArray) (other : String) :
    (w.put place bytes).find other =
      if w.locate other = some place then .file bytes else w.find other := by
  rw [find, find, locate_put h]
  cases hlocate : w.locate other with
  | none => rfl
  | some q =>
    simp only [isDirectory_put h, lookup_put, Option.some.injEq]
    by_cases hq : q = place
    · subst hq
      simp only [h.noDirectory, h.noDevice, if_true, if_false, Bool.false_eq_true]
    · simp only [if_neg hq]

end Workspace
end CommandLine
end XsdSynthesis
