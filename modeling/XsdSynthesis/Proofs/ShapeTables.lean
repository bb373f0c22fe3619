import XsdSynthesis.Proofs.PointerTexts
import XsdSynthesis.Classification

/-!
# XsdSynthesis.Proofs.ShapeTables

Classification tables, read and written. A table is built by insertions, for pointers or for texts
that denote them; `run_ok` says what a run of insertions leaves. Reading an object is such a run
(`ofJson?_eq_run`), and so is reading what a classification is written as (`read_of_writes`). In all
of them the last entry for a pointer counts, however its text is spelled.
-/

namespace XsdSynthesis

namespace Classification

/-! ## Runs of insertions -/

/-- An insertion, for a pointer or for a text that denotes one. -/
inductive Call where
  | insert (p : Pointer) (shapes : List Shape)
  | insertText (text : String) (shapes : List Shape)

/-- A text for the pointer that a call is about, and the shapes that it names. -/
def Call.entry : Call → String × List Shape
  | insert p shapes => (p.text, shapes)
  | insertText text shapes => (text, shapes)

/-- Insertions for the texts of some entries, in order. -/
def textCalls (entries : List (String × List Shape)) : List Call :=
  entries.map fun e => .insertText e.1 e.2

theorem map_entry_textCalls (entries : List (String × List Shape)) :
    (textCalls entries).map Call.entry = entries := by
  rw [textCalls, List.map_map]
  exact List.map_id entries

def Call.apply (c : Classification) : Call → Except String Classification
  | insert p shapes => .ok (c.insert p shapes)
  | insertText text shapes => c.insertText text shapes

/-- The classification after some calls, or the refusal of a text that denotes no pointer. -/
def run (c : Classification) (calls : List Call) : Except String Classification :=
  calls.foldlM Call.apply c

/-- The shapes that the last of some entries for a pointer names, however its text spells the
pointer. -/
def lastNamed (entries : List (String × List Shape)) (p : Pointer) : Option (List Shape) :=
  (entries.reverse.find? fun e => Pointer.ofText? e.1 = some p).map Prod.snd

variable {c c' : Classification} {p : Pointer}

/-- A call succeeds if its text denotes a pointer, and then it is an insertion there. -/
theorem Call.apply_ok {call : Call} : call.apply c = .ok c' ↔
    ∃ p, Pointer.ofText? call.entry.1 = some p ∧ c' = c.insert p call.entry.2 := by
  cases call with
  | insert p shapes =>
    rw [apply, entry, Pointer.ofText?_of_text]
    simp [eq_comm]
  | insertText text shapes =>
    rw [apply, Classification.insertText, entry]
    cases Pointer.ofText? text with
    | none => simp
    | some p => simp [eq_comm]

theorem lastNamed_cons (e : String × List Shape) (rest : List (String × List Shape))
    (p : Pointer) : lastNamed (e :: rest) p =
      (lastNamed rest p).or (if Pointer.ofText? e.1 = some p then some e.2 else none) := by
  rw [lastNamed, lastNamed, List.reverse_cons, List.find?_append, Option.map_or]
  congr 1
  split <;> rename_i h <;> simp [h]

/-- A run succeeds if every text denotes a pointer. -/
theorem exists_run_iff (c : Classification) (calls : List Call) :
    (∃ c', c.run calls = .ok c') ↔
      ∀ call ∈ calls, ∃ p, Pointer.ofText? call.entry.1 = some p := by
  induction calls generalizing c with
  | nil => simp [run, pure, Except.pure]
  | cons call rest ih =>
    simp only [run, List.foldlM_cons, Checks.bind_ok, Call.apply_ok, List.forall_mem_cons]
    constructor
    · rintro ⟨c', _, ⟨p, hp, rfl⟩, hrun⟩
      exact ⟨⟨p, hp⟩, (ih _).1 ⟨c', hrun⟩⟩
    · rintro ⟨⟨p, hp⟩, hrest⟩
      obtain ⟨c', hrun⟩ := (ih (c.insert p call.entry.2)).2 hrest
      exact ⟨c', _, ⟨p, hp, rfl⟩, hrun⟩

/-- **What a run leaves**, by induction on the calls: an entry of the table comes from the last call
for its pointer, or was there before. -/
theorem run_ok {calls : List Call} (h : c.run calls = .ok c') :
    c'.messageName = c.messageName ∧ c'.inlineRoot = c.inlineRoot ∧
      ∀ p, c'.table[p]? =
        ((lastNamed (calls.map Call.entry) p).map ShapeSet.ofList).or c.table[p]? := by
  induction calls generalizing c with
  | nil =>
    cases Checks.pure_ok.1 h
    exact ⟨rfl, rfl, fun p => rfl⟩
  | cons call rest ih =>
    rw [run, List.foldlM_cons] at h
    obtain ⟨_, happly, hrest⟩ := Checks.bind_ok.1 h
    obtain ⟨q, hq, rfl⟩ := Call.apply_ok.1 happly
    obtain ⟨hname, hroot, htable⟩ := ih hrest
    refine ⟨hname, hroot, fun p => ?_⟩
    rw [htable, getElem?_insert, List.map_cons, lastNamed_cons, Option.map_or, Option.or_assoc, hq]
    congr 1
    by_cases hqp : q = p <;> simp [hqp]

theorem shapes_of_run {calls : List Call} (h : c.run calls = .ok c') (p : Pointer) :
    c'.shapes p =
      (lastNamed (calls.map Call.entry) p).elim (c.shapes p) ShapeSet.ofList := by
  rw [shapes, (run_ok h).2.2 p]
  cases lastNamed (calls.map Call.entry) p <;> rfl

/-! ## Reading -/

/-- The values that the members of the given name have. -/
def valuesOf (members : List (String × Json)) (name : String) : List Json :=
  (members.filter (·.1 == name)).map Prod.snd

/-- A table as an object: each text with an array of names of shapes. -/
def tableJson (entries : List (String × List Shape)) : Json :=
  .obj (entries.map fun e => (e.1, .arr (e.2.map fun s => .str s.name)))

/-- What the members of an object say: a message name, and perhaps a flag and the entries of a
table. Members of other names mean nothing. -/
structure Describes (members : List (String × Json)) (messageName : String) (inlineRoot : Bool)
    (entries : List (String × List Shape)) : Prop where
  messageName : valuesOf members "message-name" = [.str messageName]
  inlineRoot : valuesOf members "has-inline-root" = [] ∧ inlineRoot = false ∨
    valuesOf members "has-inline-root" = [.bool inlineRoot]
  entries : valuesOf members "compatible-types" = [] ∧ entries = [] ∨
    valuesOf members "compatible-types" = [tableJson entries]

theorem member?_of_nil {members : List (String × Json)} {name : String}
    (h : valuesOf members name = []) : member? members name = some none := by
  rw [member?, List.map_eq_nil_iff.1 h]

theorem member?_of_single {members : List (String × Json)} {name : String} {j : Json}
    (h : valuesOf members name = [j]) : member? members name = some (some j) := by
  obtain ⟨m, hm, rfl⟩ := List.map_eq_singleton_iff.1 h
  rw [member?, hm]

theorem shapeSet?_names (shapes : List Shape) :
    shapeSet? (.arr (shapes.map fun s => .str s.name)) = some (.ofList shapes) := by
  have hread : (shapes.map fun s => Json.str s.name).mapM shape? = some shapes := by
    induction shapes with
    | nil => rfl
    | cons s rest ih =>
      rw [List.map_cons, List.mapM_cons, ih, shape?, Shape.ofName?_name]
      rfl
  rw [shapeSet?, Json.arr?, Option.bind_some, hread, Option.map_some]

/-- Reading the members of a table is inserting for their texts. -/
theorem foldlM_addEntry? (c : Classification) (entries : List (String × List Shape)) :
    (entries.map fun e => (e.1, Json.arr (e.2.map fun s => .str s.name))).foldlM addEntry? c.table =
      (c.run (textCalls entries)).toOption.map Classification.table := by
  induction entries generalizing c with
  | nil => rfl
  | cons e rest ih =>
    rw [List.map_cons, textCalls, List.map_cons, List.foldlM_cons, run, List.foldlM_cons,
      Call.apply, insertText, addEntry?, shapeSet?_names]
    cases Pointer.ofText? e.1 with
    | none => rfl
    | some p => exact ih (c.insert p e.2)

/-- **Reading an object is a run of insertions**, one for each member of its table, in order. -/
theorem ofJson?_eq_run {members : List (String × Json)} {messageName : String} {inlineRoot : Bool}
    {entries : List (String × List Shape)} (h : Describes members messageName inlineRoot entries) :
    ofJson? (.obj members) = ((new messageName inlineRoot).run (textCalls entries)).toOption := by
  have hflag : (member? members "has-inline-root").bind (·.elim (some false) Json.bool?) =
      some inlineRoot := by
    rcases h.inlineRoot with ⟨hnone, rfl⟩ | hone
    · rw [member?_of_nil hnone]
      rfl
    · rw [member?_of_single hone]
      rfl
  have htable : (member? members "compatible-types").bind (·.elim (some ∅) table?) =
      ((new messageName inlineRoot).run (textCalls entries)).toOption.map Classification.table := by
    rw [← foldlM_addEntry?]
    rcases h.entries with ⟨hnone, rfl⟩ | hone
    · rw [member?_of_nil hnone]
      rfl
    · rw [member?_of_single hone]
      rfl
  have hread : ofJson? (.obj members) =
      ((member? members "message-name").bind fun m => m.bind Json.str?).bind fun name =>
        ((member? members "has-inline-root").bind (·.elim (some false) Json.bool?)).bind fun flag =>
          ((member? members "compatible-types").bind (·.elim (some ∅) table?)).bind fun table =>
            some ⟨name, flag, table⟩ := by
    rw [ofJson?]
    simp only [Option.bind_eq_bind, Option.bind_assoc, Option.pure_def]
  rw [hread, member?_of_single h.messageName, hflag, htable]
  cases hrun : (new messageName inlineRoot).run (textCalls entries) with
  | error refusal => rfl
  | ok c =>
    obtain ⟨hname, hroot, _⟩ := run_ok hrun
    cases c
    cases hname
    cases hroot
    rfl

/-- An object is read exactly if each text of its table denotes a pointer. -/
theorem exists_ofJson?_iff {members : List (String × Json)} {messageName : String}
    {inlineRoot : Bool} {entries : List (String × List Shape)}
    (h : Describes members messageName inlineRoot entries) :
    (∃ c, ofJson? (.obj members) = some c) ↔
      ∀ e ∈ entries, ∃ p, Pointer.ofText? e.1 = some p := by
  have hdenotes : (∀ call ∈ textCalls entries, ∃ p, Pointer.ofText? call.entry.1 = some p) ↔
      ∀ e ∈ entries, ∃ p, Pointer.ofText? e.1 = some p := by
    rw [textCalls, List.forall_mem_map]
    rfl
  rw [ofJson?_eq_run h, ← hdenotes, ← exists_run_iff (new messageName inlineRoot)]
  cases (new messageName inlineRoot).run (textCalls entries) <;> simp [Except.toOption]

/-- What is read from an object says what the object describes. -/
theorem ofJson?_ok {members : List (String × Json)} {messageName : String} {inlineRoot : Bool}
    {entries : List (String × List Shape)} (h : Describes members messageName inlineRoot entries)
    (hread : ofJson? (.obj members) = some c) :
    c.messageName = messageName ∧ c.inlineRoot = inlineRoot ∧
      ∀ p, c.shapes p = (lastNamed entries p).elim .empty ShapeSet.ofList := by
  rw [ofJson?_eq_run h] at hread
  cases hrun : (new messageName inlineRoot).run (textCalls entries) with
  | error refusal =>
    rw [hrun] at hread
    cases hread
  | ok c' =>
    rw [hrun] at hread
    cases hread
    obtain ⟨hname, hroot, _⟩ := run_ok hrun
    refine ⟨hname, hroot, fun p => ?_⟩
    have hshapes := shapes_of_run hrun p
    rw [map_entry_textCalls] at hshapes
    exact hshapes

/-! ## Writing -/

/-- The entries of a listed table, each pointer by its own text. -/
def textEntries (listed : List (Pointer × ShapeSet)) : List (String × List Shape) :=
  listed.map fun e => (e.1.text, e.2.shapes)

/-- A value that a classification is written as. The entries of its table may stand in any order. -/
def Writes (c : Classification) (j : Json) : Prop :=
  ∃ listed : List (Pointer × ShapeSet), listed.Perm c.entries ∧
    j = .obj [("message-name", .str c.messageName), ("has-inline-root", .bool c.inlineRoot),
      ("compatible-types", tableJson (textEntries listed))]

theorem writes_toJson (c : Classification) : c.Writes c.toJson := by
  refine ⟨c.entries, .refl _, ?_⟩
  rw [toJson, tableJson, textEntries, List.map_map]
  rfl

theorem find?_textEntries (listed : List (Pointer × ShapeSet)) (p : Pointer) :
    lastNamed (textEntries listed) p =
      (listed.reverse.find? fun e => e.1 = p).map fun e => e.2.shapes := by
  rw [lastNamed, textEntries, ← List.map_reverse, List.find?_map, Option.map_map]
  simp only [Function.comp_def, Pointer.ofText?_of_text, Option.some.injEq]

/-- In a listing of a table the text of a pointer names the members of its set. -/
theorem lastNamed_textEntries {listed : List (Pointer × ShapeSet)} (h : listed.Perm c.entries)
    (p : Pointer) : lastNamed (textEntries listed) p = (c.table[p]?).map ShapeSet.shapes := by
  have hmem : ∀ e, e ∈ listed.reverse ↔ c.table[e.1]? = some e.2 := fun e =>
    List.mem_reverse.trans (h.mem_iff.trans Std.ExtTreeMap.mem_toList_iff_getElem?_eq_some)
  rw [find?_textEntries]
  cases hfound : listed.reverse.find? (fun e => e.1 = p) with
  | none =>
    cases hset : c.table[p]? with
    | none => rfl
    | some set =>
      have hnot := List.find?_eq_none.1 hfound (p, set) ((hmem _).2 hset)
      exact absurd (decide_eq_true rfl) hnot
  | some e =>
    have hp : e.1 = p := by simpa using List.find?_some hfound
    have hset := (hmem e).1 (List.mem_of_find?_eq_some hfound)
    rw [← hp, hset]
    rfl

theorem eq_of_getElem? (hname : c'.messageName = c.messageName)
    (hroot : c'.inlineRoot = c.inlineRoot) (htable : ∀ p : Pointer, c'.table[p]? = c.table[p]?) :
    c' = c := by
  have hsame : c'.table = c.table := Std.ExtTreeMap.ext_getElem? htable
  cases c
  cases c'
  cases hname
  cases hroot
  cases hsame
  rfl

/-- **Reading undoes writing.** -/
theorem read_of_writes {j : Json} (h : c.Writes j) : ofJson? j = some c := by
  obtain ⟨listed, hperm, rfl⟩ := h
  have hdescribes : Describes
      [("message-name", .str c.messageName), ("has-inline-root", .bool c.inlineRoot),
        ("compatible-types", tableJson (textEntries listed))]
      c.messageName c.inlineRoot (textEntries listed) := ⟨rfl, .inr rfl, .inr rfl⟩
  have htexts : ∀ call ∈ textCalls (textEntries listed),
      ∃ p, Pointer.ofText? call.entry.1 = some p := by
    intro call hcall
    obtain ⟨e, he, rfl⟩ := List.mem_map.1 hcall
    obtain ⟨entry, _, rfl⟩ := List.mem_map.1 he
    exact ⟨entry.1, Pointer.ofText?_of_text entry.1⟩
  obtain ⟨c', hrun⟩ := (exists_run_iff (new c.messageName c.inlineRoot) _).2 htexts
  obtain ⟨hname, hroot, htable⟩ := run_ok hrun
  have hsets : ∀ p : Pointer, c'.table[p]? = c.table[p]? := by
    intro p
    rw [htable, map_entry_textCalls, lastNamed_textEntries hperm, new,
      Std.ExtTreeMap.getElem?_empty, Option.or_none, Option.map_map]
    cases c.table[p]? <;> simp
  have hsame : c' = c := eq_of_getElem? hname hroot hsets
  rw [ofJson?_eq_run hdescribes, hrun, hsame]
  rfl

/-! ## Tables -/

/-- **In a table the last entry for a pointer counts, and reading undoes writing.** An object that
describes a classification is read exactly if each text of its table denotes a pointer. Then a
pointer has the shapes that the last entry for it names, and none if there is none. A run of
insertions succeeds and ends in the same way, from whatever table it starts. What a classification
is written as, with its table in any order, is read as that classification. -/
theorem last_entry_counts :
    (∀ members messageName inlineRoot entries,
      Describes members messageName inlineRoot entries →
        ((∃ c, ofJson? (.obj members) = some c) ↔
          ∀ e ∈ entries, ∃ p, Pointer.ofText? e.1 = some p) ∧
        ∀ c, ofJson? (.obj members) = some c →
          c.classifier.messageName = messageName ∧ c.classifier.inlineRoot = inlineRoot ∧
          ∀ p, c.classifier.shapes p = (lastNamed entries p).elim .empty .ofList) ∧
      (∀ (c : Classification) (calls : List Call),
        ((∃ c', c.run calls = .ok c') ↔
          ∀ call ∈ calls, ∃ p, Pointer.ofText? call.entry.1 = some p) ∧
        ∀ c', c.run calls = .ok c' →
          c'.classifier.messageName = c.classifier.messageName ∧
          c'.classifier.inlineRoot = c.classifier.inlineRoot ∧
          ∀ p, c'.classifier.shapes p =
            (lastNamed (calls.map Call.entry) p).elim (c.classifier.shapes p) .ofList) ∧
      ∀ c : Classification, c.Writes c.toJson ∧ ∀ j, c.Writes j → ofJson? j = some c := by
  refine ⟨fun members messageName inlineRoot entries h =>
    ⟨exists_ofJson?_iff h, fun c hread => ofJson?_ok h hread⟩, fun c calls => ?_,
    fun c => ⟨writes_toJson c, fun j hj => read_of_writes hj⟩⟩
  refine ⟨exists_run_iff c calls, fun c' hrun => ?_⟩
  obtain ⟨hname, hroot, _⟩ := run_ok hrun
  exact ⟨hname, hroot, shapes_of_run hrun⟩

/-- Entries of which three are for one pointer, in three spellings. -/
def respelledEntries : List (String × List Shape) :=
  [("#/a~0", [.complexType]), ("/a~", [.simpleTypeList]), ("/b", [.complexType]),
    ("#/a~", [.simpleTypeRestriction, .simpleType])]

def respelledMembers : List (String × Json) :=
  [("has-inline-root", .bool true), ("note", .null),
    ("compatible-types", tableJson respelledEntries), ("message-name", .str "Root")]

theorem last_entry_counts_respelled : ∃ c, ofJson? (.obj respelledMembers) = some c ∧
    c.classifier.shapes ⟨["a~"]⟩ = .ofList [.simpleTypeRestriction, .simpleType] ∧
      c.classifier.shapes ⟨["b"]⟩ = .ofList [.complexType] ∧
      c.classifier.shapes .root = .empty ∧ ofJson? c.toJson = some c := by
  obtain ⟨hreads, _, hwritten⟩ := last_entry_counts
  obtain ⟨hiff, hok⟩ :=
    hreads respelledMembers "Root" true respelledEntries ⟨rfl, .inr rfl, .inr rfl⟩
  have htexts : ∀ e ∈ respelledEntries, (Pointer.ofText? e.1).isSome = true := by decide
  obtain ⟨c, hc⟩ := hiff.2 fun e he => Option.isSome_iff_exists.1 (htexts e he)
  obtain ⟨_, _, hshapes⟩ := hok c hc
  obtain ⟨hwrites, hback⟩ := hwritten c
  refine ⟨c, hc, ?_, ?_, ?_, hback c.toJson hwrites⟩
  · rw [hshapes]
    decide
  · rw [hshapes]
    decide
  · rw [hshapes]
    decide

end Classification
end XsdSynthesis
