import XsdSynthesis.Proofs.Independence

/-!
# XsdSynthesis.Proofs.Exchange

The two containers of definitions exchanged: in the names of the root's members, in the pointers of a
classification, and in the references that name a definition. Exchanging the first segment in a
reference's text exchanges it in its pointer (`ofText?_exchangedText`), and the exchanged value is
read as the exchanged schema (`ofJson?_exchanged`), in which every look-up finds in the other container
what it found before.
-/

namespace XsdSynthesis

open Conversion

/-! ## Names and pointers -/

/-- The other container. -/
def Container.other : Container → Container
  | .defs => .definitions
  | .definitions => .defs

@[simp] theorem Container.other_other (c : Container) : c.other.other = c := by
  cases c <;> rfl

/-- A name, with those of the two containers exchanged. -/
def exchangedName (name : String) : String :=
  match Container.ofName? name with
  | some c => c.other.name
  | none => name

@[simp] theorem exchangedName_name (c : Container) : exchangedName c.name = c.other.name := by
  rw [exchangedName, Container.ofName?_name]

theorem Container.eq_name_of_ofName? {text : String} {c : Container} (h : ofName? text = some c) :
    text = c.name := by
  have := List.find?_some h
  exact (beq_iff_eq.1 this).symm

theorem exchangedName_of_ne {name : String} (h : ∀ c : Container, name ≠ c.name) :
    exchangedName name = name := by
  unfold exchangedName
  split
  · rename_i c hc
    exact absurd (Container.eq_name_of_ofName? hc) (h c)
  · rfl

@[simp] theorem exchangedName_exchangedName (name : String) :
    exchangedName (exchangedName name) = name := by
  by_cases h : ∃ c : Container, name = c.name
  · obtain ⟨c, rfl⟩ := h
    rw [exchangedName_name, exchangedName_name, Container.other_other]
  · have hname : exchangedName name = name := exchangedName_of_ne (not_exists.1 h)
    rw [hname, hname]

theorem exchangedName_injective : Function.Injective exchangedName :=
  Function.LeftInverse.injective exchangedName_exchangedName

namespace Pointer

/-- A pointer whose first segment is exchanged. -/
def exchanged : Pointer → Pointer
  | ⟨first :: rest⟩ => ⟨exchangedName first :: rest⟩
  | p => p

@[simp] theorem exchanged_root : root.exchanged = root := rfl

@[simp] theorem exchanged_exchanged (p : Pointer) : p.exchanged.exchanged = p := by
  obtain ⟨segments⟩ := p
  cases segments with
  | nil => rfl
  | cons first rest => simp [exchanged]

@[simp] theorem exchanged_definitionPlace (c : Container) (name : String) :
    (definitionPlace c name).exchanged = definitionPlace c.other name := by
  change (⟨[exchangedName c.name, name]⟩ : Pointer) = ⟨[c.other.name, name]⟩
  rw [exchangedName_name]

@[simp] theorem exchanged_propertyPlace (p : Pointer) (name : String) :
    (propertyPlace p name).exchanged = propertyPlace p.exchanged name := by
  obtain ⟨segments⟩ := p
  cases segments with
  | nil =>
    have hname : exchangedName "properties" = "properties" := by decide
    change (⟨[exchangedName "properties", name]⟩ : Pointer) = ⟨["properties", name]⟩
    rw [hname]
  | cons first rest => rfl

/-! ## Texts of references -/

/-- A written path with its first segment exchanged. All that follows stays as it is. -/
def exchangedPath : List Char → List Char
  | '/' :: rest =>
    '/' :: (exchangedName (String.ofList (rest.takeWhile (· != '/')))).toList ++
      rest.dropWhile (· != '/')
  | path => path

/-- The text of a reference with its first segment exchanged. -/
def exchangedText (text : String) : String :=
  match text.toList with
  | '#' :: path => String.ofList ('#' :: exchangedPath path)
  | _ => text

/-- A written segment that denotes one without `~` and `/` has no escapes. -/
theorem unescape_eq_self {w : List Char} (htilde : '~' ∉ unescape w) (hslash : '/' ∉ unescape w) :
    unescape w = w := by
  fun_induction unescape w with
  | case1 rest ih => exact absurd List.mem_cons_self htilde
  | case2 rest ih => exact absurd List.mem_cons_self hslash
  | case3 c rest _ _ ih =>
    rw [ih (fun h => htilde (List.mem_cons_of_mem _ h)) fun h => hslash (List.mem_cons_of_mem _ h)]
  | case4 => rfl

theorem notMem_name (c : Container) : '~' ∉ c.name.toList ∧ '/' ∉ c.name.toList := by
  cases c <;> decide

/-- The name of a container is written in one way only. -/
theorem unescape_eq_name {w : List Char} {c : Container} :
    String.ofList (unescape w) = c.name ↔ String.ofList w = c.name := by
  obtain ⟨htilde, hslash⟩ := notMem_name c
  constructor
  · intro h
    have hw : unescape w = c.name.toList := by rw [← h, String.toList_ofList]
    have hsame : unescape w = w := unescape_eq_self (hw ▸ htilde) (hw ▸ hslash)
    rwa [hsame] at h
  · intro h
    have hw : w = c.name.toList := by rw [← h, String.toList_ofList]
    rw [hw]
    cases c <;> decide

theorem unescape_exchangedName (w : List Char) :
    String.ofList (unescape (exchangedName (String.ofList w)).toList) =
      exchangedName (String.ofList (unescape w)) := by
  by_cases h : ∃ c : Container, String.ofList w = c.name
  · obtain ⟨c, hc⟩ := h
    rw [hc, unescape_eq_name.2 hc, exchangedName_name]
    exact unescape_eq_name.2 String.ofList_toList
  · have hw : exchangedName (String.ofList w) = String.ofList w :=
      exchangedName_of_ne (not_exists.1 h)
    rw [hw, String.toList_ofList, exchangedName_of_ne]
    exact fun c hc => h ⟨c, unescape_eq_name.1 hc⟩

theorem slash_notMem_exchangedName {w : List Char} (h : '/' ∉ w) :
    '/' ∉ (exchangedName (String.ofList w)).toList := by
  by_cases hc : ∃ c : Container, String.ofList w = c.name
  · obtain ⟨c, hc⟩ := hc
    rw [hc, exchangedName_name]
    exact (notMem_name c.other).2
  · rw [exchangedName_of_ne (not_exists.1 hc), String.toList_ofList]
    exact h

/-- What is split off first is what stands before the first slash. -/
theorem splitOn_first (rest : List Char) : ∃ tail, ∀ w, '/' ∉ w →
    (w ++ rest.dropWhile (· != '/')).splitOn '/' = w :: tail := by
  cases hz : rest.dropWhile (· != '/') with
  | nil => exact ⟨[], fun w hw => by rw [List.append_nil, List.splitOn_eq_singleton hw]⟩
  | cons c more =>
    have hc : c = '/' := by
      have := List.head?_dropWhile_not (· != '/') rest
      rw [hz] at this
      simpa using this
    subst hc
    exact ⟨more.splitOn '/', fun w hw => List.splitOn_append_cons_self_of_not_mem hw _⟩

theorem slash_notMem_takeWhile (cs : List Char) : '/' ∉ cs.takeWhile (· != '/') := by
  intro h
  have := List.all_eq_true.1 List.all_takeWhile _ h
  simp at this

theorem ofPath?_exchangedPath (path : List Char) :
    ofPath? (exchangedPath path) = (ofPath? path).map exchanged := by
  unfold exchangedPath
  split
  · rename_i rest
    obtain ⟨tail, htail⟩ := splitOn_first rest
    have hfirst := slash_notMem_takeWhile rest
    have hsplit := htail _ hfirst
    rw [List.takeWhile_append_dropWhile] at hsplit
    rw [List.cons_append, ofPath?, ofPath?, hsplit, htail _ (slash_notMem_exchangedName hfirst),
      List.map_cons, List.map_cons, unescape_exchangedName]
    rfl
  · rename_i hpath
    unfold ofPath?
    split
    · rfl
    · rename_i rest
      exact absurd rfl (hpath rest)
    · rfl

/-- **Exchanging the first segment of a text exchanges that of its pointer.** -/
theorem ofText?_exchangedText {text : String} (h : text.toList.head? = some '#') :
    (exchangedText text).toList.head? = some '#' ∧
      ofText? (exchangedText text) = (ofText? text).map exchanged := by
  obtain ⟨path, htext⟩ : ∃ path, text.toList = '#' :: path := by
    obtain ⟨path, hp⟩ := List.head?_eq_some_iff.1 h
    exact ⟨path, hp⟩
  have hnew : (exchangedText text).toList = '#' :: exchangedPath path := by
    simp only [exchangedText, htext, String.toList_ofList]
  refine ⟨by rw [hnew]; rfl, ?_⟩
  simp only [ofText?, hnew, htext, ofPath?_exchangedPath]

end Pointer

/-! ## Mapping references -/

namespace Json

variable {f : String → String} {name : String} {j : Json}

mutual

/-- A value that stands where the grammar has a schema, with its references mapped at every depth. -/
def mapReferences (f : String → String) : Json → Json
  | .obj members => .obj (mapMembers f members)
  | j => j

/-- The members of a schema object with their references mapped. -/
def mapMembers (f : String → String) : List (String × Json) → List (String × Json)
  | [] => []
  | (name, j) :: rest => (name, mapValue f name j) :: mapMembers f rest

/-- The value of a keyword with its references mapped. -/
def mapValue (f : String → String) (name : String) : Json → Json
  | .obj members => .obj (if name ∈ Spelling.ofEntries then mapEntries f members else members)
  | .arr items => .arr (if name ∈ Spelling.ofBranches then mapItems f items else items)
  | .str s => .str (if name = "$ref" then f s else s)
  | j => j

/-- The subschemas of an object with their references mapped. -/
def mapEntries (f : String → String) : List (String × Json) → List (String × Json)
  | [] => []
  | (name, j) :: rest => (name, mapReferences f j) :: mapEntries f rest

/-- The subschemas of an array with their references mapped. -/
def mapItems (f : String → String) : List Json → List Json
  | [] => []
  | j :: rest => mapReferences f j :: mapItems f rest

end

theorem mapMembers_eq (members : List (String × Json)) :
    mapMembers f members = members.map fun m => (m.1, mapValue f m.1 m.2) := by
  induction members with
  | nil => rfl
  | cons m rest ih => rw [mapMembers, ih, List.map_cons]

theorem mapEntries_eq (members : List (String × Json)) :
    mapEntries f members = members.map fun m => (m.1, m.2.mapReferences f) := by
  induction members with
  | nil => rfl
  | cons m rest ih => rw [mapEntries, ih, List.map_cons]

theorem mapItems_eq (items : List Json) : mapItems f items = items.map (mapReferences f) := by
  induction items with
  | nil => rfl
  | cons j rest ih => rw [mapItems, ih, List.map_cons]

/-- Objects with their names kept and their values mapped to such without repeated names. -/
theorem distinct_mapValues {members : List (String × Json)} {g : String × Json → Json}
    (hj : Distinct (.obj members)) (hg : ∀ m ∈ members, (g m).Distinct) :
    Distinct (.obj (members.map fun m => (m.1, g m))) := by
  refine .obj ?_ fun m hm => ?_
  · rw [List.map_map]
    exact hj.names
  · obtain ⟨m', hm', rfl⟩ := List.mem_map.1 hm
    exact hg m' hm'

theorem distinct_mapReferences (f : String → String) (j : Json) :
    j.Distinct → (j.mapReferences f).Distinct := by
  induction j using Json.induction_on_parts with
  | h j ih =>
    intro hj
    cases j with
    | obj members =>
      rw [mapReferences, mapMembers_eq]
      refine distinct_mapValues hj fun m hm => ?_
      have hvalue := hj.member hm
      have hparts : ∀ u, m.2.Holds u → u.Distinct → (u.mapReferences f).Distinct := fun u hu =>
        ih m.2 u (.member hm) hu
      generalize m.2 = v at hvalue hparts
      cases v with
      | obj entries =>
        rw [mapValue]
        split
        · rw [mapEntries_eq]
          exact distinct_mapValues hvalue fun e he => hparts e.2 (.member he) (hvalue.member he)
        · exact hvalue
      | arr items =>
        rw [mapValue]
        split
        · rw [mapItems_eq]
          refine .arr fun u hu => ?_
          obtain ⟨u', hu', rfl⟩ := List.mem_map.1 hu
          exact hparts u' (.item hu') (hvalue.item hu')
        · exact hvalue
      | str s => exact .str
      | _ => exact hvalue
    | _ => exact hj

end Json

mutual

/-- A schema with its references mapped, at every depth. -/
def Schema.mapReferences (f : String → String) : Schema → Schema
  | .mk keywords => .mk (Keyword.mapEach f keywords)

def Keyword.mapEach (f : String → String) : List Keyword → List Keyword
  | [] => []
  | k :: rest => k.mapReferences f :: Keyword.mapEach f rest

def Keyword.mapReferences (f : String → String) : Keyword → Keyword
  | .ref reference => .ref (f reference)
  | .definitions c entries => .definitions c (Schema.mapEntries f entries)
  | .properties entries => .properties (Schema.mapEntries f entries)
  | .combinator c branches => .combinator c (Schema.mapBranches f branches)
  | k => k

def Schema.mapEntries (f : String → String) : List (String × Schema) → List (String × Schema)
  | [] => []
  | (name, t) :: rest => (name, t.mapReferences f) :: Schema.mapEntries f rest

def Schema.mapBranches (f : String → String) : List Schema → List Schema
  | [] => []
  | t :: rest => t.mapReferences f :: Schema.mapBranches f rest

end

namespace Schema

variable {f : String → String} {s t : Schema} {c : Container}

theorem mapEach_eq (keywords : List Keyword) :
    Keyword.mapEach f keywords = keywords.map (Keyword.mapReferences f) := by
  induction keywords with
  | nil => rfl
  | cons k rest ih => rw [Keyword.mapEach, ih, List.map_cons]

theorem mapEntries_eq (entries : List (String × Schema)) :
    mapEntries f entries = entries.map fun e => (e.1, e.2.mapReferences f) := by
  induction entries with
  | nil => rfl
  | cons e rest ih => rw [mapEntries, ih, List.map_cons]

theorem mapBranches_eq (branches : List Schema) :
    mapBranches f branches = branches.map (mapReferences f) := by
  induction branches with
  | nil => rfl
  | cons t rest ih => rw [mapBranches, ih, List.map_cons]

theorem mapReferences_eq (t : Schema) :
    t.mapReferences f = .mk (t.keywords.map (Keyword.mapReferences f)) := by
  obtain ⟨keywords⟩ := t
  rw [mapReferences, mapEach_eq, keywords_mk]

@[simp] theorem kind_mapReferences (k : Keyword) : (k.mapReferences f).kind = k.kind := by
  cases k <;> rfl

theorem get?_mapReferences (kind : Kind) :
    (t.mapReferences f).get? kind = (t.get? kind).map (Keyword.mapReferences f) := by
  rw [mapReferences_eq]
  exact get?_map Function.injective_id kind_mapReferences t kind

section Reading

variable {name : String} {j : Json} {k : Keyword}

theorem reads_mapEntries {members : List (String × Json)} {entries : List (String × Schema)}
    (h : List.Forall₂ EntryReads members entries)
    (ih : ∀ m ∈ members, ∀ t, ofJson? m.2 = .ok t →
      ofJson? (m.2.mapReferences f) = .ok (t.mapReferences f)) :
    List.Forall₂ EntryReads (Json.mapEntries f members) (mapEntries f entries) := by
  rw [Json.mapEntries_eq, mapEntries_eq, List.forall₂_map_left_iff, List.forall₂_map_right_iff]
  exact Tables.forall₂_imp h fun m hm e he => ⟨he.1, ih m hm _ he.2⟩

theorem denotes_mapReferences (h : Keyword.Denotes name j k)
    (ih : ∀ u, j.Holds u → ∀ t, ofJson? u = .ok t →
      ofJson? (u.mapReferences f) = .ok (t.mapReferences f)) :
    Keyword.Denotes name (Json.mapValue f name j) (k.mapReferences f) := by
  cases h with
  | @definitions c members entries hall =>
    rw [Json.mapValue, if_pos c.name_mem_ofEntries]
    exact .definitions (reads_mapEntries hall fun m hm => ih m.2 (.member hm))
  | properties hall =>
    rw [Json.mapValue, if_pos (by decide)]
    exact .properties (reads_mapEntries hall fun m hm => ih m.2 (.member hm))
  | @combinator c items branches hall =>
    rw [Json.mapValue, if_pos c.name_mem_ofBranches, Json.mapItems_eq]
    refine .combinator ?_
    rw [mapBranches_eq, List.forall₂_map_left_iff, List.forall₂_map_right_iff]
    exact Tables.forall₂_imp hall fun u hu t ht => ih u (.item hu) t ht
  | leaf hleaf =>
    obtain ⟨hentries, hbranches⟩ := hleaf.name_notMem
    cases hleaf with
    | ref => exact .leaf .ref
    | unknown hname =>
      have href : name ≠ "$ref" := by
        rintro rfl
        exact hname (by decide)
      have hsame : Json.mapValue f name j = j := by
        cases j with
        | obj members => rw [Json.mapValue, if_neg hentries]
        | arr items => rw [Json.mapValue, if_neg hbranches]
        | str text => rw [Json.mapValue, if_neg href]
        | _ => rfl
      rw [hsame]
      exact .leaf (.unknown hname)
    | typeNames hne => exact .leaf (.typeNames hne)
    | _ => exact .leaf (by constructor)

/-- A value with mapped references is read as the schema with mapped references. -/
theorem ofJson?_mapReferences (f : String → String) (j : Json) :
    ∀ t, ofJson? j = .ok t → ofJson? (j.mapReferences f) = .ok (t.mapReferences f) := by
  induction j using Json.induction_on_parts with
  | h j ih =>
    intro t ht
    rcases ofJson?_ok.1 ht with ⟨members, rfl, hall⟩ | ⟨rfl, rfl⟩
    · rw [Json.mapReferences, Json.mapMembers_eq, ofJson?_obj, mapReferences_eq, keywords_mk,
        List.forall₂_map_left_iff, List.forall₂_map_right_iff]
      exact Tables.forall₂_imp hall fun m hm k hk =>
        denotes_mapReferences hk fun u hu => ih m.2 u (.member hm) hu
    · rfl

end Reading
end Schema

/-! ## Exchanging the containers -/

/-- An object whose members named after the containers are exchanged in place. -/
def Json.exchangedKeys : Json → Json
  | .obj members => .obj (members.map fun m => (exchangedName m.1, m.2))
  | j => j

theorem Json.distinct_exchangedKeys {j : Json} (hj : j.Distinct) : j.exchangedKeys.Distinct := by
  cases hj with
  | @obj members hnames hall =>
    refine .obj ?_ fun m hm => ?_
    · rw [List.map_map]
      have hmap := hnames.map exchangedName_injective
      rwa [List.map_map] at hmap
    · obtain ⟨m', hm', rfl⟩ := List.mem_map.1 hm
      exact hall m' hm'
  | null => exact .null
  | bool => exact .bool
  | num => exact .num
  | str => exact .str
  | arr hall => exact .arr hall

def Kind.exchanged : Kind → Kind
  | .definitions c => .definitions c.other
  | kind => kind

theorem Kind.exchanged_of_ne {kind : Kind} (h : ∀ c, kind ≠ .definitions c) :
    kind.exchanged = kind := by
  cases kind with
  | definitions c => exact absurd rfl (h c)
  | _ => rfl

theorem Kind.exchanged_exchanged (kind : Kind) : kind.exchanged.exchanged = kind := by
  cases kind with
  | definitions c => exact congrArg Kind.definitions c.other_other
  | _ => rfl

theorem Kind.exchanged_injective : Function.Injective Kind.exchanged :=
  Function.LeftInverse.injective Kind.exchanged_exchanged

def Keyword.exchangedContainer : Keyword → Keyword
  | .definitions c entries => .definitions c.other entries
  | k => k

@[simp] theorem Keyword.kind_exchangedContainer (k : Keyword) :
    k.exchangedContainer.kind = k.kind.exchanged := by
  cases k <;> rfl

theorem Keyword.exchangedContainer_of_ne {k : Keyword} (h : ∀ c, k.kind ≠ .definitions c) :
    k.exchangedContainer = k := by
  cases k with
  | definitions c entries => exact absurd rfl (h c)
  | _ => rfl

namespace Schema

variable {s t : Schema} {c : Container} {name r : String} {j : Json} {k : Keyword}

/-- A schema with the containers of its definitions exchanged. -/
def exchangedContainers (s : Schema) : Schema := .mk (s.keywords.map Keyword.exchangedContainer)

theorem denotes_exchanged (h : Keyword.Denotes name j k) :
    Keyword.Denotes (exchangedName name) j k.exchangedContainer := by
  cases h with
  | definitions hall =>
    rw [exchangedName_name]
    exact .definitions hall
  | properties hall =>
    rw [exchangedName_of_ne fun c => (name_ne_properties c).symm]
    exact .properties hall
  | @combinator combinator items branches hall =>
    have hname : ∀ c : Container, combinator.name ≠ c.name := by
      intro c
      cases combinator <;> cases c <;> decide
    rw [exchangedName_of_ne hname]
    exact .combinator hall
  | leaf hleaf =>
    have hname : ∀ c : Container, name ≠ c.name := by
      rintro c rfl
      exact hleaf.name_notMem.1 c.name_mem_ofEntries
    rw [exchangedName_of_ne hname, Keyword.exchangedContainer_of_ne hleaf.kind_ne_definitions]
    exact .leaf hleaf

theorem ofJson?_exchangedKeys (h : ofJson? j = .ok s) :
    ofJson? j.exchangedKeys = .ok s.exchangedContainers := by
  rcases ofJson?_ok.1 h with ⟨members, rfl, hall⟩ | ⟨rfl, rfl⟩
  · rw [Json.exchangedKeys, ofJson?_obj, exchangedContainers, keywords_mk,
      List.forall₂_map_left_iff, List.forall₂_map_right_iff]
    exact hall.imp fun _ _ => denotes_exchanged
  · rfl

/-- A reference with its first segment exchanged, if it points to a definition. -/
def exchangedReference (s : Schema) (r : String) : String :=
  if (s.target? r).isSome then Pointer.exchangedText r else r

/-- The schema with containers exchanged, also in the references that point to definitions. -/
def exchanged (s : Schema) : Schema := (s.mapReferences s.exchangedReference).exchangedContainers

end Schema

/-- A document with schema `s`, in which the containers are exchanged: the names of the root's members
in place, and the first segments of the references that point to definitions. -/
def Json.exchanged (s : Schema) (j : Json) : Json :=
  (j.mapReferences s.exchangedReference).exchangedKeys

/-- **What is exchanged in the value is exchanged in the schema.** -/
theorem Schema.ofJson?_exchanged {s : Schema} {j : Json} (h : ofJson? j = .ok s) :
    ofJson? (j.exchanged s) = .ok s.exchanged :=
  ofJson?_exchangedKeys (ofJson?_mapReferences _ j s h)

/-! ## Tables -/

namespace Classification

/-- A classification with the first segments of the pointers in its table exchanged. -/
def exchanged (c : Classification) : Classification :=
  { c with table := .ofList (c.table.toList.map fun e => (e.1.exchanged, e.2)) compare }

theorem getElem?_exchanged (c : Classification) (p : Pointer) :
    c.exchanged.table[p]? = c.table[p.exchanged]? := by
  cases hv : c.table[p.exchanged]? with
  | some set =>
    refine Std.ExtTreeMap.getElem?_ofList_of_mem (k := p) Std.ReflCmp.compare_self ?_ ?_
    · rw [List.pairwise_map]
      refine Std.ExtTreeMap.distinct_keys_toList.imp fun {a b} hne heq => hne ?_
      have hsame := congrArg Pointer.exchanged (Std.LawfulEqCmp.eq_of_compare heq)
      rw [Pointer.exchanged_exchanged, Pointer.exchanged_exchanged] at hsame
      rw [hsame]
      exact Std.ReflCmp.compare_self
    · refine List.mem_map.2 ⟨(p.exchanged, set), ?_, ?_⟩
      · exact Std.ExtTreeMap.mem_toList_iff_getElem?_eq_some.2 hv
      · rw [Pointer.exchanged_exchanged]
  | none =>
    refine Std.ExtTreeMap.getElem?_ofList_of_contains_eq_false ?_
    rw [Bool.eq_false_iff]
    intro hmem
    rw [List.contains_iff_mem, List.map_map] at hmem
    obtain ⟨e, he, hp⟩ := List.mem_map.1 hmem
    have hsome := Std.ExtTreeMap.mem_toList_iff_getElem?_eq_some.1 he
    rw [← hp, Function.comp, Pointer.exchanged_exchanged, hsome] at hv
    cases hv

/-- A place has the shapes that the exchanged one had. -/
theorem shapes_exchanged (c : Classification) (p : Pointer) :
    c.exchanged.shapes p = c.shapes p.exchanged := by
  rw [shapes, shapes, getElem?_exchanged]

end Classification

/-- A classifier that answers for a place what another one answers for the exchanged place. -/
def Classifier.exchanged (k : Classifier) : Classifier :=
  { k with shapes := fun p => k.shapes p.exchanged }

theorem Classification.classifier_exchanged (c : Classification) :
    c.exchanged.classifier = c.classifier.exchanged := by
  rw [classifier, classifier, Classifier.exchanged]
  congr 1
  exact funext c.shapes_exchanged

theorem Json.distinct_exchanged {j : Json} (hj : j.Distinct) (s : Schema) :
    (j.exchanged s).Distinct :=
  distinct_exchangedKeys (distinct_mapReferences _ j hj)

end XsdSynthesis
