import XsdSynthesis.Proofs.QualifiedNames
import XsdSynthesis.Xml.Element

/-!
# XsdSynthesis.Proofs.XmlReader

Reading XML text back. A machine takes one character after the other; it knows start tags, end tags,
empty-element tags and the declaration, and nothing but blanks may stand between them.
`parse?` leaves attribute values as they stand in the text, `Element.mapValues?` decodes them. The
text of an element whose names are plain is read as that element, its values escaped
(`parse?_documentText`), and undoing the escapes gives the element (`decode_escaped`).
-/

namespace XsdSynthesis
namespace Xml

/-- The blanks of XML. -/
def isSpace (c : Char) : Bool := c == ' ' || c == '\t' || c == '\n' || c == '\r'

/-- A character that ends a name within a tag. -/
def endsName (c : Char) : Bool := isSpace c || c == '/' || c == '>'

/-- An element whose end tag is still to come. -/
structure Open where
  tag : String
  attributes : List (String × String)
  content : List Element

/-- Where the reader stands. -/
inductive Mode where
  /-- Between tags. -/
  | outside
  /-- Behind a left angle. -/
  | opened
  /-- In a declaration. The flag tells whether a question mark came last. -/
  | declaration (question : Bool)
  | endTag (name : List Char) (ended : Bool)
  | startTag (name : List Char)
  /-- In a start tag, behind a blank. -/
  | between (tag : String) (attributes : List (String × String))
  | attribute (tag : String) (attributes : List (String × String)) (name : List Char)
      (ended : Bool)
  | equals (tag : String) (attributes : List (String × String)) (name : String)
  | value (tag : String) (attributes : List (String × String)) (name : String) (quote : Char)
      (value : List Char)
  /-- In a start tag, behind a value. -/
  | valued (tag : String) (attributes : List (String × String))
  /-- In a start tag, behind a slash. -/
  | slash (tag : String) (attributes : List (String × String))

structure State where
  mode : Mode
  stack : List Open
  root : Option Element

namespace State

def start : State := ⟨.outside, [], none⟩

/-- The state after an element ended: it is content of the one around it, or the root. -/
def emit (stack : List Open) (root : Option Element) (e : Element) : Option State :=
  match stack, root with
  | o :: rest, root => some ⟨.outside, { o with content := o.content ++ [e] } :: rest, root⟩
  | [], none => some ⟨.outside, [], some e⟩
  | [], some _ => none

/-- The state after a character that ends a name or follows a value in a start tag. -/
def leave (s : State) (tag : String) (attributes : List (String × String)) (c : Char) :
    Option State :=
  if isSpace c then some { s with mode := .between tag attributes }
  else if c = '/' then some { s with mode := .slash tag attributes }
  else if c = '>' then some ⟨.outside, ⟨tag, attributes, []⟩ :: s.stack, s.root⟩
  else none

/-- The state after an end tag. -/
def close (s : State) (name : String) : Option State :=
  match s.stack with
  | o :: rest =>
    if o.tag = name then emit rest s.root (.mk o.tag o.attributes (some o.content)) else none
  | [] => none

/-- The state after the character behind a left angle. A declaration stands before all tags. -/
def enter (s : State) (c : Char) : Option State :=
  if c = '/' then some { s with mode := .endTag [] false }
  else if c = '?' then
    if s.stack.isEmpty && s.root.isNone then some { s with mode := .declaration false } else none
  else if endsName c || c == '!' then none
  else some { s with mode := .startTag [c] }

/-- The state after one more character. -/
def step (s : State) (c : Char) : Option State :=
  match s.mode with
  | .outside =>
    if c = '<' then some { s with mode := .opened } else if isSpace c then some s else none
  | .opened => s.enter c
  | .declaration question =>
    if question && c == '>' then some { s with mode := .outside }
    else some { s with mode := .declaration (c == '?') }
  | .endTag name ended =>
    if c = '>' then s.close (String.ofList name)
    else if isSpace c then some { s with mode := .endTag name true }
    else if ended then none
    else some { s with mode := .endTag (name ++ [c]) false }
  | .startTag name =>
    if endsName c then s.leave (String.ofList name) [] c
    else some { s with mode := .startTag (name ++ [c]) }
  | .between tag attributes =>
    if endsName c then s.leave tag attributes c
    else some { s with mode := .attribute tag attributes [c] false }
  | .attribute tag attributes name ended =>
    if c = '=' then some { s with mode := .equals tag attributes (String.ofList name) }
    else if isSpace c then some { s with mode := .attribute tag attributes name true }
    else if ended then none
    else some { s with mode := .attribute tag attributes (name ++ [c]) false }
  | .equals tag attributes name =>
    if isSpace c then some s
    else if c = '"' ∨ c = '\'' then some { s with mode := .value tag attributes name c [] }
    else none
  | .value tag attributes name quote value =>
    if c = quote then
      some { s with mode := .valued tag (attributes ++ [(name, String.ofList value)]) }
    else if c = '<' then none
    else some { s with mode := .value tag attributes name quote (value ++ [c]) }
  | .valued tag attributes => s.leave tag attributes c
  | .slash tag attributes => if c = '>' then emit s.stack s.root (.mk tag attributes none) else none

/-- The state after characters. -/
def read (s : State) (cs : List Char) : Option State := cs.foldlM step s

end State

/-- The root element of a text, with attribute values as they stand there. -/
def parse? (text : String) : Option Element :=
  match State.start.read text.toList with
  | some ⟨.outside, [], root⟩ => root
  | _ => none

/-! ## Attribute values -/

/-- Undoes the five predefined entities. Any other ampersand is an error. -/
def unescapeList : List Char → Option (List Char)
  | [] => some []
  | '&' :: 'a' :: 'm' :: 'p' :: ';' :: rest => (unescapeList rest).map ('&' :: ·)
  | '&' :: 'l' :: 't' :: ';' :: rest => (unescapeList rest).map ('<' :: ·)
  | '&' :: 'g' :: 't' :: ';' :: rest => (unescapeList rest).map ('>' :: ·)
  | '&' :: 'q' :: 'u' :: 'o' :: 't' :: ';' :: rest => (unescapeList rest).map ('"' :: ·)
  | '&' :: 'a' :: 'p' :: 'o' :: 's' :: ';' :: rest => (unescapeList rest).map ('\'' :: ·)
  | '&' :: _ => none
  | c :: rest => (unescapeList rest).map (c :: ·)

def unescape? (s : String) : Option String := (unescapeList s.toList).map String.ofList

namespace Element

mutual

/-- The element with its attribute values decoded, at any depth. -/
def mapValues? (f : String → Option String) : Element → Option Element
  | mk tag attributes none => do
    return mk tag (← attributes.mapM fun a => do return (a.1, ← f a.2)) none
  | mk tag attributes (some content) => do
    let attributes ← attributes.mapM fun a => do return (a.1, ← f a.2)
    return mk tag attributes (some (← mapValuesOf? f content))

def mapValuesOf? (f : String → Option String) : List Element → Option (List Element)
  | [] => some []
  | e :: rest => do return (← mapValues? f e) :: (← mapValuesOf? f rest)

end

mutual

/-- The element with its attribute values escaped, at any depth. -/
def escaped : Element → Element
  | mk tag attributes none => mk tag (attributes.map fun a => (a.1, escape a.2)) none
  | mk tag attributes (some content) =>
    mk tag (attributes.map fun a => (a.1, escape a.2)) (some (escapedOf content))

def escapedOf : List Element → List Element
  | [] => []
  | e :: rest => escaped e :: escapedOf rest

end

end Element

theorem unescapeList_escapeChar (c : Char) (rest : List Char) :
    unescapeList (escapeChar c ++ rest) = (unescapeList rest).map (c :: ·) := by
  unfold escapeChar
  split
  · rfl
  · rfl
  · rfl
  · rfl
  · rfl
  · rename_i hamp _ _ _ _
    rw [List.singleton_append, unescapeList]
    all_goals
      intros
      contradiction

theorem unescapeList_flatMap (cs : List Char) :
    unescapeList (cs.flatMap escapeChar) = some cs := by
  induction cs with
  | nil => rfl
  | cons c rest ih => rw [List.flatMap_cons, unescapeList_escapeChar, ih, Option.map_some]

theorem unescape?_escape (s : String) : unescape? (escape s) = some s := by
  rw [unescape?, escape, String.toList_ofList, unescapeList_flatMap, Option.map_some,
    String.ofList_toList]

theorem mapM_escaped {f : String → Option String} {attributes : List (String × String)}
    (h : ∀ v ∈ attributes.map Prod.snd, f (escape v) = some v) :
    ((attributes.map fun a => (a.1, escape a.2)).mapM fun a => do return (a.1, ← f a.2)) =
      some attributes := by
  induction attributes with
  | nil => rfl
  | cons a rest ih =>
    obtain ⟨hfirst, hrest⟩ := List.forall_mem_cons.1 h
    rw [List.map_cons, List.mapM_cons, ih hrest]
    simp [hfirst]

namespace Element

mutual

/-- **Decoding undoes escaping**, where it does so for each value. -/
theorem mapValues?_escaped {f : String → Option String} : ∀ e : Element,
    (∀ x ∈ e.starts, ∀ v ∈ x.2.map Prod.snd, f (escape v) = some v) →
      mapValues? f e.escaped = some e
  | mk tag attributes none, h => by
    rw [escaped, mapValues?, mapM_escaped (h _ List.mem_cons_self)]
    rfl
  | mk tag attributes (some content), h => by
    obtain ⟨hfirst, hrest⟩ := List.forall_mem_cons.1 h
    rw [escaped, mapValues?, mapM_escaped hfirst, mapValuesOf?_escapedOf content hrest]
    rfl

theorem mapValuesOf?_escapedOf {f : String → Option String} : ∀ es : List Element,
    (∀ x ∈ startsOf es, ∀ v ∈ x.2.map Prod.snd, f (escape v) = some v) →
      mapValuesOf? f (escapedOf es) = some es
  | [], _ => rfl
  | e :: rest, h => by
    obtain ⟨hfirst, hrest⟩ := List.forall_mem_append.1 h
    rw [escapedOf, mapValuesOf?, mapValues?_escaped e hfirst, mapValuesOf?_escapedOf rest hrest]
    rfl

end

end Element

/-! ## Runs of the reader -/

namespace State

/-- The reader goes from one state to another over characters. -/
def Reads (s : State) (cs : List Char) (s' : State) : Prop := s.read cs = some s'

theorem Reads.nil (s : State) : Reads s [] s := rfl

theorem Reads.cons {s m s' : State} {c : Char} {cs : List Char} (h : s.step c = some m)
    (h' : Reads m cs s') : Reads s (c :: cs) s' := by
  unfold Reads read at *
  rw [List.foldlM_cons, h]
  exact h'

theorem Reads.single {s s' : State} {c : Char} (h : s.step c = some s') : Reads s [c] s' :=
  .cons h (.nil s')

theorem Reads.trans {s m s' : State} {as bs : List Char} (h : Reads s as m)
    (h' : Reads m bs s') : Reads s (as ++ bs) s' := by
  unfold Reads read at *
  rw [List.foldlM_append, h]
  exact h'

variable {stack : List Open} {root : Option Element} {tag : String}
  {attributes : List (String × String)}

theorem reads_spaces (n : Nat) :
    Reads ⟨.outside, stack, root⟩ (List.replicate n ' ') ⟨.outside, stack, root⟩ := by
  induction n with
  | zero => exact .nil _
  | succ n ih => exact .cons rfl ih

theorem reads_declaration : Reads start declaration.toList start := by rfl

end State

/-! ## Names -/

/-- A character that may stand anywhere in a name. -/
def isPlain (c : Char) : Bool := !(endsName c || c == '=' || c == '?' || c == '!')

/-- A name that is read as it is written. -/
structure PlainName (s : String) : Prop where
  nonempty : s ≠ ""
  plain : ∀ c ∈ s.toList, isPlain c = true

/-- What is known of a plain character. -/
structure PlainChar (c : Char) : Prop where
  notEnd : endsName c = false
  notSpace : isSpace c = false
  notSlash : c ≠ '/'
  notAngle : c ≠ '>'
  notEquals : c ≠ '='
  notQuestion : c ≠ '?'
  notBang : c ≠ '!'

theorem plainChar_of {c : Char} (h : isPlain c = true) : PlainChar c := by
  simp only [isPlain, endsName, Bool.not_eq_true', Bool.or_eq_false_iff, beq_eq_false_iff_ne] at h
  obtain ⟨⟨⟨⟨⟨hspace, hslash⟩, hangle⟩, hequals⟩, hquestion⟩, hbang⟩ := h
  refine ⟨?_, hspace, hslash, hangle, hequals, hquestion, hbang⟩
  simp [endsName, hspace, hslash, hangle]

namespace State

variable {stack : List Open} {root : Option Element} {tag : String}
  {attributes : List (String × String)} {cs : List Char}

/-- Characters that a mode collects, one by one. -/
theorem reads_collected {m : List Char → Mode}
    (h : ∀ c ∈ cs, ∀ seen, step ⟨m seen, stack, root⟩ c = some ⟨m (seen ++ [c]), stack, root⟩)
    (seen : List Char) :
    Reads ⟨m seen, stack, root⟩ cs ⟨m (seen ++ cs), stack, root⟩ := by
  induction cs generalizing seen with
  | nil =>
    rw [List.append_nil]
    exact .nil _
  | cons c rest ih =>
    obtain ⟨hc, hrest⟩ := List.forall_mem_cons.1 h
    have hgo := ih hrest (seen ++ [c])
    rw [List.append_assoc, List.singleton_append] at hgo
    exact .cons (hc seen) hgo

theorem reads_startTag (h : ∀ c ∈ cs, isPlain c = true) (name : List Char) :
    Reads ⟨.startTag name, stack, root⟩ cs ⟨.startTag (name ++ cs), stack, root⟩ := by
  refine reads_collected (fun c hc seen => ?_) name
  simp [step, (plainChar_of (h c hc)).notEnd]

theorem reads_endTag (h : ∀ c ∈ cs, isPlain c = true) (name : List Char) :
    Reads ⟨.endTag name false, stack, root⟩ cs ⟨.endTag (name ++ cs) false, stack, root⟩ := by
  refine reads_collected (m := fun name => .endTag name false) (fun c hc seen => ?_) name
  have hplain := plainChar_of (h c hc)
  simp [step, hplain.notAngle, hplain.notSpace]

theorem reads_attributeName (h : ∀ c ∈ cs, isPlain c = true) (name : List Char) :
    Reads ⟨.attribute tag attributes name false, stack, root⟩ cs
      ⟨.attribute tag attributes (name ++ cs) false, stack, root⟩ := by
  refine reads_collected (m := fun name => .attribute tag attributes name false)
    (fun c hc seen => ?_) name
  have hplain := plainChar_of (h c hc)
  simp [step, hplain.notEquals, hplain.notSpace]

theorem reads_value (h : ∀ c ∈ cs, c ≠ '"' ∧ c ≠ '<') (name : String) (value : List Char) :
    Reads ⟨.value tag attributes name '"' value, stack, root⟩ cs
      ⟨.value tag attributes name '"' (value ++ cs), stack, root⟩ := by
  refine reads_collected (fun c hc seen => ?_) value
  simp [step, (h c hc).1, (h c hc).2]

theorem plain_of_escapeChar {c e : Char} (h : e ∈ escapeChar c) : e ≠ '"' ∧ e ≠ '<' := by
  have hplain : ∀ {cs : List Char}, (cs.all fun a => a != '"' && a != '<') = true → e ∈ cs →
      e ≠ '"' ∧ e ≠ '<' := fun hall hm => by simpa using List.all_eq_true.1 hall e hm
  unfold escapeChar at h
  split at h
  · exact hplain (by decide) h
  · exact hplain (by decide) h
  · exact hplain (by decide) h
  · exact hplain (by decide) h
  · exact hplain (by decide) h
  · rename_i _ hlt _ hquot _
    rw [List.mem_singleton.1 h]
    exact ⟨hquot, hlt⟩

theorem plain_of_escape {value : String} : ∀ c ∈ (escape value).toList, c ≠ '"' ∧ c ≠ '<' := by
  intro c hc
  rw [escape, String.toList_ofList] at hc
  obtain ⟨_, _, hc⟩ := List.mem_flatMap.1 hc
  exact plain_of_escapeChar hc

/-- Where the reader stands once it has read a tag and its attributes so far. -/
def ofTag (tag : String) (attributes : List (String × String)) (stack : List Open)
    (root : Option Element) : State :=
  match attributes with
  | [] => ⟨.startTag tag.toList, stack, root⟩
  | _ :: _ => ⟨.valued tag attributes, stack, root⟩

/-- From there, the reader leaves the name or the value. -/
theorem step_ofTag {c : Char} (hc : endsName c = true) (s' : State)
    (h : leave ⟨.valued tag attributes, stack, root⟩ tag attributes c = some s') :
    (ofTag tag attributes stack root).step c = some s' := by
  cases attributes with
  | nil => simpa [ofTag, step, hc, leave] using h
  | cons a rest => exact h

theorem exists_cons_of_plainName {s : String} (h : PlainName s) :
    ∃ c rest, s.toList = c :: rest ∧ isPlain c = true ∧ ∀ c ∈ rest, isPlain c = true := by
  have hne : s.toList ≠ [] := fun hnil => h.nonempty (String.toList_eq_nil_iff.1 hnil)
  obtain ⟨c, rest, hs⟩ := List.exists_cons_of_ne_nil hne
  have hall := h.plain
  rw [hs] at hall
  exact ⟨c, rest, hs, List.forall_mem_cons.1 hall⟩

theorem reads_tag (h : PlainName tag) :
    Reads ⟨.outside, stack, root⟩ ('<' :: tag.toList) (ofTag tag [] stack root) := by
  obtain ⟨c, rest, hs, hc, hrest⟩ := exists_cons_of_plainName h
  rw [ofTag, hs]
  refine .cons (m := ⟨.opened, stack, root⟩) rfl (.cons ?_ (reads_startTag hrest [c]))
  have hplain := plainChar_of hc
  simp [step, enter, hplain.notSlash, hplain.notQuestion, hplain.notEnd, hplain.notBang]

/-- One attribute is read, its value as it stands in the text. -/
theorem reads_attributeText {a : String × String} (h : PlainName a.1) :
    Reads (ofTag tag attributes stack root) (attributeText a).toList
      (ofTag tag (attributes ++ [(a.1, escape a.2)]) stack root) := by
  obtain ⟨name, value⟩ := a
  obtain ⟨c, rest, hs, hc, hrest⟩ := exists_cons_of_plainName h
  have hplain := plainChar_of hc
  -- the blank, the name, `=` with the opening quote, the value, the closing quote
  have hblank : Reads (ofTag tag attributes stack root) [' ']
      ⟨.between tag attributes, stack, root⟩ := .single (step_ofTag rfl _ rfl)
  have hname : Reads ⟨.between tag attributes, stack, root⟩ name.toList
      ⟨.attribute tag attributes name.toList false, stack, root⟩ := by
    rw [hs]
    refine .cons ?_ (reads_attributeName hrest [c])
    simp [step, hplain.notEnd]
  have hequals : Reads ⟨.attribute tag attributes name.toList false, stack, root⟩ ['=', '"']
      ⟨.value tag attributes name '"' [], stack, root⟩ := by
    refine .cons (m := ⟨.equals tag attributes name, stack, root⟩) ?_ (.single rfl)
    simp [step]
  have hvalue : Reads ⟨.value tag attributes name '"' [], stack, root⟩ (escape value).toList
      ⟨.value tag attributes name '"' (escape value).toList, stack, root⟩ :=
    reads_value plain_of_escape name []
  have hquote : Reads ⟨.value tag attributes name '"' (escape value).toList, stack, root⟩ ['"']
      (ofTag tag (attributes ++ [(name, escape value)]) stack root) := by
    refine .single ?_
    cases attributes <;> simp [step, ofTag]
  have hall := hblank.trans (hname.trans (hequals.trans (hvalue.trans hquote)))
  have htext : (attributeText (name, value)).toList =
      [' '] ++ (name.toList ++ (['=', '"'] ++ ((escape value).toList ++ ['"']))) := by
    simp [attributeText, String.toList_append]
  rw [htext]
  exact hall

theorem reads_attributes {more : List (String × String)} (h : ∀ a ∈ more, PlainName a.1) :
    Reads (ofTag tag attributes stack root) (more.flatMap fun a => (attributeText a).toList)
      (ofTag tag (attributes ++ more.map fun a => (a.1, escape a.2)) stack root) := by
  induction more generalizing attributes with
  | nil =>
    rw [List.map_nil, List.append_nil]
    exact .nil _
  | cons a rest ih =>
    obtain ⟨ha, hrest⟩ := List.forall_mem_cons.1 h
    have hfirst : Reads (ofTag tag attributes stack root) (attributeText a).toList
        (ofTag tag (attributes ++ [(a.1, escape a.2)]) stack root) := reads_attributeText ha
    have hgo := hfirst.trans (ih hrest)
    rw [List.append_assoc, List.singleton_append] at hgo
    exact hgo

/-! ## Lines -/

/-- The characters of lines, each ended by a line break. -/
def linesText (lines : List String) : List Char := lines.flatMap fun l => l.toList ++ ['\n']

theorem linesText_append (lines more : List String) :
    linesText (lines ++ more) = linesText lines ++ linesText more := List.flatMap_append

/-- A line with one tag is read as its tag: blanks in front and the break behind mean nothing. -/
theorem reads_line {text : String} {level : Nat} {s' : State} (hs : s'.mode = .outside)
    (h : Reads ⟨.outside, stack, root⟩ text.toList s') :
    Reads ⟨.outside, stack, root⟩ (linesText [line level text]) s' := by
  have hbreak : Reads s' ['\n'] s' := by
    obtain ⟨mode, stack, root⟩ := s'
    subst hs
    exact .single rfl
  have htext : linesText [line level text] =
      List.replicate (2 * level) ' ' ++ (text.toList ++ ['\n']) := by
    simp [linesText, line, String.toList_append]
  rw [htext]
  exact (reads_spaces _).trans (h.trans hbreak)

theorem toList_tagText (left right : String) (attributes : List (String × String)) :
    (tagText left tag attributes right).toList = left.toList ++ (tag.toList ++
      ((attributes.flatMap fun a => (attributeText a).toList) ++ right.toList)) := by
  simp [tagText, String.toList_append, String.toList_join, List.flatMap_map]

theorem mode_emit {e : Element} {s' : State} (h : emit stack root e = some s') :
    s'.mode = .outside := by
  unfold emit at h
  split at h
  · cases h
    rfl
  · cases h
    rfl
  · cases h

theorem reads_startLine (ht : PlainName tag) (ha : ∀ a ∈ attributes, PlainName a.1)
    (level : Nat) :
    Reads ⟨.outside, stack, root⟩ (linesText [line level (tagText "<" tag attributes ">")])
      ⟨.outside, ⟨tag, attributes.map fun a => (a.1, escape a.2), []⟩ :: stack, root⟩ := by
  refine reads_line rfl ?_
  rw [toList_tagText]
  have hend : Reads (ofTag tag ([] ++ attributes.map fun a => (a.1, escape a.2)) stack root) ['>']
      ⟨.outside, ⟨tag, attributes.map fun a => (a.1, escape a.2), []⟩ :: stack, root⟩ :=
    .single (step_ofTag rfl _ rfl)
  exact (reads_tag ht).trans ((reads_attributes ha).trans hend)

theorem reads_emptyLine (ht : PlainName tag) (ha : ∀ a ∈ attributes, PlainName a.1)
    (level : Nat) {s' : State}
    (h : emit stack root (.mk tag (attributes.map fun a => (a.1, escape a.2)) none) = some s') :
    Reads ⟨.outside, stack, root⟩ (linesText [line level (tagText "<" tag attributes "/>")]) s' := by
  refine reads_line (mode_emit h) ?_
  rw [toList_tagText]
  have hend : Reads (ofTag tag ([] ++ attributes.map fun a => (a.1, escape a.2)) stack root)
      ['/', '>'] s' := .cons (step_ofTag rfl _ rfl) (.single h)
  exact (reads_tag ht).trans ((reads_attributes ha).trans hend)

theorem reads_endLine (ht : PlainName tag) (level : Nat) {content : List Element} {s' : State}
    (h : emit stack root (.mk tag attributes (some content)) = some s') :
    Reads ⟨.outside, ⟨tag, attributes, content⟩ :: stack, root⟩
      (linesText [line level (tagText "</" tag [] ">")]) s' := by
  refine reads_line (mode_emit h) ?_
  rw [toList_tagText]
  have hslash : Reads ⟨.outside, ⟨tag, attributes, content⟩ :: stack, root⟩ ['<', '/']
      ⟨.endTag [] false, ⟨tag, attributes, content⟩ :: stack, root⟩ := .cons rfl (.single rfl)
  have hend : Reads ⟨.endTag tag.toList false, ⟨tag, attributes, content⟩ :: stack, root⟩ ['>']
      s' := by
    refine .single ?_
    simp [step, close, h]
  exact hslash.trans ((reads_endTag ht.plain []).trans hend)

end State

namespace Element

/-- The tags and the names of the attributes are plain, at any depth. -/
def Plain (e : Element) : Prop :=
  ∀ x ∈ e.starts, PlainName x.1 ∧ ∀ a ∈ x.2, PlainName a.1

end Element

namespace State

open Element

mutual

/-- **The lines of an element are read as the element**, by induction on it. -/
theorem reads_lines : ∀ (e : Element) (level : Nat) (stack : List Open) (root : Option Element)
    (s' : State), e.Plain → emit stack root e.escaped = some s' →
      Reads ⟨.outside, stack, root⟩ (linesText (e.lines level)) s'
  | .mk tag attributes none, level, stack, root, s', hplain, h => by
    obtain ⟨ht, ha⟩ := hplain _ List.mem_cons_self
    rw [lines]
    exact reads_emptyLine ht ha level h
  | .mk tag attributes (some content), level, stack, root, s', hplain, h => by
    obtain ⟨⟨ht, ha⟩, hcontent⟩ := List.forall_mem_cons.1 hplain
    rw [lines, ← List.singleton_append, linesText_append, linesText_append]
    exact (reads_startLine ht ha level).trans
      ((reads_linesOf content (level + 1) _ stack root hcontent).trans (reads_endLine ht level h))

/-- The lines of content are added to the element that is open. -/
theorem reads_linesOf : ∀ (es : List Element) (level : Nat) (o : Open) (stack : List Open)
    (root : Option Element), (∀ x ∈ startsOf es, PlainName x.1 ∧ ∀ a ∈ x.2, PlainName a.1) →
      Reads ⟨.outside, o :: stack, root⟩ (linesText (linesOf level es))
        ⟨.outside, { o with content := o.content ++ escapedOf es } :: stack, root⟩
  | [], level, o, stack, root, _ => by
    rw [escapedOf, List.append_nil]
    exact .nil _
  | e :: rest, level, o, stack, root, hplain => by
    obtain ⟨hfirst, hrest⟩ := List.forall_mem_append.1 hplain
    have hgo := reads_linesOf rest level { o with content := o.content ++ [e.escaped] } stack root
      hrest
    rw [List.append_assoc, List.singleton_append] at hgo
    rw [linesOf, linesText_append]
    exact (reads_lines e level (o :: stack) root _ hfirst rfl).trans hgo

end

end State

/-- **The text of an element is read as the element**, its values as they stand there. -/
theorem parse?_documentText {e : Element} (h : e.Plain) :
    parse? (documentText e) = some e.escaped := by
  have hroot : State.Reads .start (State.linesText (e.lines 0)) ⟨.outside, [], some e.escaped⟩ :=
    State.reads_lines e 0 [] none _ h rfl
  have hall : State.Reads .start (State.linesText (declaration :: e.lines 0))
      ⟨.outside, [], some e.escaped⟩ := by
    have hbreak : State.Reads .start ['\n'] .start := .single rfl
    have htext : State.linesText (declaration :: e.lines 0) =
        declaration.toList ++ (['\n'] ++ State.linesText (e.lines 0)) := by
      simp [State.linesText]
    rw [htext]
    exact State.reads_declaration.trans (hbreak.trans hroot)
  have htext : (documentText e).toList = State.linesText (declaration :: e.lines 0) := by
    simp [documentText, State.linesText, String.toList_join, String.toList_append,
      List.flatMap_map]
  unfold parse?
  rw [htext, show State.start.read _ = _ from hall]

end Xml
end XsdSynthesis
