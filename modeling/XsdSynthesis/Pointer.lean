/-!
# XsdSynthesis.Pointer

Pointers to places in a JSON document, with the escapes of RFC 6901. A pointer is the list of its
segments, root first; its text is a fragment such as `#/a/b`, in which a segment's `~` is
written `~0` and its `/` is written `~1`. `escape` and `unescape` are inverse on segments.
-/

namespace XsdSynthesis

/-- A place in a JSON document: the names and indices that lead to it from the root. -/
structure Pointer where
  segments : List String
  deriving DecidableEq

namespace Pointer

def escapeChar (c : Char) : List Char :=
  if c = '~' then ['~', '0'] else if c = '/' then ['~', '1'] else [c]

def escape (cs : List Char) : List Char := cs.flatMap escapeChar

/-- The segment that a written one denotes. A `~` before neither `0` nor `1` stands for itself. -/
def unescape : List Char → List Char
  | '~' :: '0' :: rest => '~' :: unescape rest
  | '~' :: '1' :: rest => '/' :: unescape rest
  | c :: rest => c :: unescape rest
  | [] => []

theorem unescape_cons {c : Char} (h : c ≠ '~') (rest : List Char) :
    unescape (c :: rest) = c :: unescape rest := by
  rw [unescape]
  · intro _ hc
    exact absurd hc h
  · intro _ hc
    exact absurd hc h

theorem unescape_escape (cs : List Char) : unescape (escape cs) = cs := by
  induction cs with
  | nil => rfl
  | cons c rest ih =>
    have he : escape (c :: rest) = escapeChar c ++ escape rest := rfl
    rw [he, escapeChar]
    split
    · rename_i h
      subst h
      simp [unescape, ih]
    · rename_i h
      split
      · rename_i h'
        subst h'
        simp [unescape, ih]
      · rw [List.singleton_append, unescape_cons h, ih]

/-- A written segment holds no slash, so it cannot be split. -/
theorem slash_not_mem_escape (cs : List Char) : '/' ∉ escape cs := by
  intro h
  obtain ⟨c, _, hc⟩ := List.mem_flatMap.1 h
  simp only [escapeChar] at hc
  split at hc
  · simp at hc
  · split at hc
    · simp at hc
    · rename_i hne
      simp only [List.mem_singleton] at hc
      exact hne hc.symm

def root : Pointer := ⟨[]⟩

/-- Whether a pointer is that of the whole document. -/
def isRoot (p : Pointer) : Bool := p.segments.isEmpty

/-- The place that further segments lead to. -/
def append (p : Pointer) (segments : List String) : Pointer := ⟨p.segments ++ segments⟩

def child (p : Pointer) (segment : String) : Pointer := p.append [segment]

@[simp] theorem segments_append (p : Pointer) (ss : List String) :
    (p.append ss).segments = p.segments ++ ss := rfl

@[simp] theorem segments_child (p : Pointer) (s : String) :
    (p.child s).segments = p.segments ++ [s] := rfl

theorem append_append (p : Pointer) (ss ts : List String) :
    (p.append ss).append ts = p.append (ss ++ ts) := by
  simp [append, List.append_assoc]

def path (segments : List String) : List Char :=
  segments.flatMap fun s => '/' :: escape s.toList

def text (p : Pointer) : String := String.ofList ('#' :: path p.segments)

/-- The pointer that a path without `#` denotes: the empty one, or one that begins with a slash. -/
def ofPath? : List Char → Option Pointer
  | [] => some root
  | '/' :: rest => some ⟨(rest.splitOn '/').map fun s => String.ofList (unescape s)⟩
  | _ => none

/-- The pointer that a text denotes, with or without one leading `#`. -/
def ofText? (text : String) : Option Pointer :=
  match text.toList with
  | '#' :: rest => ofPath? rest
  | rest => ofPath? rest

def refusal (text : String) : String := s!"'{text}' is not a JSON pointer"

/-- Pointers are ordered by their segments, and segments by their characters. -/
instance : Ord Pointer := ⟨fun p q => compare p.segments q.segments⟩

theorem compare_def (p q : Pointer) : compare p q = compare p.segments q.segments := rfl

instance : Std.TransOrd Pointer where
  eq_swap {a b} := by
    rw [compare_def, compare_def]
    exact Std.OrientedCmp.eq_swap
  isLE_trans {a b c} := by
    rw [compare_def, compare_def, compare_def]
    exact Std.TransCmp.isLE_trans

instance : Std.LawfulEqOrd Pointer where
  compare_self := by
    intro a
    rw [compare_def]
    exact Std.ReflCmp.compare_self
  eq_of_compare {a b} h := by
    rw [compare_def] at h
    have hs := Std.LawfulEqCmp.eq_of_compare h
    cases a
    cases b
    cases hs
    rfl

/-- A pointer put into an ascending list that does not hold it yet. -/
def insert (p : Pointer) : List Pointer → List Pointer
  | [] => [p]
  | q :: rest =>
    match compare p q with
    | .lt => p :: q :: rest
    | .eq => q :: rest
    | .gt => q :: insert p rest

/-- Pointers in ascending order, each once. -/
def sorted (ps : List Pointer) : List Pointer := ps.foldr insert []

theorem mem_insert (p q : Pointer) (ps : List Pointer) : q ∈ insert p ps ↔ q = p ∨ q ∈ ps := by
  induction ps with
  | nil => simp [insert]
  | cons r rest ih =>
    rw [insert]
    split
    · simp
    · rename_i h
      have hr := Std.LawfulEqCmp.eq_of_compare h
      subst hr
      simp
    · simp only [List.mem_cons, ih]
      constructor <;> (intro h; rcases h with h | h | h <;> simp [h])

theorem mem_sorted (q : Pointer) (ps : List Pointer) : q ∈ sorted ps ↔ q ∈ ps := by
  induction ps with
  | nil => simp [sorted]
  | cons p rest ih =>
    have hs : sorted (p :: rest) = insert p (sorted rest) := rfl
    rw [hs, mem_insert, ih, List.mem_cons]

end Pointer
end XsdSynthesis
