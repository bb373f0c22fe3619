/-!
# XsdSynthesis.Json.Value

JSON values. An object is the list of its members in source order. A number is an integer or
a dyadic rational, the exact value of a double; the two kinds never coincide, so `1` and `1.0`
are different numbers while `0.0` and `-0.0` are the same one.
-/

namespace XsdSynthesis

/-- A JSON number. -/
inductive Json.Number where
  | int (value : Int)
  | real (value : Dyadic)
  deriving DecidableEq

/-- A JSON value. -/
inductive Json where
  | null
  | bool (value : Bool)
  | num (value : Json.Number)
  | str (value : String)
  | arr (items : List Json)
  | obj (members : List (String × Json))
  deriving Inhabited

namespace Json

def int? : Json → Option Int
  | .num (.int n) => some n
  | _ => none

def str? : Json → Option String
  | .str s => some s
  | _ => none

def bool? : Json → Option Bool
  | .bool b => some b
  | _ => none

def arr? : Json → Option (List Json)
  | .arr items => some items
  | _ => none

def obj? : Json → Option (List (String × Json))
  | .obj members => some members
  | _ => none

/-- The value of the first member with the given name. -/
def get? (j : Json) (name : String) : Option Json := j.obj?.bind (·.lookup name)

mutual

/-- Equality up to the order of members, at every depth. -/
def same : Json → Json → Bool
  | .null, .null => true
  | .bool a, .bool b => a == b
  | .num a, .num b => a == b
  | .str a, .str b => a == b
  | .arr as, .arr bs => sameItems as bs
  | .obj as, .obj bs => as.length == bs.length && sameMembers as bs
  | _, _ => false

def sameItems : List Json → List Json → Bool
  | [], [] => true
  | a :: as, b :: bs => same a b && sameItems as bs
  | _, _ => false

/-- Whether every member on the left has an equal one on the right. -/
def sameMembers : List (String × Json) → List (String × Json) → Bool
  | [], _ => true
  | (name, a) :: as, bs =>
    (match bs.lookup name with
      | some b => same a b
      | none => false) && sameMembers as bs

end

mutual

/-- The value with every name used once per object: the first place, the last value. -/
def merged : Json → Json
  | .arr items => .arr (mergedItems items)
  | .obj members => .obj (mergedMembers members)
  | j => j

def mergedItems : List Json → List Json
  | [] => []
  | j :: rest => merged j :: mergedItems rest

def mergedMembers : List (String × Json) → List (String × Json)
  | [] => []
  | (name, j) :: rest =>
    let later := mergedMembers rest
    (name, (later.lookup name).getD (merged j)) :: later.filter (·.1 != name)

end

/-- Merged members have pairwise different names. -/
theorem mergedMembers_nodup (members : List (String × Json)) :
    ((mergedMembers members).map Prod.fst).Nodup := by
  induction members with
  | nil => simp [mergedMembers]
  | cons m rest ih =>
    obtain ⟨name, j⟩ := m
    simp only [mergedMembers, List.map_cons, List.nodup_cons]
    refine ⟨?_, (List.filter_sublist.map Prod.fst).nodup ih⟩
    simp

end Json
end XsdSynthesis
