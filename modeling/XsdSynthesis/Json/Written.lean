import XsdSynthesis.Json.Token

/-!
# XsdSynthesis.Json.Written

The tree of a JSON text as it is written: every member is kept, at any depth, and a string or
number without a value is a leaf of its own. `Written.ofTokens?` reads it from the tokens;
`Written.value?` is the value of the tree, when all its leaves have one and its depth is allowed.
-/

namespace XsdSynthesis
namespace Json

/-- The tree of a text. `unreadable` is a string or a number without a value. -/
inductive Written where
  | null
  | bool (value : Bool)
  | num (value : Number)
  | str (value : String)
  | unreadable
  | arr (items : List Written)
  | obj (members : List (Option String × Written))
  deriving Inhabited

namespace Written

/-- An array or object that is not complete yet. Items and members are kept in reverse; `name` is
the name of the member whose value is being read. -/
inductive Frame where
  | items (done : List Written)
  | members (done : List (Option String × Written)) (name : Option String)

/-- Where the tokens stand: what must come next, inside which incomplete arrays and objects. -/
inductive Builder where
  | value (outer : List Frame)
  | firstItem (outer : List Frame)
  | firstName (outer : List Frame)
  | nextName (outer : List Frame) (done : List (Option String × Written))
  | colon (outer : List Frame) (done : List (Option String × Written)) (name : Option String)
  | after (outer : List Frame) (value : Written)

namespace Builder

/-- A token with which a value begins. -/
def begins (outer : List Frame) : Token → Option Builder
  | .null => some (.after outer .null)
  | .bool b => some (.after outer (.bool b))
  | .num n => some (.after outer (n.elim .unreadable .num))
  | .str s => some (.after outer (s.elim .unreadable .str))
  | .openArray => some (.firstItem outer)
  | .openObject => some (.firstName outer)
  | _ => none

def step : Builder → Token → Option Builder
  | .value outer, t => begins outer t
  | .firstItem outer, .closeArray => some (.after outer (.arr []))
  | .firstItem outer, t => begins (.items [] :: outer) t
  | .firstName outer, .closeObject => some (.after outer (.obj []))
  | .firstName outer, .str name => some (.colon outer [] name)
  | .nextName outer done, .str name => some (.colon outer done name)
  | .colon outer done name, .colon => some (.value (.members done name :: outer))
  | .after (.items done :: outer) v, .comma => some (.value (.items (v :: done) :: outer))
  | .after (.items done :: outer) v, .closeArray => some (.after outer (.arr (v :: done).reverse))
  | .after (.members done name :: outer) v, .comma => some (.nextName outer ((name, v) :: done))
  | .after (.members done name :: outer) v, .closeObject =>
    some (.after outer (.obj ((name, v) :: done).reverse))
  | _, _ => none

def finish : Builder → Option Written
  | .after [] v => some v
  | _ => none

def run : Builder → List Token → Option Builder
  | builder, [] => some builder
  | builder, t :: rest =>
    match builder.step t with
    | some next => next.run rest
    | none => none

end Builder

/-- The tree that tokens spell, or `none` if they spell none. -/
def ofTokens? (tokens : List Token) : Option Written :=
  (Builder.run (.value []) tokens).bind Builder.finish

def ofSymbols? (text : List Symbol) : Option Written :=
  (Token.ofSymbols? text).bind ofTokens?

mutual

/-- The value of a tree whose leaves all have one and whose arrays and objects are nested at most
`depth` deep. Every member is kept. -/
def value? (depth : Nat) : Written → Option Json
  | .null => some .null
  | .bool b => some (.bool b)
  | .num n => some (.num n)
  | .str s => some (.str s)
  | .unreadable => none
  | .arr items =>
    match depth with
    | 0 => none
    | depth + 1 => (valueItems? depth items).map .arr
  | .obj members =>
    match depth with
    | 0 => none
    | depth + 1 => (valueMembers? depth members).map .obj

def valueItems? (depth : Nat) : List Written → Option (List Json)
  | [] => some []
  | w :: rest =>
    match value? depth w, valueItems? depth rest with
    | some j, some js => some (j :: js)
    | _, _ => none

def valueMembers? (depth : Nat) : List (Option String × Written) → Option (List (String × Json))
  | [] => some []
  | (name, w) :: rest =>
    match name, value? depth w, valueMembers? depth rest with
    | some name, some j, some ms => some ((name, j) :: ms)
    | _, _, _ => none

end

/-- An object with only the members of the given names; `none` if a name has no value. Any other
tree as it is. -/
def onlyMembers? (names : List String) : Written → Option Written
  | .obj members =>
    if members.all (·.1.isSome) then
      some (.obj (members.filter fun m => m.1.any names.contains))
    else none
  | w => some w

end Written
end Json
end XsdSynthesis
