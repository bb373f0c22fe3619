import XsdSynthesis.Json.Value

/-!
# XsdSynthesis.Json.Printer

JSON text of values, on one line (`compact`) or indented by two blanks per level (`pretty`).
Strings escape the quote, the backslash and the characters below U+0020 only. A number that is
no integer is written with its exact decimal digits.
-/

namespace XsdSynthesis
namespace Json

def escapeChar (c : Char) : List Char :=
  match c with
  | '"' => ['\\', '"']
  | '\\' => ['\\', '\\']
  | '\x08' => ['\\', 'b']
  | '\x0c' => ['\\', 'f']
  | '\n' => ['\\', 'n']
  | '\r' => ['\\', 'r']
  | '\t' => ['\\', 't']
  | c =>
    if c.toNat < 0x20 then
      ['\\', 'u', '0', '0', if c.toNat < 0x10 then '0' else '1',
        (Nat.toDigits 16 (c.toNat % 0x10)).headD '0']
    else [c]

def quoted (s : String) : String :=
  String.ofList ('"' :: (s.toList.flatMap escapeChar ++ ['"']))

/-- The decimal digits of `n / 10 ^ places`, with a point. -/
def decimal (n places : Nat) : String :=
  let digits := Nat.toDigits 10 n
  let digits := List.replicate (places + 1 - digits.length) '0' ++ digits
  let (whole, fraction) := digits.splitAt (digits.length - places)
  String.ofList (whole ++ '.' :: (if fraction = [] then ['0'] else fraction))

def Number.text : Number → String
  | .int n => toString n
  | .real .zero => "0.0"
  | .real (.ofOdd n k _) =>
    let sign := if n < 0 then "-" else ""
    if 0 ≤ k then sign ++ decimal (n.natAbs * Nat.pow 5 k.toNat) k.toNat
    else sign ++ decimal (n.natAbs * Nat.pow 2 (-k).toNat) 0

/-- Texts between two brackets, with commas. -/
def bracketed (left right : String) (parts : List String) : String :=
  left ++ ",".intercalate parts ++ right

mutual

def compact : Json → String
  | .null => "null"
  | .bool b => if b then "true" else "false"
  | .num n => n.text
  | .str s => quoted s
  | .arr items => bracketed "[" "]" (compactItems items)
  | .obj members => bracketed "\x7b" "\x7d" (compactMembers members)

def compactItems : List Json → List String
  | [] => []
  | j :: rest => compact j :: compactItems rest

def compactMembers : List (String × Json) → List String
  | [] => []
  | (name, j) :: rest => (quoted name ++ ":" ++ compact j) :: compactMembers rest

end

/-- Lines between two brackets, one level deeper than the brackets, or the brackets alone. -/
def indented (left right : String) (level : Nat) (parts : List String) : String :=
  let newline (n : Nat) := "\n" ++ String.ofList (List.replicate (2 * n) ' ')
  if parts = [] then left ++ right
  else
    left ++ newline (level + 1) ++ ("," ++ newline (level + 1)).intercalate parts ++
      newline level ++ right

mutual

/-- The text of a value that starts at the given level of indentation. -/
def prettyAt (level : Nat) : Json → String
  | .null => "null"
  | .bool b => if b then "true" else "false"
  | .num n => n.text
  | .str s => quoted s
  | .arr items => indented "[" "]" level (prettyItems (level + 1) items)
  | .obj members => indented "\x7b" "\x7d" level (prettyMembers (level + 1) members)

def prettyItems (level : Nat) : List Json → List String
  | [] => []
  | j :: rest => prettyAt level j :: prettyItems level rest

def prettyMembers (level : Nat) : List (String × Json) → List String
  | [] => []
  | (name, j) :: rest => (quoted name ++ ": " ++ prettyAt level j) :: prettyMembers level rest

end

def pretty (j : Json) : String := prettyAt 0 j

end Json
end XsdSynthesis
