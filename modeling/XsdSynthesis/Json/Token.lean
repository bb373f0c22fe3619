import XsdSynthesis.Json.Numeral

/-!
# XsdSynthesis.Json.Token

The tokens of a JSON text. The text is a list of symbols: characters, and `none` for a byte that
belongs to no character. A machine reads one symbol after the other. A string that has no value
(a lone surrogate, a stray byte) and a number beyond the doubles are tokens still, without a
value; whether that matters is for the reader of the tokens.
-/

namespace XsdSynthesis
namespace Json

/-- A unit of a text: a character, or `none` for a byte that belongs to no character. -/
abbrev Symbol := Option Char

/-- A token of a JSON text. -/
inductive Token where
  | openObject
  | closeObject
  | openArray
  | closeArray
  | colon
  | comma
  | null
  | bool (value : Bool)
  | num (value : Option Number)
  | str (value : Option String)
  deriving DecidableEq

/-- A part of a string: a character, a stray byte, or the code unit of a `\u` escape. -/
inductive Piece where
  | char (c : Char)
  | stray
  | unit (code : Nat)
  deriving DecidableEq

/-- The characters that the parts of a string denote. Two surrogates in a row make one character; a
lone surrogate and a stray byte make none. -/
def Piece.characters? : List Piece → Option (List Char)
  | [] => some []
  | .char c :: rest => (characters? rest).map (c :: ·)
  | .stray :: _ => none
  | .unit hi :: .unit lo :: rest =>
    if 0xD800 ≤ hi ∧ hi < 0xDC00 then
      if 0xDC00 ≤ lo ∧ lo < 0xE000 then
        (characters? rest).map (Char.ofNat (0x10000 + (hi - 0xD800) * 0x400 + (lo - 0xDC00)) :: ·)
      else none
    else if 0xDC00 ≤ hi ∧ hi < 0xE000 then none
    else (characters? (.unit lo :: rest)).map (Char.ofNat hi :: ·)
  | .unit code :: rest =>
    if 0xD800 ≤ code ∧ code < 0xE000 then none
    else (characters? rest).map (Char.ofNat code :: ·)

/-- The string that parts gathered in reverse denote. -/
def Piece.string? (gathered : List Piece) : Option String :=
  (characters? gathered.reverse).map String.ofList

namespace Token

def isGap (c : Char) : Bool := c == ' ' || c == '\t' || c == '\r' || c == '\n'

def isBare (c : Char) : Bool := c.isAlphanum || c == '-' || c == '+' || c == '.'

def ofMark? : Char → Option Token
  | '\x7b' => some .openObject
  | '\x7d' => some .closeObject
  | '[' => some .openArray
  | ']' => some .closeArray
  | ':' => some .colon
  | ',' => some .comma
  | _ => none

/-- The token of a run of bare characters: a word or a number text. -/
def ofRun? (run : List Char) : Option Token :=
  if run = "null".toList then some .null
  else if run = "true".toList then some (.bool true)
  else if run = "false".toList then some (.bool false)
  else (Numeral.ofText? run).map fun x => .num x.value?

/-- The character that a backslash and a letter stand for. -/
def ofEscape? : Char → Option Char
  | '"' => some '"'
  | '\\' => some '\\'
  | '/' => some '/'
  | 'b' => some '\x08'
  | 'f' => some '\x0c'
  | 'n' => some '\n'
  | 'r' => some '\r'
  | 't' => some '\t'
  | _ => none

def hexDigit? (c : Char) : Option Nat :=
  if c.isDigit then some (c.toNat - '0'.toNat)
  else if 'a' ≤ c ∧ c ≤ 'f' then some (c.toNat - 'a'.toNat + 10)
  else if 'A' ≤ c ∧ c ≤ 'F' then some (c.toNat - 'A'.toNat + 10)
  else none

end Token

/-- Where a text stands between two symbols. What was gathered is kept in reverse. -/
inductive Lexer.Mode where
  | between
  | bare (run : List Char)
  | quoted (parts : List Piece)
  | escaped (parts : List Piece)
  | code (parts : List Piece) (digits : Nat) (value : Nat)

/-- A reader of tokens: where the text stands, and the tokens so far in reverse. -/
structure Lexer where
  mode : Lexer.Mode
  tokens : List Token

namespace Lexer

def start : Lexer := ⟨.between, []⟩

def stepBetween (tokens : List Token) : Symbol → Option Lexer
  | none => none
  | some c =>
    if Token.isGap c then some ⟨.between, tokens⟩
    else if c = '"' then some ⟨.quoted [], tokens⟩
    else if Token.isBare c then some ⟨.bare [c], tokens⟩
    else (Token.ofMark? c).map fun t => ⟨.between, t :: tokens⟩

/-- A symbol inside a string. Characters below U+0020 stand in no string. -/
def stepQuoted (tokens : List Token) (parts : List Piece) : Symbol → Option Lexer
  | none => some ⟨.quoted (.stray :: parts), tokens⟩
  | some c =>
    if c = '"' then some ⟨.between, .str (Piece.string? parts) :: tokens⟩
    else if c = '\\' then some ⟨.escaped parts, tokens⟩
    else if c.toNat < 0x20 then none
    else some ⟨.quoted (.char c :: parts), tokens⟩

def step (lexer : Lexer) (symbol : Symbol) : Option Lexer :=
  match lexer.mode, symbol with
  | .between, s => stepBetween lexer.tokens s
  | .bare run, some c =>
    if Token.isBare c then some ⟨.bare (c :: run), lexer.tokens⟩
    else (Token.ofRun? run.reverse).bind fun t => stepBetween (t :: lexer.tokens) (some c)
  | .bare _, none => none
  | .quoted parts, s => stepQuoted lexer.tokens parts s
  | .escaped parts, some 'u' => some ⟨.code parts 0 0, lexer.tokens⟩
  | .escaped parts, some c =>
    (Token.ofEscape? c).map fun d => ⟨.quoted (.char d :: parts), lexer.tokens⟩
  | .escaped _, none => none
  | .code parts digits value, some c =>
    (Token.hexDigit? c).map fun d =>
      let value := 16 * value + d
      if digits = 3 then ⟨.quoted (.unit value :: parts), lexer.tokens⟩
      else ⟨.code parts (digits + 1) value, lexer.tokens⟩
  | .code .., none => none

/-- The tokens in order, if the text may end here. -/
def finish (lexer : Lexer) : Option (List Token) :=
  match lexer.mode with
  | .between => some lexer.tokens.reverse
  | .bare run => (Token.ofRun? run.reverse).map fun t => (t :: lexer.tokens).reverse
  | _ => none

def run : Lexer → List Symbol → Option Lexer
  | lexer, [] => some lexer
  | lexer, s :: rest =>
    match lexer.step s with
    | some next => next.run rest
    | none => none

theorem run_append (lexer : Lexer) (xs ys : List Symbol) :
    lexer.run (xs ++ ys) = (lexer.run xs).bind (·.run ys) := by
  induction xs generalizing lexer with
  | nil => rfl
  | cons s rest ih =>
    simp only [List.cons_append, run]
    cases lexer.step s with
    | none => rfl
    | some next => exact ih next

end Lexer

/-- The tokens of a text, or `none` if it has none. -/
def Token.ofSymbols? (text : List Symbol) : Option (List Token) :=
  (Lexer.start.run text).bind Lexer.finish

end Json
end XsdSynthesis
