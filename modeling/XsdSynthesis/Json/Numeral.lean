import XsdSynthesis.Json.Binary64
import XsdSynthesis.Json.Value

/-!
# XsdSynthesis.Json.Numeral

Number texts. `Numeral.ofText?` is the number grammar of JSON; `Numeral.value?` is the number
a text denotes. Whole numbers of 64 bits are integers, and all else is a double: the digits
are gathered while they fit 64 bits, whole digits beyond them only raise the exponent, and
fraction digits beyond them are dropped.
-/

namespace XsdSynthesis
namespace Json

/-- A number text by its parts. -/
structure Numeral where
  negative : Bool
  whole : List Char
  fraction : Option (List Char)
  exponent : Option Int

namespace Numeral

def digit (c : Char) : Nat := c.toNat - '0'.toNat

def natOfDigits (cs : List Char) : Nat := cs.foldl (fun n c => 10 * n + digit c) 0

/-- Leading decimal digits and the rest. -/
def spanDigits (cs : List Char) : List Char × List Char :=
  (cs.takeWhile Char.isDigit, cs.dropWhile Char.isDigit)

/-- An optional exponent that ends the text; the outer `none` refuses the text. -/
def exponentOf? : List Char → Option (Option Int)
  | [] => some none
  | c :: rest =>
    if c = 'e' ∨ c = 'E' then
      let (negative, ds) := match rest with
        | '-' :: ds => (true, ds)
        | '+' :: ds => (false, ds)
        | ds => (false, ds)
      if ds ≠ [] ∧ ds.all Char.isDigit then
        let n : Int := natOfDigits ds
        some (some (if negative then -n else n))
      else none
    else none

/-- An optional fraction and what follows it; `none` when the point has no digit after it. -/
def fractionOf? : List Char → Option (Option (List Char) × List Char)
  | '.' :: rest =>
    match spanDigits rest with
    | ([], _) => none
    | (ds, rest) => some (some ds, rest)
  | rest => some (none, rest)

/-- Whether digits can be the whole part: one zero, or digits that start with no zero. -/
def isWhole (ds : List Char) : Bool := ds == ['0'] || (ds != [] && ds.head? != some '0')

/-- The parts of a number text, or `none` if the text breaks the grammar. -/
def ofText? (text : List Char) : Option Numeral := do
  let (negative, text) := match text with
    | '-' :: rest => (true, rest)
    | text => (false, text)
  let (whole, rest) := spanDigits text
  if isWhole whole then
    let (fraction, rest) ← fractionOf? rest
    let exponent ← exponentOf? rest
    return ⟨negative, whole, fraction, exponent⟩
  else none

/-- The digits gathered while the number fits 64 bits, and the digits left over. -/
def gather (n : Nat) : List Char → Nat × List Char
  | [] => (n, [])
  | c :: rest =>
    let next := 10 * n + digit c
    if next < Nat.pow 2 64 then gather next rest else (n, c :: rest)

/-- Significand and decimal exponent of the parts before the exponent. -/
def significand (x : Numeral) : Nat × Int :=
  let (n, beyond) := gather 0 x.whole
  let digits := x.fraction.getD []
  let (n, dropped) := gather n digits
  (n, (beyond.length : Int) - (digits.length - dropped.length))

/-- The integer a text without fraction and exponent denotes, when it is one of 64 bits. A zero
with a minus sign is none. -/
def int? (x : Numeral) : Option Int :=
  if x.fraction = none ∧ x.exponent = none then
    let n := natOfDigits x.whole
    if x.negative then (if 0 < n ∧ n ≤ Nat.pow 2 63 then some (-(n : Int)) else none)
    else if n < Nat.pow 2 64 then some n
    else none
  else none

/-- The number a text denotes, or `none` when it is beyond the doubles. -/
def value? (x : Numeral) : Option Number :=
  match x.int? with
  | some n => some (.int n)
  | none => do
    let (n, shift) := x.significand
    let magnitude ← Binary64.ofScientific n (shift + x.exponent.getD 0)
    return .real (magnitude.toDyadic x.negative)

end Numeral
end Json
end XsdSynthesis
