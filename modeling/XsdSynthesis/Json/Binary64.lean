/-!
# XsdSynthesis.Json.Binary64

Magnitudes of 64-bit floating-point numbers in exact arithmetic. A magnitude is
`significand · 2 ^ exponent`; `nearest` rounds a ratio to the nearest representable magnitude,
a tie to the even significand, and has no answer from the halfway point above the largest one on.
-/

namespace XsdSynthesis
namespace Json

/-- The magnitude `significand · 2 ^ exponent`. -/
structure Binary64 where
  significand : Nat
  exponent : Int
  deriving DecidableEq

namespace Binary64

def minExponent : Int := -1074

/-- `n / d` rounded to the nearest integer, a tie to the even one. -/
def roundDiv (n d : Nat) : Nat :=
  let k := n / d
  let twice := 2 * (n % d)
  if twice > d ∨ (twice = d ∧ k % 2 = 1) then k + 1 else k

/-- Numerator and denominator of `(n / d) / 2 ^ q`. -/
def unscaled (n d : Nat) (q : Int) : Nat × Nat :=
  if 0 ≤ q then (n, d * Nat.pow 2 q.toNat) else (n * Nat.pow 2 (-q).toNat, d)

/-- The exponent at which the ratio `n / d` has 53 significant binary digits, or the least one. -/
def unitExponent (n d : Nat) : Int :=
  let q := max minExponent ((n.log2 : Int) - (d.log2 : Int) - 53)
  let (n', d') := unscaled n d q
  if Nat.pow 2 53 * d' ≤ n' then q + 1 else q

/-- The magnitude nearest to `n / d`, or `none` when that is beyond the largest one. -/
def nearest (n d : Nat) : Option Binary64 :=
  if n = 0 then some ⟨0, 0⟩
  else
    let q := unitExponent n d
    let (n', d') := unscaled n d q
    let m := roundDiv n' d'
    if 1024 ≤ (m.log2 : Int) + q then none else some ⟨m, q⟩

/-- Numerator and denominator of a magnitude. -/
def ratio (x : Binary64) : Nat × Nat := unscaled x.significand 1 (-x.exponent)

def mul (x y : Binary64) : Option Binary64 :=
  nearest (x.ratio.1 * y.ratio.1) (x.ratio.2 * y.ratio.2)

def div (x y : Binary64) : Option Binary64 :=
  nearest (x.ratio.1 * y.ratio.2) (x.ratio.2 * y.ratio.1)

def powTen (k : Nat) : Option Binary64 := nearest (Nat.pow 10 k) 1

/-- The magnitude of `significand · 10 ^ exponent`: the significand is rounded, then the product or
quotient with a rounded power of ten of at most 308 digits after the first. Below `10 ^ -308`
the quotient is taken in two steps, and what two steps leave over is zero. -/
def ofScientific (significand : Nat) (exponent : Int) : Option Binary64 := do
  let x ← nearest significand 1
  if significand = 0 then return x
  else if 308 < exponent then none
  else if 0 ≤ exponent then x.mul (← powTen exponent.toNat)
  else if -308 ≤ exponent then x.div (← powTen (-exponent).toNat)
  else if -616 ≤ exponent then (← x.div (← powTen 308)).div (← powTen (-exponent - 308).toNat)
  else return ⟨0, 0⟩

def toDyadic (x : Binary64) (negative : Bool) : Dyadic :=
  let m : Int := x.significand
  .ofIntWithPrec (if negative then -m else m) (-x.exponent)

end Binary64
end Json
end XsdSynthesis
