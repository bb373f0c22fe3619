/-!
# XsdSynthesis.Text.Blank

Blanks and letter case as option texts are read: the 25 characters of Unicode's White_Space
property are stripped at both ends, and only the letters A to Z are lowered.
-/

namespace XsdSynthesis
namespace Text

/-- The characters of Unicode's White_Space property. -/
def isBlank (c : Char) : Bool :=
  let n := c.toNat
  (0x09 ≤ n && n ≤ 0x0D) || n == 0x20 || n == 0x85 || n == 0xA0 || n == 0x1680 ||
    (0x2000 ≤ n && n ≤ 0x200A) || n == 0x2028 || n == 0x2029 || n == 0x202F || n == 0x205F ||
    n == 0x3000

/-- The characters without the blanks at both ends. -/
def trim (cs : List Char) : List Char :=
  ((cs.dropWhile isBlank).reverse.dropWhile isBlank).reverse

/-- A letter A to Z lowered; every other character as it is. -/
def lowerAscii (c : Char) : Char :=
  if 'A' ≤ c ∧ c ≤ 'Z' then Char.ofNat (c.toNat + 32) else c

/-- A word as it is compared: without outer blanks and with A to Z lowered. -/
def folded (s : String) : String := String.ofList ((trim s.toList).map lowerAscii)

end Text
end XsdSynthesis
