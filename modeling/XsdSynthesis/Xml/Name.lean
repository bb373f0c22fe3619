import XsdSynthesis.Text.Letters
import XsdSynthesis.Text.Numbers

/-!
# XsdSynthesis.Xml.Name

The names that elements, attributes, types and prefixes may bear: a letter or an underscore, then
letters, numbers, points, underscores and hyphens. A name holds no colon and no blank.
-/

namespace XsdSynthesis
namespace Xml

def isNameStart (c : Char) : Bool := Text.letters.contains c.toNat || c == '_'

def isNameChar (c : Char) : Bool :=
  isNameStart c || Text.numbers.contains c.toNat || c == '.' || c == '-'

def isNameList : List Char → Bool
  | [] => false
  | c :: rest => isNameStart c && rest.all isNameChar

def isName (s : String) : Bool := isNameList s.toList

theorem isName_empty : isName "" = false := rfl

end Xml
end XsdSynthesis
