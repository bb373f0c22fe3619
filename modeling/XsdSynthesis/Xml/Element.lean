/-!
# XsdSynthesis.Xml.Element

XML elements without text content, and their text: one tag a line, two blanks for each level. An
element without content is one empty-element tag; one with content, be it none at all, has a
start tag and an end tag. In attribute values the five characters with predefined entities
are written as these, and every other character as it is.
-/

namespace XsdSynthesis
namespace Xml

/-- An element: its tag, its attributes in order, and its content, if it has any. -/
inductive Element where
  | mk (tag : String) (attributes : List (String × String)) (content : Option (List Element))

/-- A character as it stands in an attribute value. -/
def escapeChar (c : Char) : List Char :=
  match c with
  | '&' => "&amp;".toList
  | '<' => "&lt;".toList
  | '>' => "&gt;".toList
  | '"' => "&quot;".toList
  | '\'' => "&apos;".toList
  | c => [c]

def escape (s : String) : String := String.ofList (s.toList.flatMap escapeChar)

/-- An attribute as it stands in a tag, after a blank. -/
def attributeText : String × String → String
  | (name, value) => " " ++ name ++ "=\"" ++ escape value ++ "\""

def tagText (left tag : String) (attributes : List (String × String)) (right : String) : String :=
  left ++ tag ++ String.join (attributes.map attributeText) ++ right

def line (level : Nat) (text : String) : String :=
  String.ofList (List.replicate (2 * level) ' ') ++ text

namespace Element

mutual

def lines (level : Nat) : Element → List String
  | mk tag attributes none => [line level (tagText "<" tag attributes "/>")]
  | mk tag attributes (some content) =>
    line level (tagText "<" tag attributes ">") ::
      (linesOf (level + 1) content ++ [line level (tagText "</" tag [] ">")])

def linesOf (level : Nat) : List Element → List String
  | [] => []
  | e :: rest => lines level e ++ linesOf level rest

end

end Element

def declaration : String := "<?xml version=\"1.0\" encoding=\"utf-8\"?>"

/-- The text of a document with the given root element. Every line ends with a line break. -/
def documentText (root : Element) : String :=
  String.join ((declaration :: root.lines 0).map (· ++ "\n"))

end Xml
end XsdSynthesis
