import XsdSynthesis.Json.Written

/-!
# XsdSynthesis.Json.Text

Reading JSON from strings and from bytes. A text is read strictly: one value, arrays and objects
nested at most 127 deep, every string and number with a value. A name used twice in an object
keeps its first place and takes its last value.
-/

namespace XsdSynthesis
namespace Json

/-- How deep arrays and objects may be nested in a text. -/
def maxDepth : Nat := 127

def symbolsFrom (bytes : ByteArray) (i : Nat) : List Symbol :=
  if i < bytes.size then
    match bytes.utf8DecodeChar? i with
    | some c => some c :: symbolsFrom bytes (i + c.utf8Size)
    | none => none :: symbolsFrom bytes (i + 1)
  else []
termination_by bytes.size - i
decreasing_by
  · have := Char.utf8Size_pos ‹Char›
    omega
  · omega

/-- The symbols of bytes: UTF-8, with a stray symbol for every byte that is part of no character. -/
def symbolsOfBytes (bytes : ByteArray) : List Symbol := symbolsFrom bytes 0

def symbolsOfString (s : String) : List Symbol := s.toList.map some

def ofSymbols? (text : List Symbol) : Option Json :=
  ((Written.ofSymbols? text).bind (Written.value? maxDepth)).map merged

def ofText? (text : String) : Option Json := ofSymbols? (symbolsOfString text)

def ofBytes? (bytes : ByteArray) : Option Json := ofSymbols? (symbolsOfBytes bytes)

end Json
end XsdSynthesis
