import XsdSynthesis.Schema.Keyword

/-!
# XsdSynthesis.Schema.Equality

Equality of schemas. The order of keywords and of branches counts; the order of the entries of
an object of definitions, properties, namespaces, attributes or documentation does not.
-/

namespace XsdSynthesis
namespace Schema

/-- Equality of string maps up to the order of their entries. -/
def sameStrings (as bs : List (String × String)) : Bool :=
  as.length == bs.length && as.all fun (name, value) => bs.lookup name == some value

mutual

def same : Schema → Schema → Bool
  | .mk as, .mk bs => sameKeywords as bs

def sameKeywords : List Keyword → List Keyword → Bool
  | [], [] => true
  | a :: as, b :: bs => sameKeyword a b && sameKeywords as bs
  | _, _ => false

def sameKeyword : Keyword → Keyword → Bool
  | .schema a, .schema b => a == b
  | .id a, .id b => a == b
  | .type a, .type b => a == b
  | .definitions c as, .definitions d bs =>
    c == d && as.length == bs.length && sameEntries as bs
  | .info as, .info bs => Json.same (.obj as) (.obj bs)
  | .combinator c as, .combinator d bs => c == d && sameBranches as bs
  | .properties as, .properties bs => as.length == bs.length && sameEntries as bs
  | .required a, .required b => a == b
  | .ref a, .ref b => a == b
  | .namespaces a, .namespaces b => sameStrings a b
  | .documentAttributes a, .documentAttributes b => sameStrings a b
  | .asAttribute a, .asAttribute b => a == b
  | .unknown n a, .unknown m b => n == m && Json.same a b
  | _, _ => false

/-- Whether every entry on the left has an equal one on the right. -/
def sameEntries : List (String × Schema) → List (String × Schema) → Bool
  | [], _ => true
  | (name, a) :: as, bs =>
    (match bs.lookup name with
      | some b => same a b
      | none => false) && sameEntries as bs

def sameBranches : List Schema → List Schema → Bool
  | [], [] => true
  | a :: as, b :: bs => same a b && sameBranches as bs
  | _, _ => false

end

end Schema
end XsdSynthesis
