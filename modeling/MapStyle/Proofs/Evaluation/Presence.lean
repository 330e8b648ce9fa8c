import MapStyle.Predicate

/-!
# Presence tests

The smallest filter language: a filter names one attribute and asks whether a candidate has it.
-/

namespace MapStyle

/-- The test whether a candidate has an attribute. -/
structure Presence where
  name : String
deriving DecidableEq, Repr

namespace Presence

/-- Reads a presence test: the whole text is the name, which holds no space. -/
def parse : PredicateEngine Presence := fun text =>
  if text.toList.contains ' ' then .error ⟨text, .invalid "expected one name"⟩ else .ok ⟨text⟩

instance : Predicate Presence where
  display p := "exists(" ++ p.name ++ ")"
  evaluate p c := .ok (c p.name).isSome
  fields p := [p.name]

end Presence

end MapStyle
