import MapStyle.Cascade
import MapStyle.Path
import MapStyle.Fault

/-!
# Stylesheets

What a stylesheet text says: rules, and the properties of the map as a whole.
-/

namespace MapStyle

/-- A stylesheet, with the path it was loaded from. -/
structure Sheet (P : Type) where
  rules : RuleList P := []
  map : Properties := {}
  path : Option Path := none

/-- What happens to a key that a block declares again: the value is replaced, or all values are
kept. -/
inductive DuplicateKeys where
  | overwrite
  | accumulate
deriving DecidableEq, Repr

/-- How stylesheets are read: how deep brackets and rules may be nested, what repeated keys mean,
the language of the filters, and the functions that values may call. -/
structure Dialect (P : Type) where
  maxDepth : Nat := 64
  duplicateKeys : DuplicateKeys := .overwrite
  engine : PredicateEngine P
  functions : Registry := .builtin

/-- A numeric token that is not a number and was kept as text. -/
structure Warning where
  text : String
  location : Location
deriving DecidableEq, Repr

/-- The wording of a warning. -/
def Warning.message (w : Warning) : String :=
  "'" ++ w.text ++ "' at " ++ w.location.display ++ " is not a number, keeping it as text"

/-- The outcome of reading a stylesheet. -/
structure Parsed (P : Type) where
  sheet : Sheet P
  warnings : List Warning

end MapStyle
