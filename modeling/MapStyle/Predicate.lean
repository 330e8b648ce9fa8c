import MapStyle.Candidate
import MapStyle.Verdict

/-!
# Predicates

What the rest of the library needs to know of an attribute test: how it is written, what it says of
a candidate, and which attributes it looks at. The language of the tests is left open; an engine
reads the text between the brackets of a filter.
-/

namespace MapStyle

/-- Why a test has no answer on a candidate. -/
inductive EvalError where
  | missingAttribute (name : String)
  | incomparable (left right : Literal)
deriving DecidableEq, Repr

/-- The wording of a failed test. -/
def EvalError.message : EvalError → String
  | missingAttribute name => "attribute '" ++ name ++ "' is not present on the candidate"
  | incomparable left right => "cannot compare " ++ left.display ++ " with " ++ right.display

/-- A language of attribute tests. -/
class Predicate (P : Type) where
  /-- The written form of a test. Tests with the same written form count as equal. -/
  display : P → String
  /-- What a test says of a candidate. -/
  evaluate : P → Candidate → Verdict EvalError
  /-- The attributes that a test names, in reading order. -/
  fields : P → List String

/-- The tests of two languages side by side. -/
instance {P Q : Type} [Predicate P] [Predicate Q] : Predicate (P ⊕ Q) where
  display
    | .inl p => Predicate.display p
    | .inr q => Predicate.display q
  evaluate
    | .inl p => Predicate.evaluate p
    | .inr q => Predicate.evaluate q
  fields
    | .inl p => Predicate.fields p
    | .inr q => Predicate.fields q

/-- Why a text is not a test. -/
inductive PredicateError.Cause where
  | unexpectedEnd
  | unexpectedToken (token : String)
  | invalid (explanation : String)
deriving DecidableEq, Repr

/-- A text that is not a test, and why. -/
structure PredicateError where
  text : String
  cause : PredicateError.Cause
deriving DecidableEq, Repr

/-- The wording of a refused text. -/
def PredicateError.message (e : PredicateError) : String :=
  match e.cause with
  | .unexpectedEnd => "unexpected end of predicate '" ++ e.text ++ "'"
  | .unexpectedToken token => "unexpected token '" ++ token ++ "' in predicate '" ++ e.text ++ "'"
  | .invalid explanation => "invalid predicate '" ++ e.text ++ "': " ++ explanation

/-- Reads the text of a filter. -/
abbrev PredicateEngine (P : Type) := String → Except PredicateError P

end MapStyle
