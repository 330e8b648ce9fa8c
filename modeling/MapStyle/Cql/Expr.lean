import MapStyle.Predicate

/-!
# Attribute expressions

The tests of the ordinary filter language: comparisons of attributes and literals, tests for missing
attributes, and their combinations. This module gives them their meaning and their written form.
-/

namespace MapStyle.Cql

/-- One side of a comparison. -/
inductive Operand where
  | reference (name : String)
  | literal (value : Literal)
deriving DecidableEq, Repr

/-- The six ways to compare. -/
inductive Comparator where
  | eq | ne | lt | le | gt | ge
deriving DecidableEq, Repr

/-- An attribute test. -/
inductive Expr where
  | all (parts : List Expr)
  | any (parts : List Expr)
  | not (inner : Expr)
  | compare (left : Operand) (op : Comparator) (right : Operand)
  | isNull (operand : Operand) (negated : Bool)

namespace Comparator

/-- The written form of a comparator. -/
def symbol : Comparator → String
  | eq => "="
  | ne => "!="
  | lt => "<"
  | le => "<="
  | gt => ">"
  | ge => ">="

/-- Whether a comparator is true of two values in that order. -/
def accepts : Comparator → Ordering → Bool
  | eq, o => o.isEq
  | ne, o => !o.isEq
  | lt, o => o.isLT
  | le, o => !o.isGT
  | gt, o => o.isGT
  | ge, o => !o.isLT

end Comparator

namespace Operand

/-- The value of an operand on a candidate. -/
def resolve (c : Candidate) : Operand → Except EvalError Literal
  | reference name =>
    match c name with
    | some value => .ok value
    | none => .error (.missingAttribute name)
  | literal value => .ok value

/-- The attribute that an operand names. -/
def fields : Operand → List String
  | reference name => [name]
  | literal _ => []

/-- Whether an operand has no value on a candidate. -/
def isNull (c : Candidate) : Operand → Bool
  | reference name => (c name).isNone
  | literal _ => false

/-- A text in single quotes, with the quotes inside it doubled. -/
def quote (s : String) : String :=
  let body := s.toList.flatMap fun ch => if ch = '\'' then ['\'', '\''] else [ch]
  String.ofList ('\'' :: (body ++ ['\'']))

/-- The written form of an operand. -/
def display : Operand → String
  | reference name => name
  | literal (.string s) => quote s
  | literal (.boolean b) => if b then "TRUE" else "FALSE"
  | literal value => value.display

end Operand

namespace Comparator

/-- The outcome of comparing two values. Values without an order are unequal, and have no answer to
the other questions. -/
def test (op : Comparator) (l r : Literal) : Verdict EvalError :=
  match l.compare? r with
  | some o => .ok (op.accepts o)
  | none =>
    match op with
    | eq => .ok false
    | ne => .ok true
    | _ => .error (.incomparable l r)

end Comparator

namespace Expr

mutual

/-- What an expression says of a candidate. -/
def evaluate (c : Candidate) : Expr → Verdict EvalError
  | all parts => evaluateAll c parts
  | any parts => evaluateAny c parts
  | not inner => (evaluate c inner).not
  | compare left op right =>
    (left.resolve c).bind fun l => (right.resolve c).bind fun r => op.test l r
  | isNull operand negated => .ok (operand.isNull c != negated)

/-- The conjunction of the parts of a list. -/
def evaluateAll (c : Candidate) : List Expr → Verdict EvalError
  | [] => .ok true
  | e :: es => (evaluate c e).and (evaluateAll c es)

/-- The disjunction of the parts of a list. -/
def evaluateAny (c : Candidate) : List Expr → Verdict EvalError
  | [] => .ok false
  | e :: es => (evaluate c e).or (evaluateAny c es)

end

mutual

/-- The attributes that an expression names, in reading order. -/
def fields : Expr → List String
  | all parts => fieldsList parts
  | any parts => fieldsList parts
  | not inner => fields inner
  | compare left _ right => left.fields ++ right.fields
  | isNull operand _ => operand.fields

/-- The attributes that the expressions of a list name. -/
def fieldsList : List Expr → List String
  | [] => []
  | e :: es => fields e ++ fieldsList es

end

/-- A conjunction or disjunction, which is put into parentheses where it is part of another one. -/
def isCombined : Expr → Bool
  | all _ | any _ => true
  | _ => false

mutual

/-- The written form of an expression. -/
def display : Expr → String
  | all parts => String.intercalate " AND " (displayParts parts)
  | any parts => String.intercalate " OR " (displayParts parts)
  | not inner => "NOT (" ++ display inner ++ ")"
  | compare left op right => left.display ++ " " ++ op.symbol ++ " " ++ right.display
  | isNull operand negated => operand.display ++ (if negated then " IS NOT NULL" else " IS NULL")

/-- The written forms of the parts of a conjunction or disjunction. -/
def displayParts : List Expr → List String
  | [] => []
  | e :: es => (if e.isCombined then "(" ++ display e ++ ")" else display e) :: displayParts es

end

end Expr

instance : Predicate Expr where
  display := Expr.display
  evaluate e c := e.evaluate c
  fields := Expr.fields

end MapStyle.Cql
