import MapStyle.Cql.Expr
import MapStyle.Cql.Tree
import MapStyle.Lexeme.Written

/-!
# Reading attribute expressions

An expression is a list of conjunctions between OR, and a conjunction is a list of tests between
AND. A test may have any number of NOT before it, and is a group in parentheses, a comparison, or a
question for a missing attribute. Since one lexeme ahead always decides, the text is read from front
to back by a machine with a handful of phases, which goes into each group by itself.
-/

namespace MapStyle.Cql

/-- What has been read of the test at hand, and so what may follow. -/
inductive Phase where
  | test
  | left (operand : Operand)
  | sign (operand : Operand) (first : Char)
  | right (operand : Operand) (op : Comparator)
  | is (operand : Operand)
  | isNot (operand : Operand)
  | joined
deriving DecidableEq, Repr

/-- An expression of which a part has been read: the finished conjunctions, the finished tests of
the conjunction at hand, how often the test at hand is negated, and its phase. -/
structure Reading where
  disjuncts : List Expr := []
  conjuncts : List Expr := []
  negations : Nat := 0
  phase : Phase := .test

/-- A list of parts joined into one expression; a single part stands for itself. -/
def collapse (join : List Expr → Expr) : List Expr → Expr
  | [e] => e
  | es => join es

/-- Why a text is not an expression. -/
abbrev Refusal := PredicateError.Cause

/-- A lexeme that may not stand where it stands. -/
def refuse {α : Type} (lexeme : Lexeme) : Except Refusal α :=
  .error (.unexpectedToken (String.ofList lexeme.written))

/-- The operand that a lexeme is. -/
def Mark.operand (m : Mark) : Except Refusal Operand :=
  match m.lexeme with
  | .word w =>
    if Text.sameWord w "true" then .ok (.literal (.boolean true))
    else if Text.sameWord w "false" then .ok (.literal (.boolean false))
    else .ok (.reference w)
  | .string s => .ok (.literal (.string s))
  | .number _ =>
    match Literal.parseNumber? (String.ofList m.raw) with
    | some value => .ok (.literal value)
    | none => refuse m.lexeme
  | .hash h => .ok (.literal (.color ("#" ++ h)))
  | .idHash h => .ok (.literal (.color ("#" ++ h)))
  | lexeme => refuse lexeme

/-- Whether a lexeme is a keyword. -/
def Mark.isKeyword (m : Mark) (keyword : String) : Bool :=
  match m.lexeme with
  | .word w => Text.sameWord w keyword
  | _ => false

/-- The comparator that a second sign, written directly behind the first one, completes. -/
def Comparator.ofSigns? (first : Char) (m : Mark) : Option Comparator :=
  if m.spaced then none
  else
    match first, m.lexeme with
    | '<', .delimiter '=' => some .le
    | '<', .delimiter '>' => some .ne
    | '>', .delimiter '=' => some .ge
    | '!', .delimiter '=' => some .ne
    | _, _ => none

/-- The comparator that a single sign is. -/
def Comparator.ofSign? : Char → Option Comparator
  | '<' => some .lt
  | '>' => some .gt
  | _ => none

namespace Reading

/-- The same reading in another phase. -/
def enter (r : Reading) (phase : Phase) : Reading :=
  { r with phase }

/-- Finishes the test at hand. -/
def complete (r : Reading) (e : Expr) : Reading :=
  { r with
    conjuncts := r.conjuncts ++ [Nat.repeat Expr.not r.negations e]
    negations := 0
    phase := .joined }

/-- The conjunction at hand. -/
def conjunction (r : Reading) : Expr :=
  collapse .all r.conjuncts

/-- Reads one lexeme. -/
def step (r : Reading) (m : Mark) : Except Refusal Reading :=
  match r.phase with
  | .test =>
    if m.isKeyword "not" then .ok { r with negations := r.negations + 1 }
    else m.operand.map fun o => r.enter (.left o)
  | .left o =>
    if m.isKeyword "is" then .ok (r.enter (.is o))
    else
      match m.lexeme with
      | .delimiter '=' => .ok (r.enter (.right o .eq))
      | .delimiter '<' => .ok (r.enter (.sign o '<'))
      | .delimiter '>' => .ok (r.enter (.sign o '>'))
      | .delimiter '!' => .ok (r.enter (.sign o '!'))
      | lexeme => refuse lexeme
  | .sign o first =>
    match Comparator.ofSigns? first m with
    | some op => .ok (r.enter (.right o op))
    | none =>
      match Comparator.ofSign? first with
      | some op => m.operand.map fun right => r.complete (.compare o op right)
      | none => refuse (.delimiter first)
  | .right o op => m.operand.map fun right => r.complete (.compare o op right)
  | .is o =>
    if m.isKeyword "not" then .ok (r.enter (.isNot o))
    else if m.isKeyword "null" then .ok (r.complete (.isNull o false))
    else refuse m.lexeme
  | .isNot o =>
    if m.isKeyword "null" then .ok (r.complete (.isNull o true)) else refuse m.lexeme
  | .joined =>
    if m.isKeyword "and" then .ok (r.enter .test)
    else if m.isKeyword "or" then
      .ok { r with disjuncts := r.disjuncts ++ [r.conjunction], conjuncts := [], phase := .test }
    else refuse m.lexeme

/-- Reads a group, which may stand only where a test is expected. -/
def stepGroup (r : Reading) (inner : Except Refusal Expr) : Except Refusal Reading :=
  match r.phase with
  | .test => inner.map r.complete
  | .sign _ first =>
    if (Comparator.ofSign? first).isSome then refuse (.opener .paren) else refuse (.delimiter first)
  | _ => refuse (.opener .paren)

/-- The expression, once all has been read. -/
def finish (r : Reading) : Except Refusal Expr :=
  match r.phase with
  | .joined => .ok (collapse .any (r.disjuncts ++ [r.conjunction]))
  | .sign _ first =>
    if (Comparator.ofSign? first).isSome then .error .unexpectedEnd else refuse (.delimiter first)
  | _ => .error .unexpectedEnd

mutual

/-- Reads one tree. -/
def stepTree (r : Reading) : Tree → Except Refusal Reading
  | .leaf m => r.step m
  | .group trees => r.stepGroup (run {} trees)

/-- Reads trees to the end. -/
def run (r : Reading) : List Tree → Except Refusal Expr
  | [] => r.finish
  | t :: ts =>
    match stepTree r t with
    | .ok r => run r ts
    | .error e => .error e

end

end Reading

/-- Reads an expression that fills the whole text. -/
def Expr.parse : PredicateEngine Expr := fun text =>
  match Reading.run {} (Tree.ofText text.toList) with
  | .ok e => .ok e
  | .error cause => .error ⟨text, cause⟩

end MapStyle.Cql
