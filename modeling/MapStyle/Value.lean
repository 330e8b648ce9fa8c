import MapStyle.Candidate
import MapStyle.Color

/-!
# Property values

What stands behind the colon of a declaration, and what it becomes on a candidate: attribute
references are replaced by the candidate's attributes, and the calls that compute a colour are
carried out.
-/

namespace MapStyle

/-- An argument of a function call. -/
inductive Argument where
  | literal (value : Literal)
  | reference (name : String)
deriving DecidableEq, Repr

/-- A function call that is kept as it stands. -/
structure Call where
  name : String
  args : List Argument
deriving DecidableEq, Repr

/-- The value of a property. A composite holds the values of a repeated property. -/
inductive Value where
  | literal (value : Literal)
  | list (items : List Float)
  | reference (name : String)
  | call (call : Call)
  | composite (parts : List Value)

instance : Inhabited Value := ⟨.list []⟩

/-- The colours that `randcolor()` draws, one after another. -/
abbrev Palette := Nat → Rgba

namespace Argument

/-- The literal that an argument is. -/
def asLiteral? : Argument → Option Literal
  | literal value => some value
  | reference _ => none

/-- The argument as a number. -/
def asFloat? (a : Argument) : Option Float :=
  a.asLiteral?.bind Literal.asFloat?

/-- The argument as a colour. -/
def asColor? (a : Argument) : Option Rgba :=
  (a.asLiteral?.bind Literal.asText?).bind Rgba.parse?

/-- The attribute that an argument names. -/
def fields : Argument → List String
  | literal _ => []
  | reference name => [name]

/-- The argument with the attributes of a candidate filled in. -/
def resolve? (c : Candidate) : Argument → Option Argument
  | literal value => some (literal value)
  | reference name => (c name).map literal

/-- The written form of an argument. Strings with a blank, a comma or a closing parenthesis are
quoted. -/
def display : Argument → String
  | literal (.string s) =>
    if s.toList.any fun ch => ch == ' ' || ch == ',' || ch == ')' then "'" ++ s ++ "'" else s
  | literal value => value.display
  | reference name => "[" ++ name ++ "]"

/-- Equality of arguments, with floating-point numbers equal as numbers. -/
def equal : Argument → Argument → Bool
  | literal a, literal b => a.equal b
  | reference a, reference b => a == b
  | _, _ => false

end Argument

namespace Call

/-- Whether a call draws a colour at random. -/
def isRandom (call : Call) : Bool :=
  Text.sameWord call.name "randcolor"

/-- The written form of a call. -/
def display (call : Call) : String :=
  call.name ++ "(" ++ String.intercalate ", " (call.args.map Argument.display) ++ ")"

/-- The position of a value between two others. If these coincide, everything up to them is at the
start and everything above at the end. -/
def position (value low high : Float) : Float :=
  if high == low then (if value ≤ low then 0 else 1) else (value - low) / (high - low)

/-- The colour that an interpolation computes: the value's position between two numbers, taken on
the way between two colours. -/
def interpolate? : List Argument → Option Rgba
  | [value, first, last, low, high] => do
    let value ← value.asFloat?
    let low ← low.asFloat?
    let high ← high.asFloat?
    let first ← first.asColor?
    let last ← last.asColor?
    pure (first.lerp last (position value low high))
  | _ => none

/-- The colour that a call computes once its arguments are known, if it computes one. -/
def evaluate? (drawn : Rgba) (call : Call) : Option Rgba :=
  if call.isRandom then some drawn
  else if Text.sameWord call.name "interpolate" then interpolate? call.args
  else none

/-- The call with the attributes of a candidate filled in. -/
def resolve? (c : Candidate) (call : Call) : Option Call :=
  (call.args.mapM (Argument.resolve? c)).map fun args => { call with args }

/-- The attributes that the arguments of a call name. -/
def fields (call : Call) : List String :=
  call.args.flatMap Argument.fields

end Call

namespace Value

/-- A string value. -/
def string (s : String) : Value :=
  literal (.string s)

/-- A colour value, as it was written. -/
def color (s : String) : Value :=
  literal (.color s)

/-- The literal that a value is. -/
def asLiteral? : Value → Option Literal
  | literal value => some value
  | _ => none

/-- The value as a number. -/
def asFloat? (v : Value) : Option Float :=
  v.asLiteral?.bind Literal.asFloat?

/-- The value as a text. -/
def asText? (v : Value) : Option String :=
  v.asLiteral?.bind Literal.asText?

/-- The value as a truth value; the words `true` and `false` count in any case. -/
def asBool? : Value → Option Bool
  | literal (.boolean b) => some b
  | literal (.string s) =>
    if Text.sameWord s "true" then some true
    else if Text.sameWord s "false" then some false
    else none
  | _ => none

/-- The pieces of a text between blanks and commas, without the empty ones. -/
def words (s : String) : List String :=
  ((s.toList.splitOnP fun ch => ch == ' ' || ch == ',').filter (!·.isEmpty)).map String.ofList

/-- The value as a list of numbers. A string is cut at blanks and commas, and each piece has to be a
number. -/
def numbers? : Value → Option (List Float)
  | list items => some items
  | literal (.string s) => (words s).mapM fun w => (Literal.parseNumber? w).bind Literal.asFloat?
  | literal value => value.asFloat?.map ([·])
  | _ => none

mutual

/-- How many colours a value draws at random. -/
def draws : Value → Nat
  | call c => if c.isRandom then 1 else 0
  | composite parts => drawsList parts
  | _ => 0

/-- How many colours the values of a list draw at random. -/
def drawsList : List Value → Nat
  | [] => 0
  | v :: vs => draws v + drawsList vs

end

mutual

/-- What a value becomes on a candidate. There is nothing if an attribute is missing that the value
names. Calls that compute a colour become that colour; others stay with their arguments known. -/
def resolve? (palette : Palette) (c : Candidate) : Value → Option Value
  | literal value => some (literal value)
  | list items => some (list items)
  | reference name => (c name).map literal
  | call f =>
    (f.resolve? c).map fun f =>
      match f.evaluate? (palette 0) with
      | some rgba => color rgba.display
      | none => call f
  | composite parts => (resolveList? palette c parts).map composite

/-- What the values of a list become on a candidate. Each value draws its random colours behind
those of the values before it. -/
def resolveList? (palette : Palette) (c : Candidate) : List Value → Option (List Value)
  | [] => some []
  | v :: vs => do
    let w ← resolve? palette c v
    let ws ← resolveList? (fun n => palette (n + v.draws)) c vs
    pure (w :: ws)

end

mutual

/-- The attributes that a value names, in reading order. -/
def fields : Value → List String
  | reference name => [name]
  | call f => f.fields
  | composite parts => fieldsList parts
  | _ => []

/-- The attributes that the values of a list name. -/
def fieldsList : List Value → List String
  | [] => []
  | v :: vs => fields v ++ fieldsList vs

end

mutual

/-- The written form of a value. -/
def display : Value → String
  | literal value => value.display
  | list items => String.intercalate " " (items.map Decimal.text)
  | reference name => "[" ++ name ++ "]"
  | call f => f.display
  | composite parts => String.intercalate ", " (displayList parts)

/-- The written forms of the values of a list. -/
def displayList : List Value → List String
  | [] => []
  | v :: vs => display v :: displayList vs

end

/-- Equality of two rows of numbers. -/
def equalFloats (xs ys : List Float) : Bool :=
  xs.length == ys.length && (xs.zip ys).all fun (x, y) => x == y

/-- Equality of two rows of arguments. -/
def equalArguments (xs ys : List Argument) : Bool :=
  xs.length == ys.length && (xs.zip ys).all fun (x, y) => x.equal y

mutual

/-- Equality of values, with floating-point numbers equal as numbers. -/
def equal : Value → Value → Bool
  | literal a, literal b => a.equal b
  | list xs, list ys => equalFloats xs ys
  | reference a, reference b => a == b
  | call f, call g => f.name == g.name && equalArguments f.args g.args
  | composite vs, composite ws => equalList vs ws
  | _, _ => false

/-- Equality of two lists of values, part by part. -/
def equalList : List Value → List Value → Bool
  | [], [] => true
  | v :: vs, w :: ws => equal v w && equalList vs ws
  | _, _ => false

end

end Value

end MapStyle
