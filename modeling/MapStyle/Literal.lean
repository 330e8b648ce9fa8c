import MapStyle.Text
import MapStyle.Decimal.Numeral
import MapStyle.Decimal.Binary

/-!
# Literals

The scalar values that stylesheets and features are made of, the typed views on them, and the rule
by which a text counts as a number.
-/

namespace MapStyle

open Decimal

/-- A scalar value. A colour is kept as it was written. -/
inductive Literal where
  | integer (value : Int64)
  | float (value : Float)
  | boolean (value : Bool)
  | string (text : String)
  | color (text : String)
deriving DecidableEq, Repr

namespace Literal

/-- The integers that fit into a literal. -/
def inRange (n : Int) : Bool :=
  Int64.minValue.toInt ≤ n && n ≤ Int64.maxValue.toInt

/-- Reads a number, with blanks around it ignored: an integer numeral in the range of 64-bit words
is an integer, any other numeral is a floating-point number. -/
def parseNumber? (text : String) : Option Literal :=
  let cs := Text.trimChars text.toList
  match (readInt? cs).filter inRange with
  | some n => some (.integer (.ofInt n))
  | none => (Numeral.read? cs).map fun n => .float n.toFloat

/-- The value as a floating-point number. A string counts if it reads as a number. -/
def asFloat? : Literal → Option Float
  | integer n => some (Float.ofInt n.toInt)
  | float x => some x
  | string s =>
    match parseNumber? s with
    | some (integer n) => some (Float.ofInt n.toInt)
    | some (float x) => some x
    | _ => none
  | boolean _ | color _ => none

/-- The nearest integer that fits into a literal. -/
def clampInt (n : Int) : Int64 :=
  .ofInt (max Int64.minValue.toInt (min Int64.maxValue.toInt n))

/-- The value as an integer. A floating-point number counts if it has no fraction, and is then
brought into the range of 64-bit words; a string counts if it reads as an integer. -/
def asInt? : Literal → Option Int64
  | integer n => some n
  | float x => (Decoded.ofFloat x).toInt?.map clampInt
  | string s =>
    match parseNumber? s with
    | some (integer n) => some n
    | _ => none
  | boolean _ | color _ => none

/-- The text of a string or of a colour. -/
def asText? : Literal → Option String
  | string s | color s => some s
  | _ => none

/-- Integers and floating-point numbers are numeric, numeric strings are not. -/
def isNumeric : Literal → Bool
  | integer _ | float _ => true
  | _ => false

/-- The plain text of a value. -/
def display : Literal → String
  | integer n => toString n.toInt
  | float x => Decimal.text x
  | boolean b => if b then "true" else "false"
  | string s | color s => s

/-- Equality of values: of one kind, and floating-point numbers equal as numbers. -/
def equal : Literal → Literal → Bool
  | integer m, integer n => m == n
  | float x, float y => x == y
  | boolean a, boolean b => a == b
  | string s, string t => s == t
  | color s, color t => s == t
  | _, _ => false

/-- The order of two values: by number if both can be read as numbers, else by truth value or by
text. Values without a common reading have no order. -/
def compare? (l r : Literal) : Option Ordering :=
  match l.asFloat?, r.asFloat? with
  | some x, some y =>
    if x < y then some .lt else if x == y then some .eq else if y < x then some .gt else none
  | _, _ =>
    match l, r with
    | boolean a, boolean b => some (compare a b)
    | _, _ =>
      match l.asText?, r.asText? with
      | some s, some t => some (compare s t)
      | _, _ => none

end Literal

end MapStyle
