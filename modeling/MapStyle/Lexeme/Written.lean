import MapStyle.Lexeme.Basic
import MapStyle.Decimal.Numeral
import MapStyle.Decimal.Binary
import MapStyle.Decimal.Limited

/-!
# The canonical text of a lexeme

Error messages show a lexeme in canonical form: names and strings with the escapes that they need
and no others, strings in double quotes, and numbers in single precision with six significant
digits.
-/

namespace MapStyle

open Decimal

/-! ### Numbers -/

namespace WrittenNumber

/-- The number behind a point, digit by digit. -/
def fractionValue (ds : List Char) : Float :=
  (ds.foldl (fun (sum, unit) d => (sum + (d.toNat - 48).toFloat * unit, unit * 0.1))
    ((0.0 : Float), (0.1 : Float))).1

/-- The number that a row of digits denotes, in floating point. -/
def wholeValue (ds : List Char) : Float :=
  ds.foldl (fun sum d => sum * 10 + (d.toNat - 48).toFloat) 0

/-- The value of a written number, in floating point from digit to digit. -/
def value (n : WrittenNumber) : Float :=
  let unit : Float := if n.sign = some '-' then -1 else 1
  let mantissa := unit * (wholeValue n.whole + fractionValue n.fraction)
  match n.exponent with
  | none => mantissa
  | some (negative, ds) =>
    let e := wholeValue ds
    mantissa * Float.pow 10 (if negative then -1 * e else 1 * e)

/-- Whether a number is written without a point and without an exponent. -/
def isInteger (n : WrittenNumber) : Bool :=
  n.fraction.isEmpty && n.exponent.isNone

end WrittenNumber

/-- How many digits of a number are shown, and for which positions of the point the positional
notation is used. -/
structure NumberStyle where
  significant : Nat
  leastPoint : Int
  greatestPoint : Int

/-- Six digits are shown. Positional notation covers the numbers from `10 ^ -6` up to `10 ^ 21`. -/
def NumberStyle.canonical : NumberStyle := ⟨6, -5, 21⟩

namespace Decimal.Digits

/-- The digits rounded to a given number of them; a half goes up. -/
def round (d : Digits) (n : Nat) : Digits :=
  match d.digits.drop n with
  | [] => d
  | next :: _ =>
    let kept := ofDigits (d.digits.take n)
    .ofScaled (if '5' ≤ next then kept + 1 else kept) (d.point - n)

/-- The text of digits in a given style, and whether it is all digits. The notation is chosen by the
number before it is rounded. -/
def styled (style : NumberStyle) (d : Digits) : List Char × Bool :=
  let r := d.round style.significant
  if style.leastPoint ≤ d.point ∧ d.point ≤ style.greatestPoint then
    let cs := r.positional
    (cs, !cs.contains '.')
  else
    let mantissa := Digits.positional ⟨r.digits, r.point - d.point + 1⟩
    (mantissa ++ 'e' :: (toString (d.point - 1)).toList, false)

end Decimal.Digits

namespace Lexeme

/-- The canonical text of a number. A sign that was written is kept, and a number that was written
with a point or an exponent does not come out as plain digits. Infinity and what is not a number
have no text of their own: their bit patterns are read as magnitudes like all others. -/
def writeNumber (n : WrittenNumber) (x : Float32) : List Char :=
  let decoded := Decoded.ofFloat32 x
  let magnitude := Positive.ofBits 8 23 x.toBits.toNat
  let (digits, plain) : List Char × Bool :=
    if magnitude.significand = 0 then (['0'], true)
    else magnitude.limitedDigits.styled .canonical
  let sign := match decoded.negative? with
    | some true => ['-']
    | some false => if n.sign.isSome then ['+'] else []
    | none => []
  let tail := if !n.isInteger && decoded.toInt?.isSome && plain then ['.', '0'] else []
  sign ++ digits ++ tail

/-! ### Names and strings -/

/-- An ASCII character by its code, in lower-case hexadecimal digits with a blank behind. -/
def hexEscape (c : Char) : List Char :=
  '\\' :: (Nat.toDigits 16 c.toNat ++ [' '])

/-- Whether a character has to be escaped by its code. -/
def isControl (c : Char) : Bool :=
  c.toNat < 0x20 || c.toNat == 0x7F

/-- The characters of a name behind its start. -/
def writeName (cs : List Char) : List Char :=
  cs.flatMap fun c =>
    if isNameChar c then [c]
    else if c = '\x00' then [replacement]
    else if isControl c then hexEscape c
    else ['\\', c]

/-- A name whose first character may not be a digit. -/
def writeUnsigned : List Char → List Char
  | c :: cs => if c.isDigit then hexEscape c ++ writeName cs else writeName (c :: cs)
  | [] => []

/-- The canonical text of a word. -/
def writeWord : List Char → List Char
  | '-' :: '-' :: cs => '-' :: '-' :: writeName cs
  | ['-'] => ['\\', '-']
  | '-' :: cs => '-' :: writeUnsigned cs
  | cs => writeUnsigned cs

/-- The characters of a string between its quotes. -/
def writeStringBody (cs : List Char) : List Char :=
  cs.flatMap fun c =>
    if c = '"' || c = '\\' then ['\\', c]
    else if c = '\x00' then [replacement]
    else if isControl c then hexEscape c
    else [c]

/-- The characters of a bare address. -/
def writeAddress (cs : List Char) : List Char :=
  cs.flatMap fun c =>
    if c.toNat ≤ 0x20 || c.toNat == 0x7F then hexEscape c
    else if c = '(' || c = ')' || c = '"' || c = '\'' || c = '\\' then ['\\', c]
    else [c]

/-- The canonical text of a unit. An `e` that would read as the start of an exponent is escaped. -/
def writeUnit : List Char → List Char
  | [c] => if c = 'e' || c = 'E' then "\\65 ".toList else writeWord [c]
  | c :: '-' :: cs =>
    if c = 'e' || c = 'E' then "\\65 ".toList ++ writeName ('-' :: cs)
    else writeWord (c :: '-' :: cs)
  | cs => writeWord cs

/-- The canonical text of a lexeme; a bracket or a function is shown by its opening. -/
def written : Lexeme → List Char
  | blank => [' ']
  | comment => "/**/".toList
  | word name => writeWord name.toList
  | function name => writeWord name.toList ++ ['(']
  | atWord name => '@' :: writeWord name.toList
  | hash name => '#' :: writeName name.toList
  | idHash name => '#' :: writeWord name.toList
  | string value => '"' :: (writeStringBody value.toList ++ ['"'])
  | brokenString value => '"' :: writeStringBody value.toList
  | url address => "url(".toList ++ writeAddress address.toList ++ [')']
  | brokenUrl contents => "url(".toList ++ contents.toList ++ [')']
  | number n => writeNumber n n.value.toFloat32
  | percentage n => writeNumber n ((n.value / 100).toFloat32 * 100) ++ ['%']
  | dimension n unit => writeNumber n n.value.toFloat32 ++ writeUnit unit.toList
  | colon => [':']
  | semicolon => [';']
  | comma => [',']
  | matcher first => [first, '=']
  | markupOpener => "<!--".toList
  | markupCloser => "-->".toList
  | opener b => [b.opener]
  | closer b => [b.closer]
  | delimiter c => [c]

end Lexeme

end MapStyle
