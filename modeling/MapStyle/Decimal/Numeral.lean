/-!
# Decimal numerals

What a decimal numeral looks like when it is written, and the number it stands for. An integer
numeral is an optional sign and at least one digit; a general numeral may also have one point among
its digits and an exponent behind `e` or `E`.
-/

namespace MapStyle.Decimal

/-- The number `digits · 10 ^ scale`, negated if `negative`. The sign is kept beside the number
because a zero may carry one too. -/
structure Numeral where
  negative : Bool
  digits : Nat
  scale : Int
deriving DecidableEq, Repr

/-- The number that a row of decimal digits denotes. -/
def ofDigits (ds : List Char) : Nat :=
  ds.foldl (fun n d => 10 * n + (d.toNat - '0'.toNat)) 0

/-- An optional sign, as "is it a minus", and what follows it. -/
def splitSign : List Char → Bool × List Char
  | '-' :: cs => (true, cs)
  | '+' :: cs => (false, cs)
  | cs => (false, cs)

/-- Reads an integer numeral that fills the whole text. -/
def readInt? (cs : List Char) : Option Int :=
  let (negative, ds) := splitSign cs
  if ds.isEmpty || !ds.all Char.isDigit then none
  else some (if negative then -(ofDigits ds : Int) else ofDigits ds)

/-- The digits behind a point, if the text goes on with a point, and what follows them. -/
def splitFraction : List Char → List Char × List Char
  | '.' :: cs => (cs.takeWhile Char.isDigit, cs.dropWhile Char.isDigit)
  | cs => ([], cs)

/-- Reads the exponent that ends a numeral; no text at all stands for the exponent zero. -/
def readExponent? : List Char → Option Int
  | [] => some 0
  | c :: cs => if c == 'e' || c == 'E' then readInt? cs else none

namespace Numeral

/-- Reads a general numeral that fills the whole text. -/
def read? (cs : List Char) : Option Numeral :=
  let (negative, cs) := splitSign cs
  let whole := cs.takeWhile Char.isDigit
  let (fraction, rest) := splitFraction (cs.dropWhile Char.isDigit)
  if whole.isEmpty && fraction.isEmpty then none
  else (readExponent? rest).map fun e =>
    ⟨negative, ofDigits (whole ++ fraction), e - fraction.length⟩

/-- The double-precision number nearest to a numeral. Above `10 ^ 310` that is infinity and below
`10 ^ -330` it is zero, so no larger power of ten is ever computed. -/
def toFloat (n : Numeral) : Float :=
  let size : Int := (Nat.toDigits 10 n.digits).length + n.scale
  let magnitude : Float :=
    if n.digits = 0 || size < -330 then 0
    else if size > 310 then 1 / 0
    else Float.ofScientific n.digits (n.scale < 0) n.scale.natAbs
  if n.negative then -magnitude else magnitude

end Numeral

end MapStyle.Decimal
