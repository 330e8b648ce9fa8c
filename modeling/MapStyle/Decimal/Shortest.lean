import MapStyle.Decimal.Interval

/-!
# Shortest decimal digits

The decimal digits of a positive binary floating-point number: as few as identify it among the
numbers of its format. A decimal identifies the number if it reads back as that number, so the
decimals in question fill an interval that ends halfway to the neighbouring numbers.
-/

namespace MapStyle.Decimal

/-- The number `significand · 2 ^ exponent`. The gap to the next larger number of the format is
`2 ^ exponent`; the gap to the next smaller one is half of that if `narrowBelow`. -/
structure Positive where
  significand : Nat
  exponent : Int
  narrowBelow : Bool
deriving DecidableEq, Repr

namespace Positive

/-- The magnitude with a given exponent field and fraction, in a format with that many fraction bits
and that exponent bias. -/
def ofFields (fractionBits bias field fraction : Nat) : Positive :=
  if field = 0 then ⟨fraction, 1 - bias - fractionBits, false⟩
  else ⟨Nat.pow 2 fractionBits + fraction, (field : Int) - bias - fractionBits,
    fraction = 0 && field > 1⟩

/-- The magnitude that a bit pattern stands for, in a format with that many exponent and fraction
bits. The patterns that stand for no finite number continue the scale above the greatest of them. -/
def ofBits (exponentBits fractionBits bits : Nat) : Positive :=
  let scale := Nat.pow 2 fractionBits
  ofFields fractionBits (Nat.pow 2 (exponentBits - 1) - 1)
    (bits / scale % Nat.pow 2 exponentBits) (bits % scale)

/-- The interval of the decimals that read back as `x`: of all numbers of the format `x` is the
nearest to them, and of two equally near ones the one with the even significand. -/
def interval (x : Positive) : Interval where
  low := 4 * x.significand - (if x.narrowBelow then 1 else 2)
  value := 4 * x.significand
  high := 4 * x.significand + 2
  exponent := x.exponent - 2
  closed := x.significand % 2 = 0

/-- The shortest digits that read back as `x`, and of those the nearest. -/
def shortest (x : Positive) : Digits :=
  x.interval.shortest

end Positive

end MapStyle.Decimal
