import MapStyle.Decimal.Shortest

/-!
# Digits in limited precision

The decimal digits of a single-precision number, found with 32 significant bits in every step. The
number and the interval of the decimals that read back as it are multiplied by a power of ten, so
that the digits can be searched near the point. Powers of ten and products are rounded to 32 bits,
so the interval is made a little smaller at both ends: what is found in it reads back as the number,
but it need not be the shortest such text nor the nearest one.
-/

namespace MapStyle.Decimal

/-- The number `significand · 2 ^ exponent` in limited precision: the significand has 32 bits. -/
structure Limited where
  significand : Nat
  exponent : Int
deriving DecidableEq, Repr

namespace Limited

/-- The natural number nearest to `m / n`; a half goes up. -/
def nearest (m n : Nat) : Nat :=
  (2 * m + n) / (2 * n)

/-- The power `10 ^ p` rounded to the nearest number in limited precision. -/
def powerOfTen (p : Int) : Limited :=
  let n := Nat.pow 10 p.natAbs
  if 0 ≤ p then
    let e : Int := n.log2 - 31
    ⟨nearest (n * Nat.pow 2 (-e).toNat) (Nat.pow 2 e.toNat), e⟩
  else
    let shift := n.log2 + 32
    ⟨nearest (Nat.pow 2 shift) n, -shift⟩

/-- The upper 32 bits of the product of two numbers below `2 ^ 32`; a half goes up. -/
def upperProduct (m n : Nat) : Nat :=
  nearest (m * n) (Nat.pow 2 32)

/-- The power of ten that a number with 32 bits and this exponent is multiplied by: the first of
…, `10 ^ -4`, `10 ^ 4`, `10 ^ 12`, … for which the product has at most 28 bits behind the point. -/
def decadeFor (exponent : Int) : Int :=
  let least := -((exponent + 29) * 30103 / 100000)
  (least + 3) / 8 * 8 + 4

end Limited

namespace Interval

/-- The same interval, its number written with 32 bits. -/
def normalized (i : Interval) : Interval :=
  let shift := 31 - i.value.log2
  let factor := Nat.pow 2 shift
  ⟨i.low * factor, i.value * factor, i.high * factor, i.exponent - shift, i.closed⟩

/-- A closed interval within the product of a normalized interval and a number in limited precision.
A product is off by less than one unit, so each end moves inwards by one. -/
def times (i : Interval) (c : Limited) : Interval where
  low := Limited.upperProduct i.low c.significand + 1
  value := Limited.upperProduct i.value c.significand
  high := Limited.upperProduct i.high c.significand - 1
  exponent := i.exponent + c.exponent + 32
  closed := true

end Interval

/-- The digits of `x` in limited precision. -/
def Positive.limitedDigits (x : Positive) : Digits :=
  let i := x.interval.normalized
  let p := Limited.decadeFor i.exponent
  (i.times (.powerOfTen p)).shortest.shift (-p)

end MapStyle.Decimal
