/-!
# The shortest digits inside an interval

Given a number and an interval around it, the decimal digits that are as few as fit into the
interval, of those the nearest to the number, and of two equally near ones the larger. The grids of
decimal numbers with one digit, two digits and so on are searched in turn with exact integers; on
each of them only the two neighbours of the number need to be tried, because if any point of a grid
is in the interval, so is one of these two.
-/

namespace MapStyle.Decimal

/-- The number `0.d₁d₂… · 10 ^ point`. The digits start and end with one other than zero. -/
structure Digits where
  digits : List Char
  point : Int
deriving DecidableEq, Repr

/-- The digits of `n · 10 ^ k`, without zeros at the end. -/
def Digits.ofScaled (n : Nat) (k : Int) : Digits :=
  let ds := Nat.toDigits 10 n
  ⟨(ds.reverse.dropWhile (· == '0')).reverse, ds.length + k⟩

/-- The digits of the number multiplied by `10 ^ k`. -/
def Digits.shift (d : Digits) (k : Int) : Digits :=
  ⟨d.digits, d.point + k⟩

/-- The number `value · 2 ^ exponent` and the interval around it from `low · 2 ^ exponent` to
`high · 2 ^ exponent`, with its ends if `closed`. -/
structure Interval where
  low : Nat
  value : Nat
  high : Nat
  exponent : Int
  closed : Bool
deriving DecidableEq, Repr

namespace Interval

/-- A scale on which the steps of a decimal grid and those of an interval are both integers. -/
structure Scale where
  /-- One step of the decimal grid. -/
  decimal : Nat
  /-- One step of the interval. -/
  binary : Nat

/-- The scale on which `10 ^ k` and the bounds of the interval are integers. -/
def scale (i : Interval) (k : Int) : Scale :=
  ⟨Nat.pow 10 k.toNat * Nat.pow 2 (-i.exponent).toNat,
    Nat.pow 2 i.exponent.toNat * Nat.pow 10 (-k).toNat⟩

/-- Whether `d · 10 ^ k` is in the interval. -/
def contains (i : Interval) (k : Int) (d : Nat) : Bool :=
  let s := i.scale k
  let low := i.low * s.binary
  let high := i.high * s.binary
  let c := d * s.decimal
  if i.closed then low ≤ c && c ≤ high else low < c && c < high

/-- The multiple of `10 ^ k` just below the number, counted in units of `10 ^ k`. -/
def below (i : Interval) (k : Int) : Nat :=
  let s := i.scale k
  i.value * s.binary / s.decimal

/-- Whether the number is nearer to `d · 10 ^ k` than to `(d + 1) · 10 ^ k`. -/
def nearerBelow (i : Interval) (k : Int) (d : Nat) : Bool :=
  let s := i.scale k
  2 * (i.value * s.binary) < (2 * d + 1) * s.decimal

/-- Searches the grids `10 ^ k`, `10 ^ (k - 1)`, … for the first point inside the interval. The
number of grids is bounded by the first argument. -/
def search (i : Interval) : Nat → Int → Digits
  | 0, k => .ofScaled (i.below k) k
  | n + 1, k =>
    let d := i.below k
    match i.contains k d, i.contains k (d + 1) with
    | true, true => .ofScaled (if i.nearerBelow k d then d else d + 1) k
    | true, false => .ofScaled d k
    | false, true => .ofScaled (d + 1) k
    | false, false => i.search n (k - 1)

/-- The shortest digits inside the interval. The search starts above the leading digit of the number
and goes at most twenty digits below it. -/
def shortest (i : Interval) : Digits :=
  let top := (i.exponent + i.value.log2 + 1) * 30103 / 100000 + 2
  i.search 24 top

end Interval

end MapStyle.Decimal
