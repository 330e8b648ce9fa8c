import MapStyle.Decimal.Shortest

/-!
# Floating-point numbers taken apart

The exact meaning of a double-precision number and the text that is written for it: the shortest
digits that read back, in positional notation whatever the exponent, without a trailing point.
-/

namespace MapStyle.Decimal

/-- A floating-point number as what it stands for. -/
inductive Decoded where
  | notANumber
  | infinite (negative : Bool)
  | finite (negative : Bool) (magnitude : Positive)
deriving DecidableEq, Repr

/-- Takes a bit pattern apart, in a format with that many exponent and fraction bits. -/
def Decoded.ofBits (exponentBits fractionBits bits : Nat) : Decoded :=
  let fraction := bits % Nat.pow 2 fractionBits
  let field := bits / Nat.pow 2 fractionBits % Nat.pow 2 exponentBits
  let negative := bits / Nat.pow 2 (fractionBits + exponentBits) % 2 = 1
  if field = Nat.pow 2 exponentBits - 1 then
    if fraction = 0 then .infinite negative else .notANumber
  else .finite negative (.ofBits exponentBits fractionBits bits)

/-- Takes a double-precision number apart. -/
def Decoded.ofFloat (x : Float) : Decoded :=
  .ofBits 11 52 x.toBits.toNat

/-- Takes a single-precision number apart. -/
def Decoded.ofFloat32 (x : Float32) : Decoded :=
  .ofBits 8 23 x.toBits.toNat

/-- Whether a number has a minus sign, which a zero may have too. What is not a number has no sign.
-/
def Decoded.negative? : Decoded → Option Bool
  | .notANumber => none
  | .infinite negative => some negative
  | .finite negative _ => some negative

/-- The integer that a floating-point number is, if it is one. -/
def Decoded.toInt? : Decoded → Option Int
  | .finite negative ⟨s, e, _⟩ =>
    let magnitude : Option Nat :=
      if 0 ≤ e then some (s * Nat.pow 2 e.toNat)
      else if s % Nat.pow 2 (-e).toNat = 0 then some (s / Nat.pow 2 (-e).toNat)
      else none
    magnitude.map fun n => if negative then -(n : Int) else n
  | _ => none

/-- Digits in positional notation: zeros fill the places up to the point, and no point is written
behind an integer. -/
def Digits.positional (d : Digits) : List Char :=
  let length : Int := d.digits.length
  if d.point ≤ 0 then
    '0' :: '.' :: (List.replicate (-d.point).toNat '0' ++ d.digits)
  else if length ≤ d.point then
    d.digits ++ List.replicate (d.point - length).toNat '0'
  else d.digits.take d.point.toNat ++ '.' :: d.digits.drop d.point.toNat

/-- The text of a double-precision number: `NaN`, `inf`, or a sign and positional digits. -/
def text (x : Float) : String :=
  match Decoded.ofFloat x with
  | .notANumber => "NaN"
  | .infinite negative => if negative then "-inf" else "inf"
  | .finite negative magnitude =>
    let digits := if magnitude.significand = 0 then ['0'] else magnitude.shortest.positional
    String.ofList (if negative then '-' :: digits else digits)

/-- The byte nearest to a number; a half goes up, and a number outside the bytes goes to the nearer
end. What is not a number gives zero. -/
def nearestByte (x : Float) : UInt8 :=
  let whole := x.toUInt8
  if x - whole.toFloat ≥ 0.5 && whole < 255 then whole + 1 else whole

end MapStyle.Decimal
