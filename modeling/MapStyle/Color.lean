import MapStyle.Text
import MapStyle.Decimal.Binary

/-!
# Colours

Colours with an alpha channel, how they are written and read, and the mixing of two colours.
-/

namespace MapStyle

/-- A colour as four bytes; an alpha of 255 hides what lies below. -/
structure Rgba where
  red : UInt8
  green : UInt8
  blue : UInt8
  alpha : UInt8
deriving DecidableEq, Repr

namespace Rgba

/-- A colour that hides what lies below. -/
def solid (red green blue : UInt8) : Rgba :=
  ⟨red, green, blue, 255⟩

/-- The colour names and what they stand for. -/
def named : List (String × Rgba) :=
  [("black", solid 0 0 0), ("white", solid 255 255 255), ("red", solid 255 0 0),
   ("green", solid 0 128 0), ("blue", solid 0 0 255), ("yellow", solid 255 255 0),
   ("cyan", solid 0 255 255), ("aqua", solid 0 255 255), ("magenta", solid 255 0 255),
   ("fuchsia", solid 255 0 255), ("gray", solid 128 128 128), ("grey", solid 128 128 128),
   ("silver", solid 192 192 192), ("maroon", solid 128 0 0), ("olive", solid 128 128 0),
   ("lime", solid 0 255 0), ("navy", solid 0 0 128), ("purple", solid 128 0 128),
   ("teal", solid 0 128 128), ("orange", solid 255 165 0), ("brown", solid 165 42 42),
   ("transparent", ⟨0, 0, 0, 0⟩)]

/-- The value of a hexadecimal digit, in either case. -/
def hexValue? (c : Char) : Option UInt8 :=
  if '0' ≤ c ∧ c ≤ '9' then some (.ofNat (c.toNat - 48))
  else if 'a' ≤ c ∧ c ≤ 'f' then some (.ofNat (c.toNat - 87))
  else if 'A' ≤ c ∧ c ≤ 'F' then some (.ofNat (c.toNat - 55))
  else none

/-- A colour from the values of its hexadecimal digits: one or two digits for each channel, with or
without the alpha channel. A single digit stands for itself twice. -/
def ofHexValues? : List UInt8 → Option Rgba
  | [r, g, b] => some (solid (17 * r) (17 * g) (17 * b))
  | [r, g, b, a] => some ⟨17 * r, 17 * g, 17 * b, 17 * a⟩
  | [r, r', g, g', b, b'] => some (solid (16 * r + r') (16 * g + g') (16 * b + b'))
  | [r, r', g, g', b, b', a, a'] => some ⟨16 * r + r', 16 * g + g', 16 * b + b', 16 * a + a'⟩
  | _ => none

/-- Reads a colour, with blanks around it ignored: hexadecimal digits behind `#`, or a name in any
case. -/
def parse? (text : String) : Option Rgba :=
  match Text.trimChars text.toList with
  | '#' :: digits => (digits.mapM hexValue?).bind ofHexValues?
  | name => (named.find? fun entry => Text.sameWord entry.1 (String.ofList name)).map (·.2)

/-- The hexadecimal digit of a value below sixteen. -/
def hexDigit (n : UInt8) : Char :=
  Nat.digitChar n.toNat

/-- Two hexadecimal digits for a byte. -/
def hexByte (n : UInt8) : List Char :=
  [hexDigit (n / 16), hexDigit (n % 16)]

/-- The hexadecimal digits of the three colour channels. -/
def hexChannels (c : Rgba) : List Char :=
  hexByte c.red ++ hexByte c.green ++ hexByte c.blue

/-- The eight-digit text of a colour, which always shows the alpha channel. -/
def displayWithAlpha (c : Rgba) : String :=
  String.ofList ('#' :: (c.hexChannels ++ hexByte c.alpha))

/-- The text of a colour, which shows the alpha channel unless it is 255. -/
def display (c : Rgba) : String :=
  if c.alpha = 255 then String.ofList ('#' :: c.hexChannels) else c.displayWithAlpha

/-- A position between two ends, brought into the range from zero to one. -/
def clampUnit (t : Float) : Float :=
  if t < 0 then 0 else if t > 1 then 1 else t

/-- The byte at position `t` on the way from `a` to `b`. -/
def mixByte (a b : UInt8) (t : Float) : UInt8 :=
  Decimal.nearestByte (a.toFloat + (b.toFloat - a.toFloat) * t)

/-- The colour at position `t` on the way from one colour to another, channel by channel. -/
def lerp (c d : Rgba) (t : Float) : Rgba :=
  let t := clampUnit t
  ⟨mixByte c.red d.red t, mixByte c.green d.green t, mixByte c.blue d.blue t,
    mixByte c.alpha d.alpha t⟩

end Rgba

end MapStyle
