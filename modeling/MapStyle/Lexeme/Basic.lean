/-!
# Lexemes

The lexical units that stylesheets and filters are made of, as the CSS Syntax module defines them,
and the classes of characters that they are built from.
-/

namespace MapStyle

/-- The three kinds of brackets. -/
inductive Bracket where
  | paren | square | curly
deriving DecidableEq, Repr

/-- The character that opens a bracket. -/
def Bracket.opener : Bracket → Char
  | paren => '('
  | square => '['
  | curly => '{'

/-- The character that closes a bracket. -/
def Bracket.closer : Bracket → Char
  | paren => ')'
  | square => ']'
  | curly => '}'

/-- A number as it is written: an optional sign, digits before and behind the point, and an exponent
with a sign of its own. There is at least one digit before or behind the point. -/
structure WrittenNumber where
  sign : Option Char := none
  whole : List Char := []
  fraction : List Char := []
  exponent : Option (Bool × List Char) := none
deriving DecidableEq, Repr

/-- A lexical unit. Names, strings and addresses are held with their escapes replaced. -/
inductive Lexeme where
  | blank
  | comment
  | word (name : String)
  | function (name : String)
  | atWord (name : String)
  | hash (name : String)
  | idHash (name : String)
  | string (value : String)
  | brokenString (value : String)
  | url (address : String)
  | brokenUrl (contents : String)
  | number (n : WrittenNumber)
  | percentage (n : WrittenNumber)
  | dimension (n : WrittenNumber) (unit : String)
  | colon
  | semicolon
  | comma
  | matcher (first : Char)
  | markupOpener
  | markupCloser
  | opener (b : Bracket)
  | closer (b : Bracket)
  | delimiter (c : Char)
deriving DecidableEq, Repr

namespace Lexeme

/-- The character that stands for what cannot be represented. -/
def replacement : Char := '\uFFFD'

/-- A line break. -/
def isNewline (c : Char) : Bool :=
  c == '\n' || c == '\r' || c == '\x0c'

/-- A character between lexemes. -/
def isSpace (c : Char) : Bool :=
  c == ' ' || c == '\t' || isNewline c

/-- A character that a name may start with. -/
def isNameStart (c : Char) : Bool :=
  c.isAlpha || c == '_' || c == '\x00' || 0x80 ≤ c.toNat

/-- A character that a name may go on with and that stands for itself. -/
def isNameChar (c : Char) : Bool :=
  c.isAlphanum || c == '_' || c == '-' || 0x80 ≤ c.toNat

/-- A hexadecimal digit. -/
def isHexDigit (c : Char) : Bool :=
  c.isDigit || ('a' ≤ c && c ≤ 'f') || ('A' ≤ c && c ≤ 'F')

/-- The value of a hexadecimal digit. -/
def hexValue (c : Char) : Nat :=
  if c.isDigit then c.toNat - 48 else (c.toNat % 32) + 9

/-- A control character that no bare address may hold. -/
def isUnprintable (c : Char) : Bool :=
  let n := c.toNat
  (1 ≤ n && n ≤ 8) || n == 0x0B || (0x0E ≤ n && n ≤ 0x1F) || n == 0x7F

/-- The character with a given code point, or the replacement character if there is none that may be
written. -/
def ofCodePoint (n : Nat) : Char :=
  if n ≠ 0 ∧ n.isValidChar then Char.ofNat n else replacement

end Lexeme

end MapStyle
