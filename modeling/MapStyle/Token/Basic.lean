import MapStyle.Text

/-!
# Tokens

The units that the stylesheet grammar is written in. A token knows its kind, the characters it was
written with, what they stand for, and where it was found.
-/

namespace MapStyle

/-- A place in a text: line and column count from one, and columns count UTF-16 code units. Places count
without a limit; texts with more lines or columns than 32 bits can count are out of scope. -/
structure Location where
  line : Nat := 1
  column : Nat := 1
deriving DecidableEq, Repr

namespace Location

/-- How many columns a character takes. -/
def width (c : Char) : Nat :=
  if c.toNat < 0x10000 then 1 else 2

/-- The place behind some characters. A line ends with a line feed, a form feed, a carriage return,
or a carriage return and a line feed. -/
def advance (l : Location) : List Char → Location
  | [] => l
  | '\r' :: '\n' :: cs => advance ⟨l.line + 1, 1⟩ cs
  | c :: cs =>
    if c = '\n' || c = '\r' || c = '\x0c' then advance ⟨l.line + 1, 1⟩ cs
    else advance ⟨l.line, l.column + width c⟩ cs

/-- The text of a place. -/
def display (l : Location) : String :=
  toString l.line ++ ":" ++ toString l.column

end Location

/-- The kinds of tokens. A hash sign with a name is a colour literal, wherever it stands. -/
inductive TokenKind where
  | whitespace
  | delimiter
  | identifier
  | number
  | string
  | colorLiteral
  | functionStart
  | operator
deriving DecidableEq, Repr

/-- What a kind of token is called in messages. -/
def TokenKind.describe : TokenKind → String
  | whitespace => "whitespace"
  | delimiter => "delimiter"
  | identifier => "identifier"
  | number => "number"
  | string => "string"
  | colorLiteral => "color literal"
  | functionStart => "function call"
  | operator => "operator"

/-- A token: `raw` is what was written, comments before it included, and `text` what that says. -/
structure Token where
  kind : TokenKind
  raw : String
  text : String
  location : Location
deriving DecidableEq, Repr

namespace Token

/-- Whether a token is white space. -/
def isWhitespace (t : Token) : Bool :=
  t.kind == .whitespace

/-- Whether a token is a certain delimiter. -/
def isDelimiter (t : Token) (text : String) : Bool :=
  t.kind == .delimiter && t.text == text

/-- Whether a token is a certain operator. -/
def isOperator (t : Token) (text : String) : Bool :=
  t.kind == .operator && t.text == text

/-- Whether a token is a certain word, in whatever case. -/
def isKeyword (t : Token) (word : String) : Bool :=
  t.kind == .identifier && Text.sameWord t.text word

/-- Whether a token may start a selector. -/
def startsSelector (t : Token) : Bool :=
  match t.kind with
  | .colorLiteral | .identifier => true
  | .operator => t.text == "." || t.text == "*"
  | .delimiter => t.text == "[" || t.text == ":"
  | _ => false

end Token

end MapStyle
