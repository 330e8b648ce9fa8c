import MapStyle.Token.Basic
import MapStyle.Predicate
import MapStyle.Function

/-!
# Faults

Everything that can be wrong with a stylesheet, and how it is said.
-/

namespace MapStyle

/-- Where an unexpected token was found. -/
inductive Place where
  | topLevel
  | selector
  | afterSelectorName
  | ruleBody
  | declaration
  | betweenFilters
  | filter
  | outsideFilter
  | beforeCall
  | arguments
  | outsideCall
  | beforeReference
  | reference
  | outsideReference
  | mapBlock
deriving DecidableEq, Repr

/-- The words that name a place. -/
def Place.describe : Place → String
  | topLevel => "at top level"
  | selector => "in selector"
  | afterSelectorName => "after selector name"
  | ruleBody => "in rule body"
  | declaration => "in declaration"
  | betweenFilters => "between filters"
  | filter => "in filter"
  | outsideFilter => "outside of a filter"
  | beforeCall => "before function call"
  | arguments => "in function arguments"
  | outsideCall => "outside of a function call"
  | beforeReference => "before attribute reference"
  | reference => "in attribute reference"
  | outsideReference => "outside of an attribute reference"
  | mapBlock => "in Map block"

/-- What is wrong with the form of a stylesheet. -/
inductive Fault where
  | unterminatedString
  | malformedUrl
  | nestedTooDeep (limit : Nat)
  | unexpected (kind : TokenKind) (place : Place)
  | inputAfterLastRule
  | endInsideBlock
  | unterminatedSelector
  | missingClassName
  | missingSecondColon
  | missingAttachmentName
  | secondAttachment
  | secondId
  | emptySelectorBeforeComma
  | emptySelector
  | missingSelector
  | missingSelectorBeforeBrace
  | rulesTooDeep (limit : Nat)
  | unterminatedRule
  | unmatchedBrace
  | nestedOutsideRule
  | unterminatedDeclaration
  | missingColon
  | missingColonAfter (key : String)
  | missingValue (key : String)
  | mixedValue (key : String)
  | missingDeclaration
  | missingKey
  | declarationOutsideBlock
  | valueOutsideDeclaration
  | unterminatedFilter
  | emptyFilter
  | missingFilter
  | unterminatedCall
  | nestedCall
  | argumentOutsideCall
  | missingComma
  | missingArgumentBeforeComma
  | missingArgumentBeforeParen
  | invalidCall (name : String) (cause : FunctionError)
  | unterminatedReference
  | secondReferenceName
  | emptyReference
  | missingBraceAfterMap
  | unterminatedMap
deriving DecidableEq, Repr

/-- The wording of a fault. -/
def Fault.message : Fault → String
  | unterminatedString => "unterminated string"
  | malformedUrl => "malformed url"
  | nestedTooDeep limit => "nesting deeper than " ++ toString limit ++ " levels"
  | unexpected kind place => "unexpected " ++ kind.describe ++ " " ++ place.describe
  | inputAfterLastRule => "unexpected input after the last rule"
  | endInsideBlock => "unexpected end of input inside a block"
  | unterminatedSelector => "unterminated selector, expected '\x7b'"
  | missingClassName => "expected a class name after '.'"
  | missingSecondColon => "expected '::' before attachment name"
  | missingAttachmentName => "expected an attachment name after '::'"
  | secondAttachment => "selector has more than one attachment"
  | secondId => "selector has more than one id"
  | emptySelectorBeforeComma => "empty selector before ','"
  | emptySelector => "empty selector"
  | missingSelector => "expected a selector"
  | missingSelectorBeforeBrace => "expected a selector before '\x7b'"
  | rulesTooDeep limit => "rules nested deeper than " ++ toString limit ++ " levels"
  | unterminatedRule => "unterminated rule, expected '\x7d'"
  | unmatchedBrace => "unmatched '\x7d'"
  | nestedOutsideRule => "nested rule outside of a rule"
  | unterminatedDeclaration => "unterminated declaration, expected ';'"
  | missingColon => "expected ':' after property name"
  | missingColonAfter key => "expected ':' after '" ++ key ++ "'"
  | missingValue key => "missing value for '" ++ key ++ "'"
  | mixedValue key =>
    "'" ++ key ++ "' mixes an attribute reference or function call with other values"
  | missingDeclaration => "expected a declaration"
  | missingKey => "expected a property name"
  | declarationOutsideBlock => "declaration outside of a block"
  | valueOutsideDeclaration => "value outside of a declaration"
  | unterminatedFilter => "unterminated filter, expected ']'"
  | emptyFilter => "empty filter"
  | missingFilter => "expected a filter"
  | unterminatedCall => "unterminated function call, expected ')'"
  | nestedCall => "function calls cannot be arguments"
  | argumentOutsideCall => "argument outside of a function call"
  | missingComma => "expected ',' between arguments"
  | missingArgumentBeforeComma => "missing argument before ','"
  | missingArgumentBeforeParen => "missing argument before ')'"
  | invalidCall name cause => "invalid call to " ++ name ++ "(): " ++ cause.message
  | unterminatedReference => "unterminated attribute reference, expected ']'"
  | secondReferenceName => "attribute reference takes a single name"
  | emptyReference => "empty attribute reference"
  | missingBraceAfterMap => "expected '\x7b' after Map"
  | unterminatedMap => "unterminated Map block, expected '\x7d'"

/-- Where a fault shows: at a token, at a place between tokens, or at the end of the text. -/
inductive Near where
  | token (raw : String)
  | place
  | endOfInput
deriving DecidableEq, Repr

/-- The words that a message adds about the text nearby. -/
def Near.describe : Near → String
  | token raw => " (near '" ++ raw ++ "')"
  | place => ""
  | endOfInput => " (at end of input)"

/-- Why a stylesheet cannot be had. -/
inductive Error where
  | malformed (fault : Fault) (near : Near) (location : Location)
  | badFilter (text : String) (location : Location) (cause : PredicateError)
  | unreadable (path : String)
deriving DecidableEq, Repr

namespace Error

/-- A fault that shows at a token. -/
def atToken (fault : Fault) (t : Token) : Error :=
  malformed fault (.token t.raw) t.location

/-- A fault that shows between tokens. -/
def atPlace (fault : Fault) (l : Location) : Error :=
  malformed fault .place l

/-- A fault that shows at the end of the text; the place is that of the last token looked at. -/
def atEnd (fault : Fault) (l : Location) : Error :=
  malformed fault .endOfInput l

/-- A token of a kind that may not stand where it was found. -/
def unexpected (t : Token) (place : Place) : Error :=
  atToken (.unexpected t.kind place) t

/-- The words that name a place in a text. -/
def describePlace (l : Location) : String :=
  "line " ++ toString l.line ++ ", column " ++ toString l.column

/-- The wording of an error. -/
def message : Error → String
  | malformed fault near l =>
    "syntax error at " ++ describePlace l ++ ": " ++ fault.message ++ near.describe
  | badFilter text l _ => "invalid filter '[" ++ text ++ "]' at " ++ describePlace l
  | unreadable path => "failed to read stylesheet '" ++ path ++ "'"

end Error

end MapStyle
