import MapStyle.Fault
import MapStyle.Lexeme.Scan

/-!
# Token lists of texts

The lexemes of a text become tokens: comments join the token behind them, and a bracket that is
still open knows its own closer, which becomes a token of just that character. A token list can be
walked from front to back as a stream.
-/

namespace MapStyle

namespace Token

/-- The kind and text of the token that a lexeme becomes, given the characters that it took. -/
def describe (raw : List Char) : Lexeme → Except Fault (TokenKind × List Char)
  | .blank => .ok (.whitespace, [' '])
  | .comment => .ok (.whitespace, [])
  | .word name => .ok (.identifier, name.toList)
  | .function name => .ok (.functionStart, name.toList)
  | .hash name | .idHash name => .ok (.colorLiteral, '#' :: name.toList)
  | .number _ | .percentage _ | .dimension _ _ => .ok (.number, raw)
  | .string value | .url value => .ok (.string, value.toList)
  | .brokenString _ => .error .unterminatedString
  | .brokenUrl _ => .error .malformedUrl
  | .colon => .ok (.delimiter, [':'])
  | .semicolon => .ok (.delimiter, [';'])
  | .comma => .ok (.delimiter, [','])
  | .opener b => .ok (.delimiter, [b.opener])
  | .closer _ => .ok (.delimiter, raw)
  | .delimiter c => .ok (.operator, [c])
  | .atWord _ | .matcher _ | .markupOpener | .markupCloser => .ok (.operator, raw)

/-- The bracket that a lexeme opens; a function opens a parenthesis. -/
def opened? : Lexeme → Option Bracket
  | .opener b => some b
  | .function _ => some .paren
  | _ => none

/-- Turns lexemes into tokens. Given are the brackets that are open, innermost first, the comments
read since the last token, the place where these started, and the place that has been reached. -/
def ofLexemes (limit : Nat) (opened : List Bracket) (pending : List Char) (start here : Location) :
    List (Lexeme × List Char) → Except Error (List Token)
  | [] => .ok []
  | (lexeme, written) :: rest =>
    let after := here.advance written
    let tail (opened : List Bracket) := ofLexemes limit opened [] after after rest
    let raw := pending ++ written
    if lexeme = .comment then ofLexemes limit opened raw start after rest
    else if opened.head?.map Lexeme.closer = some lexeme then do
      let text := String.ofList written
      return ⟨.delimiter, text, text, here⟩ :: (← tail opened.tail)
    else
      match describe raw lexeme with
      | .error fault => .error (.atPlace fault start)
      | .ok (kind, text) => do
        let token : Token := ⟨kind, String.ofList raw, String.ofList text, start⟩
        match opened? lexeme with
        | none => return token :: (← tail opened)
        | some b =>
          if limit ≤ opened.length then .error (.atPlace (.nestedTooDeep limit) start)
          else return token :: (← tail (b :: opened))

/-- The tokens of a text, in which brackets may be nested up to a limit. -/
def ofText (limit : Nat) (text : String) : Except Error (List Token) :=
  ofLexemes limit [] [] {} {} (Lexeme.ofText text.toList)

end Token

/-- Tokens that are walked from front to back. -/
structure TokenStream where
  tokens : List Token

namespace TokenStream

/-- The token at hand. -/
def current (s : TokenStream) : Option Token :=
  s.tokens.head?

/-- Goes on to the next token; at the end nothing changes. -/
def advance (s : TokenStream) : TokenStream :=
  ⟨s.tokens.tail⟩

/-- How many tokens are left, with the one at hand. -/
def remaining (s : TokenStream) : Nat :=
  s.tokens.length

end TokenStream

end MapStyle
