import MapStyle.Lexeme.Scan

/-!
# Bracketed texts

The text of a filter as a list of trees: its lexemes, with comments and blanks left out and with
what stands between parentheses as a tree of its own. A parenthesis that is never closed ends with
the text.
-/

namespace MapStyle.Cql

/-- A lexeme of a filter, the characters that it took, and whether a blank stands before it. -/
structure Mark where
  lexeme : Lexeme
  raw : List Char
  spaced : Bool
deriving DecidableEq, Repr

/-- A lexeme, or the contents of a pair of parentheses. -/
inductive Tree where
  | leaf (mark : Mark)
  | group (trees : List Tree)

namespace Mark

/-- The lexemes that carry meaning. -/
def ofLexemes (spaced : Bool) : List (Lexeme × List Char) → List Mark
  | [] => []
  | (.blank, _) :: rest => ofLexemes true rest
  | (.comment, _) :: rest => ofLexemes spaced rest
  | (lexeme, raw) :: rest => ⟨lexeme, raw, spaced⟩ :: ofLexemes false rest

/-- The lexemes of a text that carry meaning. -/
def ofText (cs : List Char) : List Mark :=
  ofLexemes false (Lexeme.ofText cs)

end Mark

namespace Tree

/-- The trees of a text that ends while groups are open. The trees read so far of the innermost
group and of those around it are given last tree first. -/
def endGroups (current : List Tree) : List (List Tree) → List Tree
  | [] => current.reverse
  | outer :: rest => endGroups (group current.reverse :: outer) rest

/-- The trees of a text of which a part has been read. -/
def build (current : List Tree) (around : List (List Tree)) : List Mark → List Tree
  | [] => endGroups current around
  | m :: ms =>
    match m.lexeme, around with
    | .opener .paren, _ => build [] (current :: around) ms
    | .closer .paren, outer :: rest => build (group current.reverse :: outer) rest ms
    | _, _ => build (leaf m :: current) around ms

/-- The trees of a text. -/
def ofText (cs : List Char) : List Tree :=
  build [] [] (Mark.ofText cs)

end Tree

end MapStyle.Cql
