import MapStyle.Cql.Reading
import MapStyle.Filter
import MapStyle.Proofs.Printing.Spelling

/-!
# Written expressions

Both an expression and a filter are written as tests with AND between them, or with OR, some of which
stand in parentheses. The engine reads such a text back as the expression that it was written from, if
the names and strings in it are plain. A filter puts each of its parts in parentheses, so what is read
from its text is one expression that means the same.
-/

namespace MapStyle.Cql

open Lexeme

/-! ### Plain operands -/

/-- A text that is `#` and an identifier. -/
def IsPlainColor (s : String) : Prop :=
  ∃ w, s.toList = '#' :: w ∧ IsIdentifier w

/-- An operand that is written in one way only: an attribute whose name is no keyword, an integer, a
truth value, a plain colour, or a string that needs no escapes. -/
inductive Operand.IsPlain : Operand → Prop
  | reference {name : String} (hname : IsIdentifier name.toList)
      (hkeyword : ∀ keyword ∈ ["not", "true", "false"], ¬ Text.sameWord name keyword) :
      IsPlain (.reference name)
  | integer (n : Int64) : IsPlain (.literal (.integer n))
  | boolean (b : Bool) : IsPlain (.literal (.boolean b))
  | string {s : String} (hs : ∀ c ∈ s.toList, isQuotable c) : IsPlain (.literal (.string s))
  | color {s : String} (hs : IsPlainColor s) : IsPlain (.literal (.color s))

/-- The lexeme of a word. -/
def word (s : String) : Lexeme × List Char :=
  (.word s, s.toList)

/-- The lexeme of one blank. -/
def blank : Lexeme × List Char :=
  (.blank, [' '])

/-- The lexeme that an operand is written as. -/
def Operand.lexeme : Operand → Lexeme × List Char
  | .reference name => word name
  | .literal (.boolean b) => word (if b then "TRUE" else "FALSE")
  | .literal (.string s) => (.string s, '\'' :: (s.toList ++ ['\'']))
  | .literal (.color s) => (.idHash (String.ofList s.toList.tail), s.toList)
  | .literal l => (.number (ofNumeral l.display.toList), l.display.toList)

/-- The lexemes that a comparator is written as. -/
def Comparator.lexemes (op : Comparator) : List (Lexeme × List Char) :=
  op.symbol.toList.map fun c => (.delimiter c, [c])

/-- The characters of some lexemes. -/
def spelled (ls : List (Lexeme × List Char)) : List Char :=
  ls.flatMap (·.2)

@[simp] lemma spelled_nil : spelled [] = [] := rfl

@[simp] lemma spelled_cons (l : Lexeme × List Char) (ls : List (Lexeme × List Char)) :
    spelled (l :: ls) = l.2 ++ spelled ls := rfl

@[simp] lemma spelled_append (ls ms : List (Lexeme × List Char)) :
    spelled (ls ++ ms) = spelled ls ++ spelled ms :=
  List.flatMap_append

lemma toList_quote_eq (s : String) :
    (Operand.quote s).toList = '\'' :: (doubled s.toList ++ ['\'']) :=
  String.toList_ofList

lemma toList_quote {s : String} (hs : ∀ c ∈ s.toList, isQuotable c) :
    (Operand.quote s).toList = '\'' :: (s.toList ++ ['\'']) := by
  rw [toList_quote_eq, doubled_of_isQuotable hs]

lemma Operand.lexeme_ne_blank (o : Operand) : o.lexeme.1 ≠ .blank := by
  match o with
  | .reference _ | .literal (.integer _) | .literal (.float _) | .literal (.boolean _)
  | .literal (.string _) | .literal (.color _) => nofun

namespace Operand.IsPlain

variable {o : Operand} {rest : List Char}

lemma toList_display (h : o.IsPlain) : o.display.toList = o.lexeme.2 := by
  cases h with
  | reference => rfl
  | integer => rfl
  | boolean b => cases b <;> rfl
  | string hs => exact toList_quote hs
  | color => rfl

lemma ofText_append (h : o.IsPlain) (hrest : EndsNumber rest) :
    ofText (o.lexeme.2 ++ rest) = o.lexeme :: ofText rest := by
  have hname := hrest.endsName
  cases h with
  | reference hs => simpa [lexeme, word] using ofText_word hs hname
  | integer n => exact ofText_numeral (Literal.isNumeral_toString _) hrest
  | boolean b =>
    cases b
    · exact ofText_word (w := "FALSE".toList) (by decide) hname
    · exact ofText_word (w := "TRUE".toList) (by decide) hname
  | string hs => simpa [lexeme] using ofText_string hs
  | color hs =>
    obtain ⟨w, hw, hident⟩ := hs
    simpa [lexeme, hw] using ofText_hash hident hname

/-- The engine reads an operand back. -/
lemma operand_eq (h : o.IsPlain) (spaced : Bool) :
    Mark.operand ⟨o.lexeme.1, o.lexeme.2, spaced⟩ = .ok o := by
  cases h with
  | reference _ hkeyword =>
    have htrue := hkeyword "true" (by decide)
    have hfalse := hkeyword "false" (by decide)
    simp [Mark.operand, lexeme, word, htrue, hfalse]
  | integer n =>
    simp only [Mark.operand, lexeme, String.ofList_toList]
    rw [Literal.parseNumber?_display]
  | boolean b =>
    cases b
    · have hfalse : Text.sameWord "FALSE" "true" = false := by rw [Text.sameWord_eq]; decide
      have htrue : Text.sameWord "FALSE" "false" := by rw [Text.sameWord_eq]; decide
      simp [Mark.operand, lexeme, word, hfalse, htrue]
    · have htrue : Text.sameWord "TRUE" "true" := by rw [Text.sameWord_eq]; decide
      simp [Mark.operand, lexeme, word, htrue]
  | string => rfl
  | @color s hs =>
    obtain ⟨w, hw, -⟩ := hs
    have hcolor : "#" ++ String.ofList s.toList.tail = s := by
      simp [← String.toList_inj, hw]
    simp [Mark.operand, lexeme, hcolor]

lemma not_isKeyword (h : o.IsPlain) (spaced : Bool) :
    Mark.isKeyword ⟨o.lexeme.1, o.lexeme.2, spaced⟩ "not" = false := by
  cases h with
  | reference _ hkeyword => simpa [Mark.isKeyword, lexeme, word] using hkeyword "not" (by decide)
  | boolean b =>
    have hfalse : Text.sameWord "FALSE" "not" = false := by rw [Text.sameWord_eq]; decide
    have htrue : Text.sameWord "TRUE" "not" = false := by rw [Text.sameWord_eq]; decide
    cases b <;> assumption
  | _ => rfl

end Operand.IsPlain

/-! ### Written tests -/

/-- A test as it is written: a comparison, a question for a missing attribute, or tests in parentheses,
with NOT before them or without, and with OR or AND between them. -/
inductive Test where
  | compare (left : Operand) (op : Comparator) (right : Operand)
  | isNull (operand : Operand) (negated : Bool)
  | group (negated disjunction : Bool) (parts : List Test)

namespace Test

/-- A test that is written in one way only. No parentheses are empty. -/
inductive IsPlain : Test → Prop
  | compare {left right : Operand} (op : Comparator) (hleft : left.IsPlain) (hright : right.IsPlain) :
      IsPlain (.compare left op right)
  | isNull {operand : Operand} (negated : Bool) (h : operand.IsPlain) :
      IsPlain (.isNull operand negated)
  | group {parts : List Test} (negated disjunction : Bool) (hne : parts ≠ [])
      (hparts : ∀ t ∈ parts, IsPlain t) : IsPlain (.group negated disjunction parts)

/-- Expressions with OR between them, or AND; a single one stands for itself. -/
def joined (disjunction : Bool) (es : List Expr) : Expr :=
  collapse (if disjunction then .any else .all) es

mutual

/-- The expression that a test stands for. -/
def expr : Test → Expr
  | compare left op right => .compare left op right
  | isNull operand negated => .isNull operand negated
  | group negated disjunction parts =>
    if negated then .not (joined disjunction (exprs parts)) else joined disjunction (exprs parts)

/-- The expressions that the tests of a list stand for. -/
def exprs : List Test → List Expr
  | [] => []
  | t :: ts => expr t :: exprs ts

end

/-- The lexemes between two tests. -/
def separator (disjunction : Bool) : List (Lexeme × List Char) :=
  [blank, word (if disjunction then "OR" else "AND"), blank]

mutual

/-- The lexemes that a test is written as. -/
def lexemes : Test → List (Lexeme × List Char)
  | compare left op right => left.lexeme :: blank :: (op.lexemes ++ [blank, right.lexeme])
  | isNull operand negated =>
    operand.lexeme :: blank :: word "IS" :: blank ::
      ((if negated then [word "NOT", blank] else []) ++ [word "NULL"])
  | group negated disjunction parts =>
    (if negated then [word "NOT", blank] else []) ++ (.opener .paren, ['(']) ::
      ((separator disjunction).intercalate (lexemesEach parts) ++ [(.closer .paren, [')'])])

/-- The lexemes that each test of a list is written as. -/
def lexemesEach : List Test → List (List (Lexeme × List Char))
  | [] => []
  | t :: ts => lexemes t :: lexemesEach ts

end

/-- The lexemes that tests with OR between them, or AND, are written as. -/
def joinedLexemes (disjunction : Bool) (ts : List Test) : List (Lexeme × List Char) :=
  (separator disjunction).intercalate (lexemesEach ts)

lemma joinedLexemes_singleton (disjunction : Bool) (t : Test) :
    joinedLexemes disjunction [t] = t.lexemes := by
  simp [joinedLexemes, lexemesEach]

lemma joinedLexemes_cons_cons (disjunction : Bool) (t u : Test) (ts : List Test) :
    joinedLexemes disjunction (t :: u :: ts) =
      t.lexemes ++ separator disjunction ++ joinedLexemes disjunction (u :: ts) := by
  simp [joinedLexemes, lexemesEach]

lemma exists_lexemes_cons (t : Test) : ∃ l ls, t.lexemes = l :: ls ∧ l.1 ≠ .blank := by
  match t with
  | compare left _ _ => exact ⟨_, _, rfl, left.lexeme_ne_blank⟩
  | isNull operand _ => exact ⟨_, _, rfl, operand.lexeme_ne_blank⟩
  | group true _ _ => exact ⟨_, _, rfl, nofun⟩
  | group false _ _ => exact ⟨_, _, rfl, nofun⟩

lemma exists_joinedLexemes_cons (disjunction : Bool) {ts : List Test} (hne : ts ≠ []) :
    ∃ l ls, joinedLexemes disjunction ts = l :: ls ∧ l.1 ≠ .blank := by
  match ts with
  | [t] => exact joinedLexemes_singleton disjunction t ▸ exists_lexemes_cons t
  | t :: u :: ts =>
    obtain ⟨l, ls, hl, hblank⟩ := exists_lexemes_cons t
    exact ⟨l, _, by rw [joinedLexemes_cons_cons, hl]; rfl, hblank⟩

end Test

/-! ### Lexemes of written tests -/

/-- Some lexemes are what their characters are read as, in front of a text. -/
def Spells (ls : List (Lexeme × List Char)) (rest : List Char) : Prop :=
  ofText (spelled ls ++ rest) = ls ++ ofText rest

namespace Spells

variable {l : Lexeme × List Char} {ls ms : List (Lexeme × List Char)} {rest : List Char}

lemma append (hls : Spells ls (spelled ms ++ rest)) (hms : Spells ms rest) :
    Spells (ls ++ ms) rest := by
  rw [Spells, spelled_append, List.append_assoc, hls, hms, List.append_assoc]

lemma cons (hl : Spells [l] (spelled ls ++ rest)) (hls : Spells ls rest) : Spells (l :: ls) rest :=
  (append hl hls : Spells ([l] ++ ls) rest)

lemma blank_cons (hfirst : ∃ l ls', ls = l :: ls' ∧ l.1 ≠ .blank) (hls : Spells ls rest) :
    Spells (blank :: ls) rest := by
  obtain ⟨l, ls, rfl, hl⟩ := hfirst
  have hblank := ofText_blank hls hl
  rwa [hls] at hblank

lemma word {s : String} (hs : IsIdentifier s.toList) (hrest : EndsName rest) :
    Spells [word s] rest := by
  simpa [Spells, Cql.word] using ofText_word hs hrest

lemma operand {o : Operand} (h : o.IsPlain) (hrest : EndsNumber rest) : Spells [o.lexeme] rest := by
  simpa [Spells] using h.ofText_append hrest

lemma comparator (op : Comparator) : Spells op.lexemes (' ' :: rest) := by
  cases op
  · exact ofText_of_next rfl
  · exact (ofText_of_next rfl).trans (congrArg _ (ofText_of_next rfl))
  · exact ofText_of_next rfl
  · exact (ofText_of_next rfl).trans (congrArg _ (ofText_of_next rfl))
  · exact ofText_of_next rfl
  · exact (ofText_of_next rfl).trans (congrArg _ (ofText_of_next rfl))

lemma separator (disjunction : Bool) (hfirst : ∃ l ls', ls = l :: ls' ∧ l.1 ≠ .blank)
    (hls : Spells ls rest) : Spells (Test.separator disjunction ++ ls) rest := by
  have hword :
      Spells [Cql.word (if disjunction then "OR" else "AND")] (' ' :: (spelled ls ++ rest)) := by
    cases disjunction
    · exact word (by decide) (endsName_cons.mpr rfl)
    · exact word (by decide) (endsName_cons.mpr rfl)
  refine blank_cons ⟨_, _, rfl, nofun⟩ ?_
  exact cons hword (blank_cons hfirst hls)

end Spells

namespace Test

variable {t : Test} {ts : List Test} {rest : List Char}

lemma spells_joinedLexemes (disjunction : Bool) (hne : ts ≠ [])
    (h : ∀ t ∈ ts, ∀ rest, EndsNumber rest → Spells t.lexemes rest) (hrest : EndsNumber rest) :
    Spells (joinedLexemes disjunction ts) rest := by
  induction ts with
  | nil => exact absurd rfl hne
  | cons t ts ih =>
    obtain ⟨ht, hts⟩ := List.forall_mem_cons.mp h
    cases ts with
    | nil => exact joinedLexemes_singleton disjunction t ▸ ht rest hrest
    | cons u ts =>
      rw [joinedLexemes_cons_cons, List.append_assoc]
      refine .append (ht _ ?_) (.separator disjunction ?_ (ih nofun hts))
      · exact endsNumber_cons.mpr rfl
      · exact exists_joinedLexemes_cons disjunction nofun

/-- The lexemes that a plain test is written as are those that it is read as. -/
lemma IsPlain.spells (h : t.IsPlain) : ∀ rest, EndsNumber rest → Spells t.lexemes rest := by
  induction h with
  | @compare left right op hleft hright =>
    intro rest hrest
    -- from the end: the right operand, the comparator in front of it, the left operand
    have hright' : Spells [blank, right.lexeme] rest :=
      .blank_cons ⟨_, _, rfl, right.lexeme_ne_blank⟩ (.operand hright hrest)
    have hop : Spells (op.lexemes ++ [blank, right.lexeme]) rest := .append (.comparator op) hright'
    have hfirst : ∃ l ls, op.lexemes ++ [blank, right.lexeme] = l :: ls ∧ l.1 ≠ .blank := by
      cases op <;> exact ⟨_, _, rfl, nofun⟩
    exact .cons (.operand hleft (endsNumber_cons.mpr rfl)) (.blank_cons hfirst hop)
  | @isNull operand negated h =>
    intro rest hrest
    -- from the end: `NULL`, the `NOT` that may stand in front, then `IS` and the operand
    have hnull : Spells [word "NULL"] rest := .word (by decide) hrest.endsName
    have hnot : Spells ((if negated then [word "NOT", blank] else []) ++ [word "NULL"]) rest := by
      cases negated
      · exact hnull
      · exact .cons (.word (by decide) (endsName_cons.mpr rfl))
          (.blank_cons ⟨_, _, rfl, nofun⟩ hnull)
    have hfirst : ∃ l ls, (if negated then [word "NOT", blank] else []) ++ [word "NULL"] = l :: ls ∧
        l.1 ≠ .blank := by
      cases negated <;> exact ⟨_, _, rfl, nofun⟩
    refine .cons (.operand h (endsNumber_cons.mpr rfl)) (.blank_cons ⟨_, _, rfl, nofun⟩ ?_)
    exact .cons (.word (by decide) (endsName_cons.mpr rfl)) (.blank_cons hfirst hnot)
  | @group parts negated disjunction hne hparts ih =>
    intro rest hrest
    -- the parts in their parentheses, then the `NOT` that may stand in front
    have hparts : Spells (joinedLexemes disjunction parts) (')' :: rest) :=
      spells_joinedLexemes disjunction hne ih (endsNumber_cons.mpr rfl)
    have hgroup : Spells ((.opener .paren, ['(']) ::
        (joinedLexemes disjunction parts ++ [(.closer .paren, [')'])])) rest :=
      .cons (ofText_opener .paren) (.append hparts (ofText_closer .paren))
    cases negated
    · exact hgroup
    · exact .cons (.word (by decide) (endsName_cons.mpr rfl))
        (.blank_cons ⟨_, _, rfl, nofun⟩ hgroup)

end Test

end MapStyle.Cql
