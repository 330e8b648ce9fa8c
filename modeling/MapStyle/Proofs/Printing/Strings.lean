import MapStyle.Proofs.Comments.Quotes
import MapStyle.Proofs.Expressions.Acceptance
import MapStyle.Proofs.Printing.Rereading

/-!
# Written strings

An expression is written with its strings between single quotes, and with the quotes in a string doubled.
But it is read like a stylesheet, where a quote in a string is hidden by a backslash and two quotes end
one string and start another. So just those strings are read back that have no character which is
anything but itself between quotes.
-/

namespace MapStyle.Lexeme

variable {c : Char} {cs : List Char}

/-- How many characters of a text are no quotes. -/
def unquoted (cs : List Char) : Nat :=
  cs.countP (· != '\'')

lemma unquoted_append (cs ds : List Char) : unquoted (cs ++ ds) = unquoted cs + unquoted ds :=
  List.countP_append

lemma unquoted_cons (hc : c ≠ '\'') (cs : List Char) : unquoted (c :: cs) = unquoted cs + 1 :=
  List.countP_cons_of_pos (bne_iff_ne.mpr hc)

lemma unquoted_le_length (cs : List Char) : unquoted cs ≤ cs.length :=
  List.countP_le_length

lemma quoteless_of_length_le (h : cs.length ≤ unquoted cs) : ∀ c ∈ cs, c ≠ '\'' := by
  have hall := List.countP_eq_length.mp (Nat.le_antisymm (unquoted_le_length cs) h)
  intro c hc
  exact bne_iff_ne.mp (hall c hc)

lemma unquoted_doubled (cs : List Char) : unquoted (doubled cs) = unquoted cs := by
  induction cs with
  | nil => rfl
  | cons c cs ih =>
    rw [doubled, List.flatMap_cons, unquoted_append, ← doubled, ih]
    by_cases hc : c = '\''
    · subst hc
      exact Nat.zero_add _
    · rw [if_neg hc, unquoted_cons hc, unquoted_cons hc, Nat.add_comm]
      rfl

/-! ### Strings that are read back -/

lemma unquoted_rest_le {α : Type} {p : Piece α} (h : p.source = cs) : unquoted p.rest ≤ unquoted cs := by
  subst h
  rw [Piece.source, unquoted_append]
  exact Nat.le_add_left _ _

/-- Each character of a string comes from at least one that is no quote: itself, or the backslash before
it. -/
lemma length_stringBody_le (cs : List Char) : (stringBody '\'' cs).value.2.length ≤ unquoted cs := by
  fun_induction stringBody '\'' cs with
  | case1 | case2 | case3 | case4 => exact Nat.zero_le _
  | case5 cs _ _ b _ _ ih =>
    have hrest := unquoted_rest_le (source_oneBlank cs)
    rw [unquoted_cons (by decide)]
    exact Nat.le_succ_of_le (Nat.le_trans ih hrest)
  | case6 cs _ _ e _ _ ih =>
    have hrest := unquoted_rest_le (source_escape cs)
    rw [unquoted_cons (by decide)]
    exact Nat.succ_le_succ (Nat.le_trans ih hrest)
  | case7 c cs hquote _ _ _ ih =>
    rw [unquoted_cons hquote]
    exact Nat.succ_le_succ ih

/-- An escape takes a character that is read for nothing else. -/
lemma unquoted_rest_lt {α : Type} {p : Piece α} (h : p.source = c :: cs) (hc : c ≠ '\'')
    (hraw : p.raw ≠ []) : unquoted p.rest < unquoted (c :: cs) := by
  obtain ⟨x, raw, hx⟩ := List.exists_cons_of_ne_nil hraw
  rw [Piece.source, hx, List.cons_append] at h
  rw [← (List.cons.inj h).2, unquoted_cons hc, unquoted_append]
  omega

/-- A backslash does not come back: fewer characters are read than stand behind it. -/
lemma value_stringBody_backslash_ne (hcs : ∀ c ∈ cs, c ≠ '\'') :
    (stringBody '\'' ('\\' :: (cs ++ ['\'']))).value.2 ≠ '\\' :: cs := by
  intro h
  have hunquoted : unquoted (cs ++ ['\'']) ≤ cs.length := by
    rw [unquoted_append]
    exact unquoted_le_length cs
  by_cases hbreak : startsNewline (cs ++ ['\''])
  · rw [stringBody_continued (by decide) hbreak] at h
    have hvalue : (stringBody '\'' (oneBlank (cs ++ ['\''])).rest).value.2 = '\\' :: cs := h
    have hlength := length_stringBody_le (oneBlank (cs ++ ['\''])).rest
    have hrest := unquoted_rest_le (source_oneBlank (cs ++ ['\'']))
    rw [hvalue, List.length_cons] at hlength
    omega
  · rw [stringBody_escape (by decide) (by simp) hbreak] at h
    obtain ⟨hfirst, hvalue⟩ := List.cons.inj h
    have hlength := length_stringBody_le (escape (cs ++ ['\''])).rest
    rw [hvalue] at hlength
    cases cs with
    | nil => cases hfirst
    | cons x cs =>
      have hx := (List.forall_mem_cons.mp hcs).1
      rw [List.cons_append] at hlength hunquoted
      have hrest := unquoted_rest_lt (source_escape (x :: (cs ++ ['\'']))) hx
        (raw_escape_ne_nil (List.cons_ne_nil _ _))
      omega

/-- A string without quotes is read back only if no other character in it is special. -/
lemma isQuotable_of_stringBody (hcs : ∀ c ∈ cs, c ≠ '\'')
    (h : (stringBody '\'' (cs ++ ['\''])).value = (true, cs)) : ∀ c ∈ cs, isQuotable c := by
  induction cs with
  | nil => exact List.forall_mem_nil _
  | cons c cs ih =>
    obtain ⟨hc, hquoteless⟩ := List.forall_mem_cons.mp hcs
    rw [List.cons_append] at h
    by_cases hnewline : isNewline c
    · rw [stringBody_newline hc hnewline] at h
      cases h
    by_cases hslash : c = '\\'
    · subst hslash
      exact absurd (congrArg Prod.snd h) (value_stringBody_backslash_ne hquoteless)
    rw [stringBody_char hc hnewline hslash] at h
    obtain ⟨hshown, hvalue⟩ := List.cons.inj (congrArg Prod.snd h)
    have hclosed : (stringBody '\'' (cs ++ ['\''])).value.1 = true := congrArg Prod.fst h
    have hnul : c ≠ '\x00' := by
      rintro rfl
      cases hshown
    rw [List.forall_mem_cons]
    constructor
    · simp [isQuotable, hc, hnewline, hslash, hnul]
    · exact ih hquoteless (Prod.ext hclosed hvalue)

/-- A string is read back from between quotes, with the quotes in it doubled, just if all of its characters
stand for themselves there. -/
theorem stringBody_doubled_iff :
    (stringBody '\'' (doubled cs ++ ['\''])).value = (true, cs) ↔ ∀ c ∈ cs, isQuotable c := by
  constructor
  · intro h
    have hlength := length_stringBody_le (doubled cs ++ ['\''])
    rw [h, unquoted_append, unquoted_doubled] at hlength
    have hquoteless := quoteless_of_length_le hlength
    rw [doubled_of_quoteless hquoteless] at h
    exact isQuotable_of_stringBody hquoteless h
  · intro h
    rw [doubled_of_isQuotable h, stringBody_append h]

/-- What the opening quote of a string makes of the text behind it. -/
lemma value_quoted (cs : List Char) :
    (quoted '\'' cs).value = if (stringBody '\'' cs).value.1 then
      .string (String.ofList (stringBody '\'' cs).value.2)
    else .brokenString (String.ofList (stringBody '\'' cs).value.2) := rfl

lemma value_quoted_eq_string_iff {s : String} :
    (quoted '\'' cs).value = .string s ↔ (stringBody '\'' cs).value = (true, s.toList) := by
  rcases h : stringBody '\'' cs with ⟨⟨closed, value⟩, raw, rest⟩
  rw [value_quoted, h]
  cases closed <;> simp [← String.toList_inj]

end MapStyle.Lexeme

namespace MapStyle.Cql

open Lexeme

/-! ### Comparisons -/

lemma Tree.forms_leaf_iff {inside : Bool} {m : Mark} {ms : List Mark} {trees : List Tree}
    (hopen : m.lexeme ≠ .opener .paren) (hclose : m.lexeme ≠ .closer .paren) :
    Forms inside (m :: ms) trees ↔ ∃ ts, trees = .leaf m :: ts ∧ Forms inside ms ts := by
  constructor
  · intro h
    cases h with
    | leaf _ _ h => exact ⟨_, rfl, h⟩
    | group h | unfinished h => exact absurd h hopen
  · rintro ⟨ts, rfl, h⟩
    exact .leaf hopen (fun _ => hclose) h

namespace Grammar

variable {m n k : Mark} {left right : Operand} {e : Expr} {ts : List Tree}

/-- What is neither a conjunction nor a disjunction is a single test. -/
lemma item_of_expression (he : ¬ e.isCombined) (h : Expression ts e) : Item ts e := by
  obtain ⟨hdisjunction, hjoined⟩ := h
  cases hjoined with
  | several => exact absurd rfl he
  | single =>
    cases hdisjunction with
    | more _ _ _ hmore => exact absurd rfl hmore.ne_nil
    | last hconjunction hjoined =>
      cases hjoined with
      | several => exact absurd rfl he
      | single =>
        cases hconjunction with
        | more _ _ hmore => exact absurd rfl hmore.ne_nil
        | last h => exact h

/-- Behind an operand and a sign the right side of an equation is one operand. -/
lemma operand_of_equation (h : Item (.leaf m :: .leaf n :: .leaf k :: ts) (.compare left .eq right)) :
    IsOperand k right := by
  generalize htrees : Tree.leaf m :: .leaf n :: .leaf k :: ts = trees at h
  cases h with
  | group => cases htrees
  | compare hfirst hleft hop hright =>
    cases hop with
    | single =>
      obtain ⟨rfl, rfl, rfl, rfl⟩ : _ ∧ _ ∧ _ ∧ _ := by simpa using htrees
      exact hright
    | double _ _ _ hop => simp at hop

end Grammar

namespace Expr

variable {name s : String}

/-- The equation of an attribute and a string. -/
def equation (name s : String) : Expr :=
  .compare (.reference name) .eq (.literal (.string s))

lemma toList_display_equation (name s : String) : (equation name s).display.toList =
    name.toList ++ ' ' :: '=' :: ' ' :: '\'' :: (doubled s.toList ++ ['\'']) := by
  simp [equation, display, Operand.display, Comparator.symbol, toList_quote_eq]

/-- The string of a written equation, as it is read: up to the first quote that no backslash hides. -/
def rereadString (s : String) : Piece Lexeme :=
  quoted '\'' (doubled s.toList ++ ['\''])

lemma rereadString_ne_bracket (s : String) :
    (rereadString s).value ≠ .opener .paren ∧ (rereadString s).value ≠ .closer .paren := by
  rw [rereadString, value_quoted]
  split <;> exact ⟨nofun, nofun⟩

/-- What is read of a written string is no operand other than a string. -/
lemma rereadString_of_isOperand {t : String} {raw : List Char} {spaced : Bool}
    (h : Grammar.IsOperand ⟨(rereadString s).value, raw, spaced⟩ (.literal (.string t))) :
    (rereadString s).value = .string t := by
  cases h with
  | string h => exact h
  | number h =>
    rw [rereadString, value_quoted] at h
    split at h <;> cases h

/-- A written equation is read as a name and a sign, and then as what its string is read as. -/
lemma marks_equation (hname : IsIdentifier name.toList) (s : String) :
    Mark.ofText (equation name s).display.toList =
      ⟨.word name, name.toList, false⟩ :: ⟨.delimiter '=', ['='], true⟩ ::
        ⟨(rereadString s).value, (rereadString s).raw, true⟩ ::
          Mark.ofLexemes false (Lexeme.ofText (rereadString s).rest) := by
  have hstring : Lexeme.ofText ('\'' :: (doubled s.toList ++ ['\''])) =
      ((rereadString s).value, (rereadString s).raw) :: Lexeme.ofText (rereadString s).rest :=
    ofText_of_next rfl
  have hsign : Lexeme.ofText ('=' :: ' ' :: '\'' :: (doubled s.toList ++ ['\''])) =
      (.delimiter '=', ['=']) :: Lexeme.ofText (' ' :: '\'' :: (doubled s.toList ++ ['\''])) :=
    ofText_of_next rfl
  rw [Mark.ofText, toList_display_equation, ofText_word hname (endsName_cons.mpr rfl), String.ofList_toList,
    ofText_blank hsign nofun, hsign, ofText_space (by rintro _ ⟨⟩; decide), hstring]
  rw [rereadString, value_quoted]
  split <;> rfl

/-- A name, a sign and a string are read as the equation of the two. -/
lemma parse_of_marks {text : String} {raw : List Char}
    (hkeyword : ∀ keyword ∈ ["not", "true", "false"], ¬ Text.sameWord name keyword)
    (hmarks : Mark.ofText text.toList = [⟨.word name, name.toList, false⟩,
      ⟨.delimiter '=', ['='], true⟩, ⟨.string s, raw, true⟩]) :
    parse text = .ok (equation name s) := by
  have hleft : Grammar.IsOperand ⟨.word name, name.toList, false⟩ (.reference name) :=
    .reference rfl (hkeyword "true" (by decide)) (hkeyword "false" (by decide))
  exact parse_equation hmarks (hkeyword "not" (by decide)) hleft (.string rfl)

/-- The written equation of an attribute and a string is read back as that equation just if all characters
of the string stand for themselves between quotes: if there is no quote, no backslash, no line break and
no null character among them. -/
theorem parse_display_equation_iff (hname : IsIdentifier name.toList)
    (hkeyword : ∀ keyword ∈ ["not", "true", "false"], ¬ Text.sameWord name keyword) (s : String) :
    parse (equation name s).display = .ok (equation name s) ↔ ∀ c ∈ s.toList, isQuotable c := by
  constructor
  · intro hparse
    obtain ⟨trees, hforms, hexpression⟩ := reads_iff.mpr hparse
    rw [marks_equation hname] at hforms
    obtain ⟨hopen, hclose⟩ := rereadString_ne_bracket s
    obtain ⟨_, rfl, hsign⟩ := (Tree.forms_leaf_iff (by simp) (by simp)).mp hforms
    obtain ⟨_, rfl, hstring⟩ := (Tree.forms_leaf_iff (by simp) (by simp)).mp hsign
    obtain ⟨_, rfl, -⟩ := (Tree.forms_leaf_iff hopen hclose).mp hstring
    have hitem := Grammar.item_of_expression (by simp [equation, isCombined]) hexpression
    have hvalue := rereadString_of_isOperand (Grammar.operand_of_equation hitem)
    exact stringBody_doubled_iff.mp (value_quoted_eq_string_iff.mp hvalue)
  · intro hs
    have hreread : rereadString s =
        ⟨.string (String.ofList s.toList), '\'' :: (s.toList ++ ['\'']), []⟩ := by
      rw [rereadString, doubled_of_isQuotable hs, quoted, stringBody_append hs]
      rfl
    apply parse_of_marks hkeyword
    rw [marks_equation hname, hreread, String.ofList_toList, Lexeme.ofText]
    rfl

/-- Double quotes do no harm inside single ones. -/
theorem parse_display_equation_wide : IsIdentifier "kind".toList ∧
    (∀ keyword ∈ ["not", "true", "false"], ¬ Text.sameWord "kind" keyword) ∧
    parse (equation "kind" "\"wide\"").display = .ok (equation "kind" "\"wide\"") := by
  have hname : IsIdentifier "kind".toList := by decide
  have hkeyword : ∀ keyword ∈ ["not", "true", "false"], ¬ Text.sameWord "kind" keyword := by
    simp only [Text.sameWord_eq]
    decide
  have hstring : ∀ c ∈ "\"wide\"".toList, isQuotable c := List.all_eq_true.mp (by decide)
  exact ⟨hname, hkeyword, (parse_display_equation_iff hname hkeyword _).mpr hstring⟩

/-- A string that is read with a quote in it is written as two strings, which are no expression. -/
theorem parse_display_its : parse "a = \"it's\"" = .ok (equation "a" "it's") ∧
    (equation "a" "it's").display = "a = 'it''s'" ∧
    ∀ e, parse (equation "a" "it's").display ≠ .ok e := by
  have hread : parse "a = \"it's\"" = .ok (equation "a" "it's") := by
    have hkeyword : ∀ keyword ∈ ["not", "true", "false"], ¬ Text.sameWord "a" keyword := by
      simp only [Text.sameWord_eq]
      decide
    have hmarks : Mark.ofText "a = \"it's\"".toList = [⟨.word "a", ['a'], false⟩,
        ⟨.delimiter '=', ['='], true⟩, ⟨.string "it's", "\"it's\"".toList, true⟩] := by decide +kernel
    exact parse_of_marks hkeyword hmarks
  have hdisplay : (equation "a" "it's").display = "a = 'it''s'" := by decide +kernel
  have hrefused : (parse "a = 'it''s'").isOk = false := by decide +kernel
  refine ⟨hread, hdisplay, ?_⟩
  intro e he
  rw [hdisplay] at he
  rw [he] at hrefused
  cases hrefused

end Expr

end MapStyle.Cql
