import MapStyle.Proofs.Printing.Filters
import MapStyle.Proofs.Reading.Grammar
import MapStyle.Token.Stream

/-!
# Tokens of a written text

A written text is followed from its end to its front: if the tokens of what stands behind have a
property, then the tokens of the whole text have the property that the text in front adds to it. That
no bracket is nested too deep is known of the text as a whole, and so of each part of it.
-/

namespace MapStyle

/-- How deep brackets are nested in some lexemes, at a place where `n` brackets are open. -/
def Lexeme.nesting (n : Nat) : List (Lexeme × List Char) → Nat
  | [] => n
  | (lexeme, _) :: ls =>
    match lexeme with
    | .opener _ | .function _ => max n (nesting (n + 1) ls)
    | .closer _ => max n (nesting (n - 1) ls)
    | _ => max n (nesting n ls)

lemma Lexeme.le_nesting (n : Nat) (ls : List (Lexeme × List Char)) : n ≤ nesting n ls := by
  cases ls with
  | nil => exact Nat.le_refl n
  | cons l ls =>
    unfold nesting
    split <;> exact Nat.le_max_left ..

namespace Token

open Lexeme

/-- Where brackets are not nested too deep, some lexemes become tokens that have a property. Given are
the brackets that are open before them. -/
def Lexes (limit : Nat) (opened : List Bracket) (ls : List (Lexeme × List Char))
    (Q : List Token → Prop) : Prop :=
  nesting opened.length ls ≤ limit →
    ∀ here, ∃ ts, ofLexemes limit opened [] here here ls = .ok ts ∧ Q ts

/-- The token of a bracket or of a punctuation mark. -/
def sign (c : Char) (here : Location) : Token :=
  ⟨.delimiter, String.ofList [c], String.ofList [c], here⟩

/-- A lexeme that becomes a token and neither opens nor closes a bracket. -/
def isInner : Lexeme → Bool
  | .comment | .opener _ | .closer _ | .function _ => false
  | _ => true

namespace Lexes

variable {limit : Nat} {opened : List Bracket} {ls : List (Lexeme × List Char)} {l : Lexeme × List Char}
  {Q R : List Token → Prop}

lemma nil (hQ : Q []) : Lexes limit opened [] Q :=
  fun _ _ => ⟨[], rfl, hQ⟩

lemma imp (h : Lexes limit opened ls Q) (hR : ∀ ts, Q ts → R ts) : Lexes limit opened ls R := by
  intro hnesting here
  obtain ⟨ts, hts, hQ⟩ := h hnesting here
  exact ⟨ts, hts, hR ts hQ⟩

lemma inner {kind : TokenKind} {text : List Char} (hl : isInner l.1)
    (hkind : describe l.2 l.1 = .ok (kind, text)) (h : Lexes limit opened ls Q)
    (hR : ∀ here ts, Q ts → R (⟨kind, String.ofList l.2, String.ofList text, here⟩ :: ts)) :
    Lexes limit opened (l :: ls) R := by
  obtain ⟨lexeme, written⟩ := l
  intro hnesting here
  -- the lexeme opens nothing, so what is behind it is as deep
  have hrest : nesting opened.length ls ≤ limit := by
    refine Nat.le_trans ?_ hnesting
    cases lexeme with
    | comment | opener | closer | function => cases hl
    | _ => exact Nat.le_max_right ..
  obtain ⟨ts, hts, hQ⟩ := h hrest (here.advance written)
  refine ⟨_, ?_, hR here ts hQ⟩
  -- nor does it close the innermost bracket
  have hcloser : opened.head?.map Lexeme.closer ≠ some lexeme := by
    cases opened with
    | nil => nofun
    | cons b opened =>
      rintro ⟨⟩
      cases hl
  have hcomment : lexeme ≠ .comment := by
    rintro rfl
    cases hl
  have hopened : opened? lexeme = none := by
    cases lexeme with
    | opener | function => cases hl
    | _ => rfl
  simp only [ofLexemes, if_neg hcomment, if_neg hcloser, List.nil_append]
  simp only [] at hkind
  rw [hkind]
  simp only [hopened, hts]
  rfl

lemma opener (b : Bracket) (h : opened.length < limit → Lexes limit (b :: opened) ls Q)
    (hR : opened.length < limit → ∀ here ts, Q ts → R (sign b.opener here :: ts)) :
    Lexes limit opened ((.opener b, [b.opener]) :: ls) R := by
  intro hnesting here
  have hrest : nesting (opened.length + 1) ls ≤ limit := Nat.le_trans (Nat.le_max_right ..) hnesting
  have hlimit : opened.length < limit := Nat.le_trans (le_nesting _ ls) hrest
  obtain ⟨ts, hts, hQ⟩ := h hlimit hrest (here.advance [b.opener])
  refine ⟨_, ?_, hR hlimit here ts hQ⟩
  have hcloser : opened.head?.map Lexeme.closer ≠ some (.opener b) := by
    cases opened <;> nofun
  simp [ofLexemes, describe, opened?, hcloser, Nat.not_le.mpr hlimit, hts]
  rfl

lemma closer (b : Bracket) (h : Lexes limit opened ls Q)
    (hR : ∀ here ts, Q ts → R (sign b.closer here :: ts)) :
    Lexes limit (b :: opened) ((.closer b, [b.closer]) :: ls) R := by
  intro hnesting here
  have hrest : nesting opened.length ls ≤ limit := Nat.le_trans (Nat.le_max_right ..) hnesting
  obtain ⟨ts, hts, hQ⟩ := h hrest (here.advance [b.closer])
  refine ⟨_, ?_, hR here ts hQ⟩
  simp [ofLexemes, hts]
  rfl

/-! ### The front of a text -/

section

variable {rest : List Char} {n : String}

lemma word (hn : IsIdentifier n.toList) (hrest : EndsName rest)
    (h : Lexes limit opened (Lexeme.ofText rest) Q) :
    Lexes limit opened (Lexeme.ofText (n.toList ++ rest)) fun ts =>
      ∃ raw here us, ts = ⟨.identifier, raw, n, here⟩ :: us ∧ Q us := by
  rw [ofText_word hn hrest, String.ofList_toList]
  refine .inner rfl rfl h ?_
  intro here ts hQ
  rw [String.ofList_toList]
  exact ⟨_, here, ts, rfl, hQ⟩

lemma hash (hn : IsIdentifier n.toList) (hrest : EndsName rest)
    (h : Lexes limit opened (Lexeme.ofText rest) Q) :
    Lexes limit opened (Lexeme.ofText ('#' :: (n.toList ++ rest))) fun ts =>
      ∃ raw here us, ts = ⟨.colorLiteral, raw, String.ofList ('#' :: n.toList), here⟩ :: us ∧ Q us := by
  rw [ofText_hash hn hrest, String.ofList_toList]
  exact .inner rfl rfl h fun here ts hQ => ⟨_, here, ts, rfl, hQ⟩

lemma punctuation {c : Char} (hc : c = ':' ∨ c = ',' ∨ c = ';')
    (h : Lexes limit opened (Lexeme.ofText rest) Q) :
    Lexes limit opened (Lexeme.ofText (c :: rest)) fun ts =>
      ∃ here us, ts = sign c here :: us ∧ Q us := by
  rcases hc with rfl | rfl | rfl
  · exact ofText_colon ▸ .inner rfl rfl h fun here ts hQ => ⟨here, ts, rfl, hQ⟩
  · exact ofText_comma ▸ .inner rfl rfl h fun here ts hQ => ⟨here, ts, rfl, hQ⟩
  · exact ofText_semicolon ▸ .inner rfl rfl h fun here ts hQ => ⟨here, ts, rfl, hQ⟩

lemma opens (b : Bracket)
    (h : opened.length < limit → Lexes limit (b :: opened) (Lexeme.ofText rest) Q) :
    Lexes limit opened (Lexeme.ofText (b.opener :: rest)) fun ts =>
      opened.length < limit ∧ ∃ here us, ts = sign b.opener here :: us ∧ Q us := by
  rw [ofText_opener]
  exact .opener b h fun hlimit here ts hQ => ⟨hlimit, here, ts, rfl, hQ⟩

lemma closes (b : Bracket) (h : Lexes limit opened (Lexeme.ofText rest) Q) :
    Lexes limit (b :: opened) (Lexeme.ofText (b.closer :: rest)) fun ts =>
      ∃ here us, ts = sign b.closer here :: us ∧ Q us := by
  rw [ofText_closer]
  exact .closer b h fun here ts hQ => ⟨here, ts, rfl, hQ⟩

lemma blank (hrest : StartsVisibly rest) (h : Lexes limit opened (Lexeme.ofText rest) Q) :
    Lexes limit opened (Lexeme.ofText (' ' :: rest)) fun ts =>
      ∃ t us, ts = t :: us ∧ t.isWhitespace ∧ Q us := by
  rw [ofText_space hrest.not_isSpace]
  exact .inner rfl rfl h fun here ts hQ => ⟨_, ts, rfl, rfl, hQ⟩

end

end Lexes

/-! ### Blanks -/

/-- The tokens of a text have a property with whatever blanks in front of the text. -/
def BehindBlanks (limit : Nat) (opened : List Bracket) (cs : List Char)
    (Q : List Token → Prop) : Prop :=
  ∀ bs, (∀ b ∈ bs, isSpace b) → Lexes limit opened (Lexeme.ofText (bs ++ cs)) Q

section

variable {limit : Nat} {opened : List Bracket} {cs : List Char} {Q R : List Token → Prop}

lemma Lexes.behindBlanks (h : Lexes limit opened (Lexeme.ofText cs) Q)
    (hcs : ∀ c ∈ cs.head?, ¬ isSpace c) (hblank : ∀ t ts, t.isWhitespace → Q ts → Q (t :: ts)) :
    BehindBlanks limit opened cs Q := by
  intro bs hbs
  by_cases hne : bs = []
  · rwa [hne, List.nil_append]
  · rw [ofText_blanks hne hbs hcs]
    exact .inner rfl rfl h fun here ts hQ => hblank _ ts rfl hQ

lemma BehindBlanks.append {bs : List Char} (hbs : ∀ b ∈ bs, isSpace b)
    (h : BehindBlanks limit opened cs Q) : BehindBlanks limit opened (bs ++ cs) Q := by
  intro bs' hbs'
  rw [← List.append_assoc]
  exact h (bs' ++ bs) (List.forall_mem_append.mpr ⟨hbs', hbs⟩)

lemma BehindBlanks.imp (h : BehindBlanks limit opened cs Q) (hR : ∀ ts, Q ts → R ts) :
    BehindBlanks limit opened cs R :=
  fun bs hbs => (h bs hbs).imp hR

end

/-! ### The text of a filter -/

/-- Some tokens may stand between the brackets of a filter, and give it a certain text. -/
structure FilterTokens (inner : List Token) (cs : List Char) : Prop where
  bounded : ∀ t ∈ inner, ¬ Grammar.bounds t
  text : inner.flatMap (fun t => if t.isWhitespace then [' '] else t.raw.toList) = cs

lemma FilterTokens.append {inner inner' : List Token} {cs ds : List Char} (h : FilterTokens inner cs)
    (h' : FilterTokens inner' ds) : FilterTokens (inner ++ inner') (cs ++ ds) :=
  ⟨List.forall_mem_append.mpr ⟨h.bounded, h'.bounded⟩, by rw [List.flatMap_append, h.text, h'.text]⟩

lemma FilterTokens.single {t : Token} (hbounds : ¬ Grammar.bounds t) :
    FilterTokens [t] (if t.isWhitespace then [' '] else t.raw.toList) := by
  refine ⟨?_, List.flatMap_singleton ..⟩
  rintro t (_ | ⟨_, ⟨⟩⟩)
  exact hbounds

lemma FilterTokens.sign {c : Char} {here : Location} (hbounds : ¬ Grammar.bounds (sign c here)) :
    FilterTokens [Token.sign c here] [c] := by
  have h := FilterTokens.single hbounds
  rwa [show (Token.sign c here).isWhitespace = false from rfl, if_neg Bool.false_ne_true,
    Token.sign, String.toList_ofList] at h

/-- Some lexemes become the tokens of a filter, and what is behind them is read as it would be without
them. -/
def LexesInner (ls : List (Lexeme × List Char)) : Prop :=
  ∀ (limit : Nat) (opened : List Bracket) (ms : List (Lexeme × List Char)) (Q : List Token → Prop),
    Lexes limit opened ms Q → Lexes limit opened (ls ++ ms) fun ts =>
      ∃ inner us, ts = inner ++ us ∧ FilterTokens inner (Cql.spelled ls) ∧ Q us

namespace LexesInner

variable {ls ms : List (Lexeme × List Char)} {l : Lexeme × List Char}

lemma nil : LexesInner [] :=
  fun _ _ _ _ h => h.imp fun ts hQ => ⟨[], ts, rfl, ⟨nofun, rfl⟩, hQ⟩

lemma append (hls : LexesInner ls) (hms : LexesInner ms) : LexesInner (ls ++ ms) := by
  intro limit opened ns Q h
  rw [List.append_assoc]
  refine (hls _ _ _ _ (hms _ _ _ _ h)).imp ?_
  rintro ts ⟨inner, us, rfl, hinner, inner', vs, rfl, hinner', hQ⟩
  rw [Cql.spelled_append]
  exact ⟨inner ++ inner', vs, (List.append_assoc ..).symm, hinner.append hinner', hQ⟩

lemma single (kind : TokenKind) {text : List Char} (hl : isInner l.1)
    (hkind : describe l.2 l.1 = .ok (kind, text)) (hdelimiter : kind ≠ .delimiter)
    (hblank : kind = .whitespace → l.2 = [' ']) : LexesInner [l] := by
  intro limit opened ns Q h
  refine .inner hl hkind h ?_
  intro here ts hQ
  refine ⟨_, ts, (List.singleton_append ..).symm, ?_, hQ⟩
  have hbounds : ¬ Grammar.bounds ⟨kind, String.ofList l.2, String.ofList text, here⟩ := by
    simp [Grammar.bounds, isDelimiter, hdelimiter]
  have hsingle := FilterTokens.single hbounds
  by_cases hspace : kind = .whitespace
  · simpa [isWhitespace, hspace, hblank hspace] using hsingle
  · simpa [isWhitespace, hspace] using hsingle

lemma group (h : LexesInner ls) :
    LexesInner ((.opener .paren, ['(']) :: (ls ++ [(.closer .paren, [')'])])) := by
  intro limit opened ns Q hns
  rw [List.cons_append, List.append_assoc]
  have hclose : Lexes limit (.paren :: opened) ((.closer .paren, [')']) :: ns) fun ts =>
      ∃ here us, ts = sign ')' here :: us ∧ Q us :=
    .closer .paren hns fun here us hQ => ⟨here, us, rfl, hQ⟩
  refine .opener .paren (fun _ => h _ _ _ _ hclose) ?_
  rintro - here _ ⟨inner, _, rfl, hinner, here', us, rfl, hQ⟩
  refine ⟨sign '(' here :: (inner ++ [sign ')' here']), us, ?_, ?_, hQ⟩
  · rw [List.cons_append, List.append_assoc]
    rfl
  · have hopen : FilterTokens [sign '(' here] ['('] := .sign Bool.false_ne_true
    have hclose : FilterTokens [sign ')' here'] [')'] := .sign Bool.false_ne_true
    have hgroup := hopen.append (hinner.append hclose)
    simpa using hgroup

lemma word (s : String) : LexesInner [Cql.word s] :=
  single .identifier rfl rfl nofun nofun

lemma blank : LexesInner [Cql.blank] :=
  single .whitespace rfl rfl nofun fun _ => rfl

lemma operand (o : Cql.Operand) : LexesInner [o.lexeme] := by
  match o with
  | .reference _ | .literal (.boolean _) => exact word _
  | .literal (.integer _) | .literal (.float _) => exact single .number rfl rfl nofun nofun
  | .literal (.string _) => exact single .string rfl rfl nofun nofun
  | .literal (.color _) => exact single .colorLiteral rfl rfl nofun nofun

lemma comparator (op : Cql.Comparator) : LexesInner op.lexemes := by
  have hsign (c : Char) : LexesInner [(.delimiter c, [c])] :=
    single .operator rfl rfl nofun nofun
  cases op
  · exact hsign '='
  · exact append (hsign '!') (hsign '=')
  · exact hsign '<'
  · exact append (hsign '<') (hsign '=')
  · exact hsign '>'
  · exact append (hsign '>') (hsign '=')

lemma not (negated : Bool) : LexesInner (if negated then [Cql.word "NOT", Cql.blank] else []) := by
  cases negated
  · exact nil
  · exact append (word "NOT") blank

lemma joinedLexemes (disjunction : Bool) {ts : List Cql.Test} (h : ∀ t ∈ ts, LexesInner t.lexemes) :
    LexesInner (Cql.Test.joinedLexemes disjunction ts) := by
  induction ts with
  | nil => exact nil
  | cons t ts ih =>
    obtain ⟨ht, hts⟩ := List.forall_mem_cons.mp h
    cases ts with
    | nil => rwa [Cql.Test.joinedLexemes_singleton]
    | cons u ts =>
      rw [Cql.Test.joinedLexemes_cons_cons]
      have hseparator : LexesInner (Cql.Test.separator disjunction) :=
        append blank (append (word _) blank)
      exact append (append ht hseparator) (ih hts)

end LexesInner

/-- The lexemes of a plain test become tokens that may stand in a filter. -/
lemma lexesInner_of_isPlain {t : Cql.Test} (h : t.IsPlain) : LexesInner t.lexemes := by
  induction h with
  | @compare left right op =>
    exact .append (.operand left) (.append .blank (.append (.comparator op)
      (.append .blank (.operand right))))
  | @isNull operand negated =>
    exact .append (.operand operand) (.append .blank (.append (.word "IS") (.append .blank
      (.append (.not negated) (.word "NULL")))))
  | group negated disjunction hne hparts ih =>
    exact .append (.not negated) (.group (.joinedLexemes disjunction ih))

lemma FilterTokens.filterText_eq {inner : List Token} {text : String}
    (h : FilterTokens inner text.toList) (htext : Text.IsTrimmed text.toList) :
    Grammar.filterText inner = text := by
  have hjoin : (String.join (inner.map fun t => if t.isWhitespace then " " else t.raw)).toList =
      text.toList := by
    rw [String.toList_join, List.flatMap_map, ← h.text]
    refine congrArg (List.flatMap · inner) (funext fun t => ?_)
    split <;> rfl
  rw [Grammar.filterText, Text.trim, hjoin, htext.trimChars_eq, String.ofList_toList]

/-- The text of a plain filter between its brackets is read as the expression that it is written as. -/
lemma Lexes.filter {limit : Nat} {opened : List Bracket} {rest : List Char} {Q : List Token → Prop}
    {f : Filter Cql.Expr} (hf : f.IsPlain) (h : Lexes limit opened (Lexeme.ofText rest) Q) :
    Lexes limit opened (Lexeme.ofText ('[' :: (f.display.toList ++ ']' :: rest))) fun ts =>
      ∃ t us vs, ts = t :: us ∧ t.isDelimiter "[" ∧
        Grammar.Group Cql.Expr.parse (t :: us) f.test.expr vs ∧ Q vs := by
  have htest := hf.isPlain_test
  -- the lexemes of the text: those of the row, then the closing bracket
  have hspells : Cql.Spells f.test.rowLexemes (']' :: rest) :=
    Cql.Test.spells_joinedLexemes _ htest.row.1 (fun t ht => (htest.row.2 t ht).spells)
      (endsNumber_cons.mpr rfl)
  rw [Cql.Spells, ← hf.toList_display] at hspells
  have hinner : LexesInner f.test.rowLexemes :=
    .joinedLexemes _ fun t ht => lexesInner_of_isPlain (htest.row.2 t ht)
  have hclose : Lexes limit (.square :: opened) ((.closer .square, [']']) :: Lexeme.ofText rest)
      fun ts => ∃ here us, ts = sign ']' here :: us ∧ Q us :=
    .closer .square h fun here us hQ => ⟨here, us, rfl, hQ⟩
  have hlexemes : Lexeme.ofText ('[' :: (f.display.toList ++ ']' :: rest)) =
      (.opener .square, ['[']) ::
        (f.test.rowLexemes ++ (.closer .square, [']']) :: Lexeme.ofText rest) :=
    (ofText_opener .square).trans
      (congrArg _ (hspells.trans (congrArg (f.test.rowLexemes ++ ·) (ofText_closer .square))))
  rw [hlexemes]
  refine .opener .square (fun _ => hinner _ _ _ _ hclose) ?_
  rintro - here _ ⟨inner, _, rfl, htokens, here', us, rfl, hQ⟩
  refine ⟨_, _, us, rfl, rfl, ?_, hQ⟩
  -- the text that the parser puts together from the tokens is that of the filter
  rw [← hf.toList_display] at htokens
  have htrimmed : Text.IsTrimmed f.display.toList := hf.toList_display ▸ htest.isTrimmed_row
  have htext := htokens.filterText_eq htrimmed
  refine .intro rfl htokens.bounded rfl ?_ ?_
  · rw [htext]
    rintro hnil
    exact htrimmed.ne_nil (hnil ▸ rfl)
  · rw [htext, hf.parse_eq]

end Token

end MapStyle
