import MapStyle.Proofs.Reading.Sheets

/-!
# The warnings of a reading

A numeric token that stands for no number is read as a string, with a warning. In an accepted
stylesheet these warnings are those of the numeric tokens outside square brackets, one for each and in
the order of the text: what stands between the brackets of a filter is text, and there are no numbers
in a reference.
-/

namespace MapStyle

variable {P : Type}

namespace Token

/-- Whether a square bracket is open behind a token, given whether one is in front of it. -/
def bracketBehind (opened : Bool) (t : Token) : Bool :=
  if t.isDelimiter "[" then true else if t.isDelimiter "]" then false else opened

/-- Whether some tokens end inside square brackets. -/
def bracketed (ts : List Token) : Bool :=
  ts.foldl bracketBehind false

/-- The tokens outside square brackets, given whether a bracket is open in front of them. -/
def outside (opened : Bool) : List Token → List Token
  | [] => []
  | t :: ts =>
    if opened then outside (t.bracketBehind opened) ts else t :: outside (t.bracketBehind opened) ts

/-- Whether a token has the kind of a number but stands for none, its unit `px` dropped. -/
def isRefusedNumber (t : Token) : Bool :=
  t.kind == .number && (Literal.parseNumber? (Text.dropEnding "px" t.text)).isNone

/-- The warning about a token: its text and its place. -/
def warning (t : Token) : Warning :=
  ⟨t.text, t.location⟩

/-- The warnings about the numbers outside square brackets that stand for none. -/
def refusals (opened : Bool) (ts : List Token) : List Warning :=
  ((outside opened ts).filter isRefusedNumber).map warning

/-- A token that is no number and no square bracket. -/
structure IsQuiet (t : Token) : Prop where
  kind : t.kind ≠ .number
  opens : ¬ t.isDelimiter "["
  closes : ¬ t.isDelimiter "]"

section

variable {t u : Token} {inner ts : List Token} {opened : Bool}

lemma isQuiet_of_kind (hdelimiter : t.kind ≠ .delimiter) (hnumber : t.kind ≠ .number) : t.IsQuiet :=
  ⟨hnumber, fun h => hdelimiter (eq_of_beq (Bool.and_eq_true_iff.mp h).1),
    fun h => hdelimiter (eq_of_beq (Bool.and_eq_true_iff.mp h).1)⟩

lemma isQuiet_of_isDelimiter {text : String} (h : t.isDelimiter text) (hopen : text ≠ "[")
    (hclose : text ≠ "]") : t.IsQuiet := by
  refine ⟨?_, not_isDelimiter h hopen, not_isDelimiter h hclose⟩
  obtain ⟨raw, location, rfl⟩ := eq_of_isDelimiter h
  nofun

lemma isQuiet_of_isWhitespace (h : t.isWhitespace) : t.IsQuiet := by
  obtain ⟨raw, text, location, rfl⟩ := eq_of_isWhitespace h
  exact isQuiet_of_kind nofun nofun

lemma isQuiet_of_isOperator {text : String} (h : t.isOperator text) : t.IsQuiet := by
  obtain ⟨raw, location, rfl⟩ := eq_of_isOperator h
  exact isQuiet_of_kind nofun nofun

lemma IsWord.isQuiet (h : t.IsWord) : t.IsQuiet := by
  rcases h with h | h <;> exact isQuiet_of_kind (by rw [h]; nofun) (by rw [h]; nofun)

lemma IsQuiet.bracketBehind_eq (h : t.IsQuiet) (opened : Bool) : t.bracketBehind opened = opened := by
  rw [bracketBehind, if_neg h.opens, if_neg h.closes]

lemma foldl_bracketBehind_of_isQuiet (h : ∀ x ∈ ts, x.IsQuiet) :
    ts.foldl bracketBehind opened = opened := by
  induction ts with
  | nil => rfl
  | cons x ts ih =>
    rw [List.forall_mem_cons] at h
    rw [List.foldl_cons, h.1.bracketBehind_eq, ih h.2]

lemma IsQuiet.refusals_cons (h : t.IsQuiet) (ts : List Token) :
    refusals false (t :: ts) = refusals false ts := by
  have hrefused : t.isRefusedNumber = false := by simp [isRefusedNumber, h.kind]
  simp [refusals, outside, h.bracketBehind_eq, hrefused]

lemma refusals_cons_of_number (h : t.kind = .number) (ts : List Token) :
    refusals false (t :: ts) = t.numberWarnings ++ refusals false ts := by
  have hbehind : t.bracketBehind false = false := by simp [bracketBehind, isDelimiter, h]
  cases hparse : Literal.parseNumber? (Text.dropEnding "px" t.text) <;>
    simp [refusals, outside, hbehind, isRefusedNumber, numberWarnings, warning, h, hparse]

/-- Brackets hide what is between them. -/
lemma refusals_brackets (hopen : t.isDelimiter "[") (hinner : ∀ x ∈ inner, ¬ x.isDelimiter "[")
    (hinner' : ∀ x ∈ inner, ¬ x.isDelimiter "]") (hclose : u.isDelimiter "]") (ts : List Token) :
    refusals false (t :: (inner ++ u :: ts)) = refusals false ts := by
  have hrefused : t.isRefusedNumber = false := by
    obtain ⟨raw, location, rfl⟩ := eq_of_isDelimiter hopen
    rfl
  have hu : u.bracketBehind true = false := by
    rw [bracketBehind, if_neg (not_isDelimiter hclose (by decide)), if_pos hclose]
  have hinside : outside true (inner ++ u :: ts) = outside false ts := by
    induction inner with
    | nil => simp [outside, hu]
    | cons x inner ih =>
      rw [List.forall_mem_cons] at hinner hinner'
      simp [outside, bracketBehind, hinner.1, hinner'.1, ih hinner.2 hinner'.2]
  simp [refusals, outside, bracketBehind, hopen, hrefused, hinside]

end

end Token

namespace Grammar

open Token

section

variable {ts rest : List Token} {ws : List Warning} {functions : Registry} {v : Value}

/-! ### Values -/

lemma Blanks.refusals_eq (h : Blanks ts rest) : refusals false ts = refusals false rest := by
  induction h with
  | none => rfl
  | more h _ ih => rw [(isQuiet_of_isWhitespace h).refusals_cons, ih]

lemma Blanks.exists_append (h : Blanks ts rest) : ∃ blanks, ts = blanks ++ rest ∧
    ∀ x ∈ blanks, x.isWhitespace := by
  induction h with
  | none => exact ⟨[], rfl, List.forall_mem_nil _⟩
  | @more t _ _ h _ ih =>
    obtain ⟨blanks, rfl, hblanks⟩ := ih
    exact ⟨t :: blanks, rfl, List.forall_mem_cons.mpr ⟨h, hblanks⟩⟩

lemma Reference.refusals_eq {name : String} (h : Reference ts name rest) :
    refusals false ts = refusals false rest := by
  cases h with
  | @intro t word u _ _ _ hopen hbefore hword hbehind hclose =>
    obtain ⟨before, rfl, hblank⟩ := hbefore.exists_append
    obtain ⟨behind, rfl, hblank'⟩ := hbehind.exists_append
    have hquiet : ∀ x ∈ before ++ word :: behind, x.IsQuiet := by
      refine List.forall_mem_append.mpr ⟨fun x hx => isQuiet_of_isWhitespace (hblank x hx), ?_⟩
      exact List.forall_mem_cons.mpr ⟨hword.isQuiet, fun x hx => isQuiet_of_isWhitespace (hblank' x hx)⟩
    have hbrackets := refusals_brackets hopen (fun x hx => (hquiet x hx).opens)
      (fun x hx => (hquiet x hx).closes) hclose rest
    rwa [List.append_assoc] at hbrackets

lemma Atom.refusals_eq {a : Argument} (h : Atom ts a ws rest) :
    refusals false ts = ws ++ refusals false rest := by
  cases h with
  | word h => exact h.isQuiet.refusals_cons _
  | color h => exact (isQuiet_of_kind (by rw [h]; nofun) (by rw [h]; nofun)).refusals_cons _
  | number h => exact refusals_cons_of_number h _
  | reference h => exact h.refusals_eq

lemma Arguments.refusals_eq {as : List Argument} (h : Arguments ts as ws rest) :
    refusals false ts = ws ++ refusals false rest := by
  induction h with
  | last hbefore ha hbehind hclose =>
    rw [hbefore.refusals_eq, ha.refusals_eq, hbehind.refusals_eq,
      (isQuiet_of_isDelimiter hclose (by decide) (by decide)).refusals_cons]
  | more hbefore ha hbehind hcomma _ ih =>
    rw [hbefore.refusals_eq, ha.refusals_eq, hbehind.refusals_eq,
      (isQuiet_of_isDelimiter hcomma (by decide) (by decide)).refusals_cons, ih, List.append_assoc]

lemma Call.refusals_eq (h : Call functions ts v ws rest) :
    refusals false ts = ws ++ refusals false rest := by
  cases h with
  | empty hname hblanks hclose =>
    rw [(isQuiet_of_kind (by rw [hname]; nofun) (by rw [hname]; nofun)).refusals_cons,
      hblanks.refusals_eq, (isQuiet_of_isDelimiter hclose (by decide) (by decide)).refusals_cons]
    rfl
  | applied hname hargs =>
    rw [(isQuiet_of_kind (by rw [hname]; nofun) (by rw [hname]; nofun)).refusals_cons,
      hargs.refusals_eq]

lemma Item.refusals_eq (h : Item functions ts v ws rest) :
    refusals false ts = ws ++ refusals false rest := by
  cases h with
  | atom h => exact h.refusals_eq
  | call h => exact h.refusals_eq

lemma Items.refusals_eq {vs : List Value} (h : Items functions ts vs ws rest) :
    refusals false ts = ws ++ refusals false rest := by
  induction h with
  | done => rfl
  | blank h _ ih => rw [(isQuiet_of_isWhitespace h).refusals_cons, ih]
  | comma h _ ih =>
    rw [(isQuiet_of_isDelimiter h (by decide) (by decide)).refusals_cons, ih]
  | item h _ ih => rw [h.refusals_eq, ih, List.append_assoc]

lemma End.refusals_eq (h : End ts rest) : refusals false ts = refusals false rest := by
  cases h with
  | semicolon h => exact (isQuiet_of_isDelimiter h (by decide) (by decide)).refusals_cons _
  | brace => rfl

lemma Declaration.refusals_eq {key : String} (h : Declaration functions ts key v ws rest) :
    refusals false ts = ws ++ refusals false rest := by
  cases h with
  | intro hkey hbefore hcolon hbehind hfirst hothers hend =>
    rw [(IsWord.isQuiet (.inl hkey)).refusals_cons, hbefore.refusals_eq,
      (isQuiet_of_isDelimiter hcolon (by decide) (by decide)).refusals_cons, hbehind.refusals_eq,
      hfirst.refusals_eq, hothers.refusals_eq, hend.refusals_eq, List.append_assoc]

/-! ### Selectors -/

variable {engine : PredicateEngine P}

lemma Group.refusals_eq {q : P} (h : Group engine ts q rest) :
    refusals false ts = refusals false rest := by
  cases h with
  | intro hopen hinner hclose =>
    refine refusals_brackets hopen (fun x hx hb => hinner x hx ?_) (fun x hx hb => hinner x hx ?_)
      hclose rest
    · exact List.any_eq_true.mpr ⟨"[", by simp, hb⟩
    · exact List.any_eq_true.mpr ⟨"]", by simp, hb⟩

lemma Simple.refusals_eq {x : SelectorPart P} (h : Simple ts x rest) :
    refusals false ts = refusals false rest := by
  cases h with
  | id h => exact (isQuiet_of_kind (by rw [h]; nofun) (by rw [h]; nofun)).refusals_cons _
  | name h => exact (IsWord.isQuiet (.inl h)).refusals_cons _
  | className h hname =>
    rw [(isQuiet_of_isOperator h).refusals_cons, (IsWord.isQuiet (.inl hname)).refusals_cons]
  | wildcard h => exact (isQuiet_of_isOperator h).refusals_cons _
  | attachment h h' hname =>
    rw [(isQuiet_of_isDelimiter h (by decide) (by decide)).refusals_cons,
      (isQuiet_of_isDelimiter h' (by decide) (by decide)).refusals_cons,
      (IsWord.isQuiet (.inl hname)).refusals_cons]

lemma Parts.refusals_eq {filtered filtered' : Bool} {ps : List (SelectorPart P)}
    (h : Parts engine filtered ts ps filtered' rest) : refusals false ts = refusals false rest := by
  induction h with
  | done => rfl
  | blank h _ ih => rw [(isQuiet_of_isWhitespace h).refusals_cons, ih]
  | simple h _ ih => rw [h.refusals_eq, ih]
  | narrowing h _ ih => rw [h.refusals_eq, ih]
  | widening hcomma hblanks h _ ih =>
    rw [(isQuiet_of_isDelimiter hcomma (by decide) (by decide)).refusals_cons, hblanks.refusals_eq,
      h.refusals_eq, ih]

lemma Selectors.refusals_eq {ss : List (Selector P)} (h : Selectors engine ts ss rest) :
    refusals false ts = refusals false rest := by
  induction h with
  | last hps _ _ hbrace =>
    rw [hps.refusals_eq, (isQuiet_of_isDelimiter hbrace (by decide) (by decide)).refusals_cons]
  | more hps _ _ hcomma _ _ ih =>
    rw [hps.refusals_eq, (isQuiet_of_isDelimiter hcomma (by decide) (by decide)).refusals_cons, ih]

/-! ### Blocks -/

variable {d : Dialect P} {decls : List (String × Value)} {rs : List (Rule P)}

lemma Body.refusals_eq (h : Body d ts decls rs ws rest) :
    refusals false ts = ws ++ refusals false rest := by
  induction h with
  | done h => exact (isQuiet_of_isDelimiter h (by decide) (by decide)).refusals_cons _
  | blank h _ ih =>
    have hquiet : Token.IsQuiet _ :=
      h.elim isQuiet_of_isWhitespace (isQuiet_of_isDelimiter · (by decide) (by decide))
    rw [hquiet.refusals_cons, ih]
  | declaration h _ ih => rw [h.refusals_eq, ih, List.append_assoc]
  | rule _ _ hselectors _ _ _ ih ih' => rw [hselectors.refusals_eq, ih, ih', List.append_assoc]

/-- The warnings of a stylesheet are those about the numbers outside square brackets. -/
lemma Stylesheet.refusals_eq {blocks : List Properties} (h : Stylesheet d ts rs blocks ws) :
    refusals false ts = ws := by
  induction h with
  | done => rfl
  | blank h _ ih => rw [(isQuiet_of_isWhitespace h).refusals_cons, ih]
  | map hkeyword hblanks hbrace h _ _ ih =>
    have hkind : _ = TokenKind.identifier := eq_of_beq (Bool.and_eq_true_iff.mp hkeyword).1
    rw [(IsWord.isQuiet (.inl hkind)).refusals_cons, hblanks.refusals_eq,
      (isQuiet_of_isDelimiter hbrace (by decide) (by decide)).refusals_cons, h.refusals_eq, ih]
  | rule _ _ hselectors h _ _ ih => rw [hselectors.refusals_eq, h.refusals_eq, ih]

end

end Grammar

lemma Dialect.warnings_of_parseTokens {d : Dialect P} {ts : List Token} {p : Parsed P}
    (h : d.parseTokens ts = .ok p) : p.warnings = Token.refusals false ts := by
  obtain ⟨rs, blocks, map, ws, hsheet, -, -, rfl⟩ := (d.parseTokens_eq_ok_iff ts p).mp h
  exact hsheet.refusals_eq.symm

end MapStyle
