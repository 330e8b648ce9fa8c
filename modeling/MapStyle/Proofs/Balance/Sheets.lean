import MapStyle.Cql.Reading
import MapStyle.Proofs.Reading.Sheets
import MapStyle.Proofs.Balance.Brackets

/-!
# The brackets of a stylesheet

The grammar of stylesheets closes every bracket that it opens, in the right order, but for one place:
what stands between the brackets of a filter is the business of the predicate engine. So the tokens of
a stylesheet are balanced exactly if those of each filter are.
-/

namespace MapStyle

open Token

variable {P : Type}

namespace Token

/-- Whether balanced tokens stand in front of the rest of a list. -/
def Spans (ts rest : List Token) : Prop :=
  ∃ cs, ts = cs ++ rest ∧ Balanced cs

/-- Whether balanced tokens stand between every two brackets of a kind that have no such bracket
between them. -/
def BalancedWithin (b : Bracket) (ts : List Token) : Prop :=
  ∀ pre t inner u post, ts = pre ++ t :: (inner ++ u :: post) → t.opens? = some b →
    u.closes? = some b → (∀ x ∈ inner, x.opens? ≠ some b) → (∀ x ∈ inner, x.closes? ≠ some b) →
    Balanced inner

section

variable {t u : Token} {b : Bracket} {ts us rest : List Token}

lemma Spans.refl (ts : List Token) : Spans ts ts :=
  ⟨[], rfl, balanced_nil⟩

lemma Spans.trans (h : Spans ts us) (h' : Spans us rest) : Spans ts rest := by
  obtain ⟨cs, rfl, hcs⟩ := h
  obtain ⟨cs', rfl, hcs'⟩ := h'
  exact ⟨cs ++ cs', (List.append_assoc ..).symm, hcs.append hcs'⟩

lemma Spans.cons (ht : t.IsPlain) (h : Spans ts rest) : Spans (t :: ts) rest := by
  obtain ⟨cs, rfl, hcs⟩ := h
  exact ⟨t :: cs, rfl, ht.balanced.append hcs⟩

lemma Spans.block (hopen : t.opens? = some b) (h : Spans ts (u :: rest))
    (hclose : u.closes? = some b) : Spans (t :: ts) rest := by
  obtain ⟨inner, rfl, hinner⟩ := h
  exact ⟨t :: (inner ++ [u]), by simp, hinner.block hopen hclose⟩

lemma Spans.balanced (h : Spans ts []) : Balanced ts := by
  obtain ⟨cs, rfl, hcs⟩ := h
  rwa [List.append_nil]

lemma BalancedWithin.of_append {pre : List Token} (h : BalancedWithin b (pre ++ ts)) :
    BalancedWithin b ts := by
  rintro pre' t inner u post rfl
  exact h (pre ++ pre') t inner u post (List.append_assoc ..).symm

lemma BalancedWithin.of_cons (h : BalancedWithin b (t :: ts)) : BalancedWithin b ts := by
  have h : BalancedWithin b ([t] ++ ts) := h
  exact h.of_append

lemma BalancedWithin.of_spans (h : BalancedWithin b ts) (hspans : Spans ts rest) :
    BalancedWithin b rest := by
  obtain ⟨cs, rfl, -⟩ := hspans
  exact h.of_append

/-- What stands between brackets of balanced tokens is balanced. -/
lemma Balanced.within (h : Balanced ts) (b : Bracket) : BalancedWithin b ts := by
  rintro pre t inner u post rfl hopen hclose hopens hcloses
  exact h.of_block hopen hclose hopens hcloses

/-! ### The tokens of the grammar -/

lemma isPlain_of_isWhitespace (h : t.isWhitespace) : t.IsPlain := by
  obtain ⟨raw, text, location, rfl⟩ := eq_of_isWhitespace h
  exact isPlain_of_kind nofun nofun

lemma IsWord.isPlain (h : t.IsWord) : t.IsPlain := by
  rcases h with h | h <;> exact isPlain_of_kind (by rw [h]; nofun) (by rw [h]; nofun)

lemma isPlain_of_isKeyword {word : String} (h : t.isKeyword word) : t.IsPlain :=
  IsWord.isPlain (.inl (eq_of_beq (Bool.and_eq_true_iff.mp h).1))

lemma isPlain_of_isOperator {text : String} (h : t.isOperator text) : t.IsPlain := by
  obtain ⟨raw, location, rfl⟩ := eq_of_isOperator h
  exact isPlain_of_kind nofun nofun

lemma isPlain_comma (h : t.isDelimiter ",") : t.IsPlain :=
  isPlain_of_isDelimiter h (fun b => by cases b <;> decide) (fun b => by cases b <;> decide)

lemma isPlain_colon (h : t.isDelimiter ":") : t.IsPlain :=
  isPlain_of_isDelimiter h (fun b => by cases b <;> decide) (fun b => by cases b <;> decide)

lemma isPlain_semicolon (h : t.isDelimiter ";") : t.IsPlain :=
  isPlain_of_isDelimiter h (fun b => by cases b <;> decide) (fun b => by cases b <;> decide)

end

end Token

namespace Grammar

section

variable {ts rest : List Token} {ws : List Warning} {functions : Registry} {v : Value}

/-! ### Values -/

lemma Blanks.spans (h : Blanks ts rest) : Spans ts rest := by
  induction h with
  | none => exact .refl _
  | more h _ ih => exact ih.cons (isPlain_of_isWhitespace h)

lemma Reference.spans {name : String} (h : Reference ts name rest) : Spans ts rest := by
  cases h with
  | intro hopen hbefore hword hbehind hclose =>
    have hinner := hbefore.spans.trans (hbehind.spans.cons hword.isPlain)
    exact hinner.block (b := .square) (opens?_eq_some_iff.mpr (.inr hopen))
      (closes?_eq_some_iff.mpr hclose)

lemma Atom.spans {a : Argument} (h : Atom ts a ws rest) : Spans ts rest := by
  cases h with
  | word h => exact (Spans.refl _).cons h.isPlain
  | color h => exact (Spans.refl _).cons (isPlain_of_kind (by rw [h]; nofun) (by rw [h]; nofun))
  | number h => exact (Spans.refl _).cons (isPlain_of_kind (by rw [h]; nofun) (by rw [h]; nofun))
  | reference h => exact h.spans

/-- Arguments lead up to the parenthesis that closes them. -/
lemma Arguments.spans {as : List Argument} (h : Arguments ts as ws rest) :
    ∃ u, Spans ts (u :: rest) ∧ u.closes? = some .paren := by
  induction h with
  | last hbefore ha hbehind hclose =>
    exact ⟨_, (hbefore.spans.trans ha.spans).trans hbehind.spans, closes?_eq_some_iff.mpr hclose⟩
  | more hbefore ha hbehind hcomma _ ih =>
    obtain ⟨u, hspans, hclose⟩ := ih
    have hbefore := (hbefore.spans.trans ha.spans).trans hbehind.spans
    exact ⟨u, hbefore.trans (hspans.cons (isPlain_comma hcomma)), hclose⟩

lemma Call.spans (h : Call functions ts v ws rest) : Spans ts rest := by
  cases h with
  | empty hname hblanks hclose =>
    exact hblanks.spans.block (opens?_eq_some_iff.mpr (.inl ⟨hname, rfl⟩))
      (closes?_eq_some_iff.mpr hclose)
  | applied hname hargs =>
    obtain ⟨u, hspans, hclose⟩ := hargs.spans
    exact hspans.block (opens?_eq_some_iff.mpr (.inl ⟨hname, rfl⟩)) hclose

lemma Item.spans (h : Item functions ts v ws rest) : Spans ts rest := by
  cases h with
  | atom h => exact h.spans
  | call h => exact h.spans

lemma Items.spans {vs : List Value} (h : Items functions ts vs ws rest) : Spans ts rest := by
  induction h with
  | done => exact .refl _
  | blank h _ ih => exact ih.cons (isPlain_of_isWhitespace h)
  | comma h _ ih => exact ih.cons (isPlain_comma h)
  | item h _ ih => exact h.spans.trans ih

lemma End.spans (h : End ts rest) : Spans ts rest := by
  cases h with
  | semicolon h => exact (Spans.refl _).cons (isPlain_semicolon h)
  | brace => exact .refl _

lemma Declaration.spans {key : String} (h : Declaration functions ts key v ws rest) :
    Spans ts rest := by
  cases h with
  | intro hkey hbefore hcolon hbehind hfirst hothers hend =>
    have hvalues := (hbehind.spans.trans hfirst.spans).trans (hothers.spans.trans hend.spans)
    exact (hbefore.spans.trans (hvalues.cons (isPlain_colon hcolon))).cons (IsWord.isPlain (.inl hkey))

/-! ### Selectors -/

variable {engine : PredicateEngine P}

lemma not_square_of_not_bounds {t : Token} (h : ¬ bounds t) :
    t.opens? ≠ some .square ∧ t.closes? ≠ some .square := by
  constructor
  · intro hopen
    rcases opens?_eq_some_iff.mp hopen with ⟨-, hb⟩ | hdelimiter
    · cases hb
    · exact h (List.any_eq_true.mpr ⟨"[", by simp, hdelimiter⟩)
  · intro hclose
    exact h (List.any_eq_true.mpr ⟨"]", by simp, closes?_eq_some_iff.mp hclose⟩)

/-- This is the only place where the grammar does not look at the brackets itself. -/
lemma Group.spans {q : P} (h : Group engine ts q rest) (hwithin : BalancedWithin .square ts) :
    Spans ts rest := by
  cases h with
  | @intro t u inner _ _ hopen hinner hclose =>
    have hopen : t.opens? = some .square := opens?_eq_some_iff.mpr (.inr hopen)
    have hclose : u.closes? = some .square := closes?_eq_some_iff.mpr hclose
    have hbalanced : Balanced inner := hwithin [] t inner u rest rfl hopen hclose
      (fun x hx => (not_square_of_not_bounds (hinner x hx)).1)
      (fun x hx => (not_square_of_not_bounds (hinner x hx)).2)
    exact Spans.block hopen ⟨inner, rfl, hbalanced⟩ hclose

lemma Simple.spans {x : SelectorPart P} (h : Simple ts x rest) : Spans ts rest := by
  cases h with
  | id h => exact (Spans.refl _).cons (isPlain_of_kind (by rw [h]; nofun) (by rw [h]; nofun))
  | name h => exact (Spans.refl _).cons (IsWord.isPlain (.inl h))
  | className h hname =>
    exact ((Spans.refl _).cons (IsWord.isPlain (.inl hname))).cons (isPlain_of_isOperator h)
  | wildcard h => exact (Spans.refl _).cons (isPlain_of_isOperator h)
  | attachment h h' hname =>
    exact (((Spans.refl _).cons (IsWord.isPlain (.inl hname))).cons (isPlain_colon h')).cons
      (isPlain_colon h)

lemma Parts.spans {filtered filtered' : Bool} {ps : List (SelectorPart P)}
    (h : Parts engine filtered ts ps filtered' rest) (hwithin : BalancedWithin .square ts) :
    Spans ts rest := by
  induction h with
  | done => exact .refl _
  | blank h _ ih => exact (ih hwithin.of_cons).cons (isPlain_of_isWhitespace h)
  | simple h _ ih => exact h.spans.trans (ih (hwithin.of_spans h.spans))
  | narrowing h _ ih =>
    have hgroup := h.spans hwithin
    exact hgroup.trans (ih (hwithin.of_spans hgroup))
  | widening hcomma hblanks h _ ih =>
    have hwithin := hwithin.of_cons.of_spans hblanks.spans
    have hgroup := h.spans hwithin
    exact (hblanks.spans.trans (hgroup.trans (ih (hwithin.of_spans hgroup)))).cons
      (isPlain_comma hcomma)

/-- Selectors lead up to the brace that opens their block. -/
lemma Selectors.spans {ss : List (Selector P)} (h : Selectors engine ts ss rest)
    (hwithin : BalancedWithin .square ts) :
    ∃ u, Spans ts (u :: rest) ∧ u.opens? = some .curly := by
  induction h with
  | last hps _ _ hbrace => exact ⟨_, hps.spans hwithin, opens?_eq_some_iff.mpr (.inr hbrace)⟩
  | more hps _ _ hcomma _ _ ih =>
    have hfirst := hps.spans hwithin
    obtain ⟨u, hspans, hopen⟩ := ih (hwithin.of_spans hfirst).of_cons
    exact ⟨u, hfirst.trans (hspans.cons (isPlain_comma hcomma)), hopen⟩

/-! ### Blocks -/

variable {d : Dialect P} {decls : List (String × Value)} {rs : List (Rule P)}

/-- A body leads up to the brace that closes its block. -/
lemma Body.spans (h : Body d ts decls rs ws rest) (hwithin : BalancedWithin .square ts) :
    ∃ u, Spans ts (u :: rest) ∧ u.closes? = some .curly := by
  induction h with
  | done h => exact ⟨_, .refl _, closes?_eq_some_iff.mpr h⟩
  | blank h _ ih =>
    obtain ⟨u, hspans, hclose⟩ := ih hwithin.of_cons
    exact ⟨u, hspans.cons (h.elim isPlain_of_isWhitespace isPlain_semicolon), hclose⟩
  | declaration h _ ih =>
    obtain ⟨u, hspans, hclose⟩ := ih (hwithin.of_spans h.spans)
    exact ⟨u, h.spans.trans hspans, hclose⟩
  | rule _ _ hselectors _ _ _ ih ih' =>
    obtain ⟨brace, hbefore, hopen⟩ := hselectors.spans hwithin
    have hwithin := (hwithin.of_spans hbefore).of_cons
    obtain ⟨brace', hinner, hclose⟩ := ih hwithin
    have hblock := Spans.block hopen hinner hclose
    obtain ⟨u, hspans, hclose⟩ := ih' (hwithin.of_spans hinner).of_cons
    exact ⟨u, hbefore.trans (hblock.trans hspans), hclose⟩

lemma Stylesheet.spans {blocks : List Properties} (h : Stylesheet d ts rs blocks ws)
    (hwithin : BalancedWithin .square ts) : Spans ts [] := by
  induction h with
  | done => exact .refl _
  | blank h _ ih => exact (ih hwithin.of_cons).cons (isPlain_of_isWhitespace h)
  | map hkeyword hblanks hbrace h _ _ ih =>
    have hwithin := (hwithin.of_cons.of_spans hblanks.spans).of_cons
    obtain ⟨brace, hinner, hclose⟩ := h.spans hwithin
    have hblock := Spans.block (opens?_eq_some_iff.mpr (.inr hbrace)) hinner hclose
    exact (hblanks.spans.trans (hblock.trans (ih (hwithin.of_spans hinner).of_cons))).cons
      (isPlain_of_isKeyword hkeyword)
  | rule _ _ hselectors h _ _ ih =>
    obtain ⟨brace, hbefore, hopen⟩ := hselectors.spans hwithin
    have hwithin := (hwithin.of_spans hbefore).of_cons
    obtain ⟨brace', hinner, hclose⟩ := h.spans hwithin
    exact hbefore.trans ((Spans.block hopen hinner hclose).trans
      (ih (hwithin.of_spans hinner).of_cons))

end

end Grammar

namespace Dialect

lemma balanced_iff_of_parseTokens {d : Dialect P} {ts : List Token} {p : Parsed P}
    (h : d.parseTokens ts = .ok p) : Balanced ts ↔ BalancedWithin .square ts := by
  have haccepts : Machine.AcceptsTop d p [] {} [] ts := (Machine.parseTokens_eq_read d ts).symm.trans h
  obtain ⟨rs, blocks, ws, hsheet, -, -⟩ := Machine.acceptsTop_iff.mp haccepts
  exact ⟨fun hbalanced => hbalanced.within .square, fun hwithin => (hsheet.spans hwithin).balanced⟩

/-- The tokens of a stylesheet are balanced if and only if those of each of its filters are. -/
theorem balanced_iff_of_parse {d : Dialect P} {text : String} {p : Parsed P}
    (h : d.parse text = .ok p) :
    ∃ ts, Token.ofText d.maxDepth text = .ok ts ∧ (Balanced ts ↔ BalancedWithin .square ts) := by
  rw [parse] at h
  cases hts : Token.ofText d.maxDepth text with
  | error e =>
    rw [hts] at h
    cases h
  | ok ts =>
    rw [hts] at h
    exact ⟨ts, rfl, balanced_iff_of_parseTokens h⟩

lemma exists_eq_ok_of_isOk {ε α : Type} {x : Except ε α} (h : x.isOk) : ∃ a, x = .ok a := by
  cases x with
  | error => cases h
  | ok a => exact ⟨a, rfl⟩

/-- A stylesheet with a parenthesis in a filter. -/
def roadText : String := "#road[(lanes > 1)] \x7b width: 1; \x7d"

/-- Its filter is balanced, and so the whole stylesheet is. -/
theorem balancedWithin_roadText : ∃ (p : Parsed Cql.Expr) (ts : List Token),
    Dialect.parse { engine := Cql.Expr.parse } roadText = .ok p ∧
      Token.ofText 64 roadText = .ok ts ∧ BalancedWithin .square ts := by
  have hok : (Dialect.parse { engine := Cql.Expr.parse } roadText).isOk := by decide +kernel
  have hbalanced : ((Token.ofText 64 roadText).toOption.all fun ts => decide (Balanced ts)) := by
    decide +kernel
  obtain ⟨p, hparse⟩ := exists_eq_ok_of_isOk hok
  obtain ⟨ts, hts, hiff⟩ := balanced_iff_of_parse hparse
  rw [hts] at hbalanced
  exact ⟨p, ts, hparse, hts, hiff.mp (of_decide_eq_true hbalanced)⟩

/-- A stylesheet with a filter that leaves a parenthesis open. -/
def openText : String := "#road[(lanes > 1] \x7b width: 1; \x7d"

/-- A filter that leaves a parenthesis open is accepted. Behind that parenthesis no closer fits, up to
the end of the text. -/
theorem exists_parse_not_balanced : ∃ (text : String) (p : Parsed Cql.Expr) (ts : List Token),
    Dialect.parse { engine := Cql.Expr.parse } text = .ok p ∧ Token.ofText 64 text = .ok ts ∧
      ¬ Balanced ts := by
  have hok : (Dialect.parse { engine := Cql.Expr.parse } openText).isOk := by decide +kernel
  have htokens : (Token.ofText 64 openText).isOk := by decide +kernel
  have hbalanced : ((Token.ofText 64 openText).toOption.all fun ts => decide (¬ Balanced ts)) := by
    decide +kernel
  obtain ⟨p, hparse⟩ := exists_eq_ok_of_isOk hok
  obtain ⟨ts, hts⟩ := exists_eq_ok_of_isOk htokens
  rw [hts] at hbalanced
  exact ⟨openText, p, ts, hparse, hts, of_decide_eq_true hbalanced⟩

end Dialect

end MapStyle
