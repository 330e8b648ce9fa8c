import MapStyle.Proofs.Evaluation.Verdicts
import MapStyle.Proofs.Printing.Rereading

/-!
# Written filters

Both an expression and a filter are written as tests in a row. In an expression only the parts that are
lists themselves stand in parentheses, in a filter every part does. The engine reads the text of a plain
filter as one expression, which says the same of every candidate as the filter.
-/

namespace MapStyle.Cql

open Lexeme

/-! ### Tests in a row -/

lemma spelled_intercalate (sep : List (Lexeme × List Char)) (lss : List (List (Lexeme × List Char))) :
    spelled (sep.intercalate lss) = (spelled sep).intercalate (lss.map spelled) := by
  induction lss with
  | nil => rfl
  | cons ls lss ih =>
    cases lss with
    | nil => simp
    | cons ms lss => simpa using ih

namespace Test

variable {t : Test}

lemma spelled_joinedLexemes (disjunction : Bool) (ts : List Test) :
    spelled (joinedLexemes disjunction ts) =
      (if disjunction then " OR " else " AND ").toList.intercalate ((lexemesEach ts).map spelled) := by
  rw [joinedLexemes, spelled_intercalate]
  cases disjunction <;> rfl

/-- The tests that a test is written as where it needs no parentheses, and whether OR stands between
them. -/
def row : Test → Bool × List Test
  | .group false disjunction parts => (disjunction, parts)
  | t => (false, [t])

/-- A test in parentheses, with NOT before them or without. Parentheses are not doubled. -/
def enclose (negated : Bool) (t : Test) : Test :=
  .group negated t.row.1 t.row.2

/-- The lexemes that a test is written as where it needs no parentheses. -/
def rowLexemes (t : Test) : List (Lexeme × List Char) :=
  joinedLexemes t.row.1 t.row.2

lemma lexemes_enclose (negated : Bool) (t : Test) :
    (t.enclose negated).lexemes = (if negated then [word "NOT", blank] else []) ++
      (.opener .paren, ['(']) :: (t.rowLexemes ++ [(.closer .paren, [')'])]) := rfl

lemma rowLexemes_eq_self (h : t.row = (false, [t])) : t.rowLexemes = t.lexemes := by
  rw [rowLexemes, h]
  exact joinedLexemes_singleton ..

lemma joined_row (t : Test) : joined t.row.1 (exprs t.row.2) = t.expr := by
  match t with
  | .group false _ _ | .group true _ _ | .compare _ _ _ | .isNull _ _ => rfl

lemma expr_enclose (negated : Bool) (t : Test) :
    (t.enclose negated).expr = if negated then .not t.expr else t.expr := by
  rw [enclose, expr, joined_row]

lemma IsPlain.row (h : t.IsPlain) : t.row.2 ≠ [] ∧ ∀ u ∈ t.row.2, u.IsPlain := by
  have hself : [t] ≠ [] ∧ ∀ u ∈ [t], u.IsPlain := by
    refine ⟨nofun, ?_⟩
    rintro u (_ | ⟨_, ⟨⟩⟩)
    exact h
  cases h with
  | group negated disjunction hne hparts =>
    cases negated
    · exact ⟨hne, hparts⟩
    · exact hself
  | _ => exact hself

lemma IsPlain.enclose (h : t.IsPlain) (negated : Bool) : (t.enclose negated).IsPlain :=
  .group negated _ h.row.1 h.row.2

/-- The engine reads a plain test without the parentheses around it. -/
lemma IsPlain.parse_row (h : t.IsPlain) :
    Expr.parse (String.ofList (spelled t.rowLexemes)) = .ok t.expr := by
  rw [← joined_row]
  exact parse_text t.row.1 h.row.1 h.row.2

end Test

/-! ### The ends of a text -/

lemma not_isBlank_of_isPlain {c : Char} (h : isPlain c) : ¬ Text.isBlank c := by
  simp only [isPlain, Char.isAlphanum, Bool.or_eq_true, isAlpha_iff, isDigit_iff, beq_iff_eq] at h
  rcases h with (h | rfl) | rfl
  · simp [Text.isBlank] at h ⊢
    omega
  · decide
  · decide

lemma isTrimmed_of_isIdentifier {w : List Char} (h : IsIdentifier w) : Text.IsTrimmed w := by
  refine .of_forall ?_ fun c hc => not_isBlank_of_isPlain (h.plain c hc)
  rintro rfl
  cases h.starts

lemma Operand.IsPlain.isTrimmed {o : Operand} (h : o.IsPlain) : Text.IsTrimmed o.lexeme.2 := by
  cases h with
  | reference hname => exact isTrimmed_of_isIdentifier hname
  | integer n => exact Literal.isTrimmed_of_isNumeral (Literal.isNumeral_toString _)
  | boolean b => cases b <;> exact isTrimmed_of_isIdentifier (by decide)
  | string hs =>
    have hquote : Text.IsTrimmed ['\''] := .singleton (by decide)
    exact hquote.append _ hquote
  | color hs =>
    obtain ⟨w, hw, hident⟩ := hs
    have hsign : Text.IsTrimmed ['#'] := .singleton (by decide)
    have h := hsign.append [] (isTrimmed_of_isIdentifier hident)
    rwa [List.nil_append, List.singleton_append, ← hw] at h

namespace Test

variable {t : Test} {ts : List Test}

lemma isTrimmed_joinedLexemes (disjunction : Bool) (hne : ts ≠ [])
    (h : ∀ t ∈ ts, Text.IsTrimmed (spelled t.lexemes)) :
    Text.IsTrimmed (spelled (joinedLexemes disjunction ts)) := by
  induction ts with
  | nil => exact absurd rfl hne
  | cons t ts ih =>
    obtain ⟨ht, hts⟩ := List.forall_mem_cons.mp h
    cases ts with
    | nil => rwa [joinedLexemes_singleton]
    | cons u ts =>
      rw [joinedLexemes_cons_cons, List.append_assoc, spelled_append, spelled_append]
      exact ht.append _ (ih nofun hts)

lemma IsPlain.isTrimmed (h : t.IsPlain) : Text.IsTrimmed (spelled t.lexemes) := by
  have hword {w : List Char} (hne : w ≠ []) (hw : w.all isPlain) : Text.IsTrimmed w :=
    .of_forall hne fun c hc => not_isBlank_of_isPlain (List.all_eq_true.mp hw c hc)
  induction h with
  | compare op hleft hright =>
    have h := hleft.isTrimmed.append (' ' :: (spelled op.lexemes ++ [' '])) hright.isTrimmed
    simpa [lexemes, blank] using h
  | isNull negated h =>
    have hnull := hword (w := "NULL".toList) (by decide) (by decide)
    have h := h.isTrimmed.append (spelled (blank :: word "IS" :: blank ::
      (if negated then [word "NOT", blank] else []))) hnull
    simpa [lexemes, blank, word] using h
  | @group parts negated disjunction =>
    have hclose : Text.IsTrimmed [')'] := .singleton (by decide)
    cases negated with
    | false =>
      have hopen : Text.IsTrimmed ['('] := .singleton (by decide)
      have h := hopen.append (spelled (joinedLexemes disjunction parts)) hclose
      simpa [lexemes, joinedLexemes] using h
    | true =>
      have hopen := hword (w := "NOT".toList) (by decide) (by decide)
      have h := hopen.append (' ' :: '(' :: spelled (joinedLexemes disjunction parts)) hclose
      simpa [lexemes, joinedLexemes, word, blank] using h

lemma IsPlain.isTrimmed_row (h : t.IsPlain) : Text.IsTrimmed (spelled t.rowLexemes) :=
  isTrimmed_joinedLexemes t.row.1 h.row.1 fun u hu => (h.row.2 u hu).isTrimmed

end Test

/-! ### Expressions as tests -/

namespace Expr

mutual

/-- The test that an expression is written as. -/
def test : Expr → Test
  | all parts => .group false false (tests parts)
  | any parts => .group false true (tests parts)
  | not inner => .enclose true (test inner)
  | compare left op right => .compare left op right
  | isNull operand negated => .isNull operand negated

/-- The tests that the expressions of a list are written as. -/
def tests : List Expr → List Test
  | [] => []
  | e :: es => test e :: tests es

end

/-- An expression that is written in one way only: its operands are plain, and there are at least two
parts in every list. -/
inductive IsPlain : Expr → Prop
  | all {parts : List Expr} (hparts : ∀ e ∈ parts, IsPlain e) (hlength : 2 ≤ parts.length) :
      IsPlain (.all parts)
  | any {parts : List Expr} (hparts : ∀ e ∈ parts, IsPlain e) (hlength : 2 ≤ parts.length) :
      IsPlain (.any parts)
  | not {inner : Expr} (h : IsPlain inner) : IsPlain (.not inner)
  | compare {left right : Operand} (op : Comparator) (hleft : left.IsPlain) (hright : right.IsPlain) :
      IsPlain (.compare left op right)
  | isNull {operand : Operand} (negated : Bool) (h : operand.IsPlain) :
      IsPlain (.isNull operand negated)

variable {e : Expr} {es : List Expr}

lemma tests_eq_map (es : List Expr) : tests es = es.map test := by
  induction es with
  | nil => rfl
  | cons e es ih => rw [tests, ih, List.map_cons]

lemma IsPlain.isPlain_test (h : e.IsPlain) : e.test.IsPlain := by
  have hlist {es : List Expr} (hlength : 2 ≤ es.length) (ih : ∀ e ∈ es, e.test.IsPlain)
      (disjunction : Bool) : (Test.group false disjunction (tests es)).IsPlain := by
    rw [tests_eq_map]
    refine .group false disjunction ?_ (List.forall_mem_map.mpr ih)
    rintro hnil
    rw [List.map_eq_nil_iff.mp hnil] at hlength
    cases hlength
  induction h with
  | all _ hlength ih => exact hlist hlength ih false
  | any _ hlength ih => exact hlist hlength ih true
  | not _ ih => exact ih.enclose true
  | compare op hleft hright => exact .compare op hleft hright
  | isNull negated h => exact .isNull negated h

lemma collapse_of_two_le {join : List Expr → Expr} (h : 2 ≤ es.length) :
    collapse join es = join es := by
  match es with
  | _ :: _ :: _ => rfl

lemma exprs_tests (h : ∀ e ∈ es, e.test.expr = e) : Test.exprs (tests es) = es := by
  induction es with
  | nil => rfl
  | cons e es ih =>
    obtain ⟨he, hes⟩ := List.forall_mem_cons.mp h
    rw [tests, Test.exprs, he, ih hes]

/-- A plain expression is the one that its written form stands for. -/
lemma IsPlain.expr_test (h : e.IsPlain) : e.test.expr = e := by
  induction h with
  | all _ hlength ih => exact (congrArg _ (exprs_tests ih)).trans (collapse_of_two_le hlength)
  | any _ hlength ih => exact (congrArg _ (exprs_tests ih)).trans (collapse_of_two_le hlength)
  | not _ ih => rw [test, Test.expr_enclose, if_pos rfl, ih]
  | compare => rfl
  | isNull => rfl

/-- What stands between AND or OR is written as one test. -/
lemma toList_part (h : e.display.toList = spelled e.test.rowLexemes) :
    (if e.isCombined then "(" ++ e.display ++ ")" else e.display).toList = spelled e.test.lexemes := by
  cases e with
  | all parts | any parts => simp [isCombined, h, test, Test.lexemes, Test.rowLexemes, Test.row,
      Test.joinedLexemes]
  | not inner => exact h.trans (congrArg spelled (Test.rowLexemes_eq_self rfl))
  | compare => exact h.trans (congrArg spelled (Test.rowLexemes_eq_self rfl))
  | isNull => exact h.trans (congrArg spelled (Test.rowLexemes_eq_self rfl))

lemma map_toList_displayParts (h : ∀ e ∈ es, e.display.toList = spelled e.test.rowLexemes) :
    (displayParts es).map String.toList = (Test.lexemesEach (tests es)).map spelled := by
  induction es with
  | nil => rfl
  | cons e es ih =>
    obtain ⟨he, hes⟩ := List.forall_mem_cons.mp h
    rw [displayParts, tests, Test.lexemesEach, List.map_cons, List.map_cons, ih hes, toList_part he]

/-- An expression is written as its tests in a row. -/
lemma IsPlain.toList_display (h : e.IsPlain) : e.display.toList = spelled e.test.rowLexemes := by
  induction h with
  | all _ _ ih =>
    rw [display, String.toList_intercalate, map_toList_displayParts ih]
    exact (Test.spelled_joinedLexemes false _).symm
  | any _ _ ih =>
    rw [display, String.toList_intercalate, map_toList_displayParts ih]
    exact (Test.spelled_joinedLexemes true _).symm
  | @not inner _ ih =>
    have hrow := Test.rowLexemes_eq_self (t := .enclose true inner.test) rfl
    rw [test, hrow, Test.lexemes_enclose]
    simp [display, ih, word, blank]
  | @compare left right op hleft hright =>
    have hrow := Test.rowLexemes_eq_self (t := .compare left op right) rfl
    rw [test, hrow, Test.lexemes]
    cases op <;> simp [display, hleft.toList_display, hright.toList_display, blank,
      Comparator.lexemes, Comparator.symbol]
  | @isNull operand negated h =>
    have hrow := Test.rowLexemes_eq_self (t := .isNull operand negated) rfl
    rw [test, hrow, Test.lexemes]
    cases negated <;> simp [display, h.toList_display, blank, word]

/-- The engine reads the written form of a plain expression back as that expression. -/
theorem parse_display_of_isPlain (h : e.IsPlain) : parse e.display = .ok e := by
  have htext : e.display = String.ofList (spelled e.test.rowLexemes) := by
    rw [← h.toList_display, String.ofList_toList]
  have hparse := h.isPlain_test.parse_row
  rwa [← htext, h.expr_test] at hparse

/-- A conjunction directly inside another one, and a negated disjunction beside it. -/
def layered : Expr :=
  .all [
    .compare (.reference "kind") .ne (.literal (.string "\"wide\" road")),
    .all [
      .isNull (.reference "name") true,
      .compare (.literal (.boolean true)) .eq (.reference "lit")],
    .not (.any [
      .compare (.reference "lanes") .le (.literal (.integer (-3))),
      .not (.compare (.reference "tint") .gt (.literal (.color "#c00")))])]

lemma isPlain_layered : layered.IsPlain := by
  refine .all ?_ (by decide)
  rintro _ (_ | ⟨_, _ | ⟨_, _ | ⟨_, ⟨⟩⟩⟩⟩)
  · refine .compare .ne (.reference (by decide) (by decide +kernel)) (.string ?_)
    exact List.all_eq_true.mp (by decide)
  · refine .all ?_ (by decide)
    rintro _ (_ | ⟨_, _ | ⟨_, ⟨⟩⟩⟩)
    · exact .isNull true (.reference (by decide) (by decide +kernel))
    · exact .compare .eq (.boolean true) (.reference (by decide) (by decide +kernel))
  · refine .not (.any ?_ (by decide))
    rintro _ (_ | ⟨_, _ | ⟨_, ⟨⟩⟩⟩)
    · exact .compare .le (.reference (by decide) (by decide +kernel)) (.integer (-3))
    · refine .not (.compare .gt (.reference (by decide) (by decide +kernel)) (.color ?_))
      exact ⟨['c', '0', '0'], rfl, by decide⟩

/-- It is written with parentheses where they are needed, and is read back from that. -/
theorem parse_display_layered :
    layered.IsPlain ∧
      layered.display = "kind != '\"wide\" road' AND (name IS NOT NULL AND TRUE = lit) AND " ++
        "NOT (lanes <= -3 OR NOT (tint > #c00))" ∧
      parse layered.display = .ok layered :=
  ⟨isPlain_layered, by decide +kernel, parse_display_of_isPlain isPlain_layered⟩

end Expr

end MapStyle.Cql

/-! ### Filters as tests -/

namespace MapStyle.Filter

open Cql

mutual

/-- The test that a filter is written as. -/
def test : Filter Expr → Test
  | predicate e => e.test
  | all parts => .group false false (tests parts)
  | any parts => .group false true (tests parts)

/-- The tests that the parts of a filter are written as, each in parentheses. -/
def tests : List (Filter Expr) → List Test
  | [] => []
  | f :: fs => .enclose false (test f) :: tests fs

end

/-- A filter that is written in one way only: its expressions are plain, and no list is empty. -/
inductive IsPlain : Filter Expr → Prop
  | predicate {e : Expr} (h : e.IsPlain) : IsPlain (.predicate e)
  | all {parts : List (Filter Expr)} (hparts : ∀ f ∈ parts, IsPlain f) (hne : parts ≠ []) :
      IsPlain (.all parts)
  | any {parts : List (Filter Expr)} (hparts : ∀ f ∈ parts, IsPlain f) (hne : parts ≠ []) :
      IsPlain (.any parts)

variable {f : Filter Expr} {fs : List (Filter Expr)}

lemma tests_eq_map (fs : List (Filter Expr)) : tests fs = fs.map fun f => f.test.enclose false := by
  induction fs with
  | nil => rfl
  | cons f fs ih => rw [tests, ih, List.map_cons]

lemma IsPlain.isPlain_test (h : f.IsPlain) : f.test.IsPlain := by
  have hlist {fs : List (Filter Expr)} (hne : fs ≠ []) (ih : ∀ f ∈ fs, f.test.IsPlain)
      (disjunction : Bool) : (Test.group false disjunction (tests fs)).IsPlain := by
    rw [tests_eq_map]
    refine .group false disjunction (mt List.map_eq_nil_iff.mp hne) (List.forall_mem_map.mpr ?_)
    exact fun f hf => (ih f hf).enclose false
  induction h with
  | predicate h => exact h.isPlain_test
  | all _ hne ih => exact hlist hne ih false
  | any _ hne ih => exact hlist hne ih true

lemma map_toList_displayParts (h : ∀ f ∈ fs, f.display.toList = spelled f.test.rowLexemes) :
    (displayParts fs).map String.toList = (Test.lexemesEach (tests fs)).map spelled := by
  induction fs with
  | nil => rfl
  | cons f fs ih =>
    obtain ⟨hf, hfs⟩ := List.forall_mem_cons.mp h
    rw [displayParts, tests, Test.lexemesEach, List.map_cons, List.map_cons, ih hfs,
      Test.lexemes_enclose]
    simp [hf]

/-- A filter is written as its tests in a row. -/
lemma IsPlain.toList_display (h : f.IsPlain) : f.display.toList = spelled f.test.rowLexemes := by
  induction h with
  | predicate h => exact h.toList_display
  | all _ _ ih =>
    rw [display, String.toList_intercalate, map_toList_displayParts ih]
    exact (Test.spelled_joinedLexemes false _).symm
  | any _ _ ih =>
    rw [display, String.toList_intercalate, map_toList_displayParts ih]
    exact (Test.spelled_joinedLexemes true _).symm

/-! ### What is read -/

lemma evaluate_collapse_all (c : Candidate) (es : List Expr) :
    (collapse .all es).evaluate c = Expr.evaluateAll c es := by
  match es with
  | [] => rfl
  | [e] => exact (Verdict.and_ok_true _).symm
  | _ :: _ :: _ => rfl

lemma evaluate_collapse_any (c : Candidate) (es : List Expr) :
    (collapse .any es).evaluate c = Expr.evaluateAny c es := by
  match es with
  | [] => rfl
  | [e] => exact (Verdict.or_ok_false _).symm
  | _ :: _ :: _ => rfl

lemma evaluateAll_tests {c : Candidate} (h : ∀ f ∈ fs, f.test.expr.evaluate c = f.evaluate c) :
    Expr.evaluateAll c (Test.exprs (tests fs)) = evaluateAll c fs := by
  induction fs with
  | nil => rfl
  | cons f fs ih =>
    obtain ⟨hf, hfs⟩ := List.forall_mem_cons.mp h
    rw [tests, Test.exprs, Expr.evaluateAll, evaluateAll, ih hfs, Test.expr_enclose, ← hf]
    rfl

lemma evaluateAny_tests {c : Candidate} (h : ∀ f ∈ fs, f.test.expr.evaluate c = f.evaluate c) :
    Expr.evaluateAny c (Test.exprs (tests fs)) = evaluateAny c fs := by
  induction fs with
  | nil => rfl
  | cons f fs ih =>
    obtain ⟨hf, hfs⟩ := List.forall_mem_cons.mp h
    rw [tests, Test.exprs, Expr.evaluateAny, evaluateAny, ih hfs, Test.expr_enclose, ← hf]
    rfl

/-- The expression that the engine makes of the text of a filter says the same of every candidate. -/
theorem IsPlain.evaluate_test (h : f.IsPlain) (c : Candidate) :
    f.test.expr.evaluate c = f.evaluate c := by
  induction h with
  | predicate h => rw [test, h.expr_test]; rfl
  | all _ _ ih => exact (evaluate_collapse_all c _).trans (evaluateAll_tests ih)
  | any _ _ ih => exact (evaluate_collapse_any c _).trans (evaluateAny_tests ih)

/-- The engine reads a plain filter as the expression that it is written as. -/
theorem IsPlain.parse_eq (h : f.IsPlain) : Expr.parse f.display = .ok f.test.expr := by
  rw [← String.ofList_toList (s := f.display), h.toList_display]
  exact h.isPlain_test.parse_row

end MapStyle.Filter
