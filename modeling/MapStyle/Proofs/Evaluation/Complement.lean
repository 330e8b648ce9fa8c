import Mathlib.Tactic.Lemma
import MapStyle.Cql.Expr
import MapStyle.Proofs.Evaluation.Verdicts

/-!
# Opposite expressions

Every attribute expression has an opposite that needs no more NOT than there is inside it. It gives the other
answer where the expression gives one, and where the expression fails it fails in the same way.
-/

namespace MapStyle

namespace Verdict

variable {ε : Type}

@[simp] lemma not_ok (b : Bool) : not (.ok b : Verdict ε) = .ok !b := rfl

@[simp] lemma not_error (e : ε) : not (.error e) = .error e := rfl

@[simp] lemma not_not (v : Verdict ε) : v.not.not = v := by
  rcases v with _ | _ | _ <;> rfl

lemma not_eq_ok_iff {v : Verdict ε} {b : Bool} : v.not = .ok !b ↔ v = .ok b := by
  rcases v with _ | _ | _ <;> simp

lemma not_eq_error_iff {v : Verdict ε} {e : ε} : v.not = .error e ↔ v = .error e := by
  rcases v with _ | _ | _ <;> simp

end Verdict

namespace Cql

/-- The comparator that is true of exactly the other orders. -/
def Comparator.opposite : Comparator → Comparator
  | eq => ne
  | ne => eq
  | lt => ge
  | le => gt
  | gt => le
  | ge => lt

lemma Comparator.accepts_opposite (op : Comparator) (o : Ordering) :
    op.opposite.accepts o = !op.accepts o := by
  cases op <;> cases o <;> rfl

/-- Values without an order are unequal and not equal; to the other questions about them there is no answer,
and the opposite question has none either. -/
lemma Comparator.test_opposite (op : Comparator) (l r : Literal) :
    op.opposite.test l r = (op.test l r).not := by
  unfold test
  cases l.compare? r with
  | some o => exact congrArg Except.ok (op.accepts_opposite o)
  | none => cases op <;> rfl

namespace Expr

mutual

/-- The opposite of an expression, with NOT drawn in to the comparisons: a conjunction becomes a disjunction of
opposites and the other way round, an expression under NOT stands by itself. -/
def opposite : Expr → Expr
  | all parts => any (oppositeEach parts)
  | any parts => all (oppositeEach parts)
  | not inner => inner
  | compare left op right => compare left op.opposite right
  | isNull operand negated => isNull operand !negated

/-- The opposites of the expressions of a list. -/
def oppositeEach : List Expr → List Expr
  | [] => []
  | e :: es => opposite e :: oppositeEach es

end

mutual

/-- The opposite says what NOT says. -/
theorem evaluate_opposite (c : Candidate) (e : Expr) : e.opposite.evaluate c = (e.evaluate c).not := by
  match e with
  | all parts =>
    rw [opposite, evaluate, evaluate]
    exact evaluateAny_oppositeEach c parts
  | any parts =>
    rw [opposite, evaluate, evaluate]
    exact evaluateAll_oppositeEach c parts
  | not inner => rw [opposite, evaluate, Verdict.not_not]
  | compare left op right =>
    rw [opposite, evaluate, evaluate]
    -- both sides are looked up before they are compared, the left one first
    cases left.resolve c with
    | error => rfl
    | ok l =>
      cases right.resolve c with
      | error => rfl
      | ok r => exact op.test_opposite l r
  | isNull operand negated =>
    rw [opposite, evaluate, evaluate, Verdict.not_ok, Bool.bne_not]

lemma evaluateAny_oppositeEach (c : Candidate) (es : List Expr) :
    evaluateAny c (oppositeEach es) = (evaluateAll c es).not := by
  match es with
  | [] => rfl
  | e :: es =>
    rw [oppositeEach, evaluateAny, evaluateAll, evaluate_opposite c e, evaluateAny_oppositeEach c es,
      Verdict.not_and]

lemma evaluateAll_oppositeEach (c : Candidate) (es : List Expr) :
    evaluateAll c (oppositeEach es) = (evaluateAny c es).not := by
  match es with
  | [] => rfl
  | e :: es =>
    rw [oppositeEach, evaluateAll, evaluateAny, evaluate_opposite c e, evaluateAll_oppositeEach c es,
      Verdict.not_or]

end

/-- The opposite of an expression is an exact complement on every candidate: it gives one answer where the
expression gives the other, fails for a given reason where the expression fails for that reason, and so cannot
be told from the expression under NOT. -/
theorem opposite_complement (e : Expr) (c : Candidate) :
    (∀ b, e.opposite.evaluate c = .ok (!b) ↔ e.evaluate c = .ok b) ∧
      (∀ failure, e.opposite.evaluate c = .error failure ↔ e.evaluate c = .error failure) ∧
      e.opposite.evaluate c = (not e).evaluate c := by
  rw [evaluate_opposite, evaluate]
  exact ⟨fun _ => Verdict.not_eq_ok_iff, fun _ => Verdict.not_eq_error_iff, rfl⟩

end Expr

end Cql

end MapStyle
