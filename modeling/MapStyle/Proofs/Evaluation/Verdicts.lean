import Mathlib.Tactic.Lemma
import MapStyle.Filter

/-!
# Outcomes and their connectives

The laws of conjunction, disjunction and opposite for tests that may have no answer, and that joining
filters, which splices their lists of parts, means the same as joining their outcomes.
-/

namespace MapStyle

namespace Verdict

variable {ε : Type}

lemma holds_iff (v : Verdict ε) : v.holds = true ↔ v = .ok true := by
  rcases v with _ | _ | _ <;> simp [holds]

@[simp] lemma ok_true_and (v : Verdict ε) : and (.ok true) v = v := rfl

@[simp] lemma ok_false_or (v : Verdict ε) : or (.ok false) v = v := rfl

@[simp] lemma and_ok_true (v : Verdict ε) : and v (.ok true) = v := by
  rcases v with _ | _ | _ <;> rfl

@[simp] lemma or_ok_false (v : Verdict ε) : or v (.ok false) = v := by
  rcases v with _ | _ | _ <;> rfl

lemma and_assoc (u v w : Verdict ε) : and (and u v) w = and u (and v w) := by
  rcases u with _ | _ | _ <;> rcases v with _ | _ | _ <;> rcases w with _ | _ | _ <;> rfl

lemma or_assoc (u v w : Verdict ε) : or (or u v) w = or u (or v w) := by
  rcases u with _ | _ | _ <;> rcases v with _ | _ | _ <;> rcases w with _ | _ | _ <;> rfl

lemma holds_and (u v : Verdict ε) : (and u v).holds = (u.holds && v.holds) := by
  rcases u with _ | _ | _ <;> rcases v with _ | _ | _ <;> rfl

lemma holds_or (u v : Verdict ε) : (or u v).holds = (u.holds || v.holds) := by
  rcases u with _ | _ | _ <;> rcases v with _ | _ | _ <;> rfl

lemma not_and (u v : Verdict ε) : not (and u v) = or (not u) (not v) := by
  rcases u with _ | _ | _ <;> rcases v with _ | _ | _ <;> rfl

lemma not_or (u v : Verdict ε) : not (or u v) = and (not u) (not v) := by
  rcases u with _ | _ | _ <;> rcases v with _ | _ | _ <;> rfl

end Verdict

namespace Filter

variable {P : Type}

/-- Three joined filters are one list of parts, whichever two are joined first. -/
lemma and_assoc (f g h : Filter P) : (f.and g).and h = f.and (g.and h) :=
  congrArg all (List.append_assoc _ _ _)

lemma or_assoc (f g h : Filter P) : (f.or g).or h = f.or (g.or h) :=
  congrArg any (List.append_assoc _ _ _)

variable [Predicate P]

/-! ### Conjunctions -/

lemma evaluateAll_append (c : Candidate) (fs gs : List (Filter P)) :
    evaluateAll c (fs ++ gs) = (evaluateAll c fs).and (evaluateAll c gs) := by
  induction fs with
  | nil => rfl
  | cons f fs ih => rw [List.cons_append, evaluateAll, evaluateAll, ih, Verdict.and_assoc]

lemma evaluateAll_conjuncts (c : Candidate) (f : Filter P) :
    evaluateAll c f.conjuncts = f.evaluate c := by
  cases f <;> simp [conjuncts, evaluate, evaluateAll]

/-- Joining two filters keeps the tree flat and means the conjunction of both. -/
lemma evaluate_and (c : Candidate) (f g : Filter P) :
    (f.and g).evaluate c = (f.evaluate c).and (g.evaluate c) := by
  rw [Filter.and, evaluate, evaluateAll_append, evaluateAll_conjuncts, evaluateAll_conjuncts]

lemma accepts_and (c : Candidate) (f g : Filter P) :
    (f.and g).accepts c = (f.accepts c && g.accepts c) := by
  rw [accepts, evaluate_and, Verdict.holds_and, accepts, accepts]

/-! ### Disjunctions -/

lemma evaluateAny_append (c : Candidate) (fs gs : List (Filter P)) :
    evaluateAny c (fs ++ gs) = (evaluateAny c fs).or (evaluateAny c gs) := by
  induction fs with
  | nil => rfl
  | cons f fs ih => rw [List.cons_append, evaluateAny, evaluateAny, ih, Verdict.or_assoc]

lemma evaluateAny_disjuncts (c : Candidate) (f : Filter P) :
    evaluateAny c f.disjuncts = f.evaluate c := by
  cases f <;> simp [disjuncts, evaluate, evaluateAny]

/-- Joining two filters keeps the tree flat and means the disjunction of both. -/
lemma evaluate_or (c : Candidate) (f g : Filter P) :
    (f.or g).evaluate c = (f.evaluate c).or (g.evaluate c) := by
  rw [Filter.or, evaluate, evaluateAny_append, evaluateAny_disjuncts, evaluateAny_disjuncts]

lemma accepts_or (c : Candidate) (f g : Filter P) :
    (f.or g).accepts c = (f.accepts c || g.accepts c) := by
  rw [accepts, evaluate_or, Verdict.holds_or, accepts, accepts]

end Filter

end MapStyle
