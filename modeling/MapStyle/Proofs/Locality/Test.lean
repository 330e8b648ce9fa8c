import Mathlib.Tactic.Lemma
import MapStyle.Selector
import MapStyle.Cql.Expr

/-!
# What tests look at

A test of a candidate depends only on the attributes that it names. This holds for the attribute
expressions, and from there for filters and selectors over every language of which it holds.
-/

namespace MapStyle

/-- A language whose tests depend only on the attributes that they name. -/
class LocalPredicate (P : Type) [Predicate P] : Prop where
  evaluate_congr : ∀ (p : P) (c d : Candidate), (∀ name ∈ Predicate.fields p, c name = d name) →
    Predicate.evaluate p c = Predicate.evaluate p d

/-! ### Attribute expressions -/

namespace Cql

variable {c d : Candidate}

lemma Operand.resolve_congr {o : Operand} (h : ∀ name ∈ o.fields, c name = d name) :
    o.resolve c = o.resolve d := by
  cases o with
  | reference name => simp only [resolve, h name (List.mem_singleton_self name)]
  | literal value => rfl

lemma Operand.isNull_congr {o : Operand} (h : ∀ name ∈ o.fields, c name = d name) :
    o.isNull c = o.isNull d := by
  cases o with
  | reference name => simp only [isNull, h name (List.mem_singleton_self name)]
  | literal value => rfl

mutual

lemma Expr.evaluate_congr (e : Expr) (h : ∀ name ∈ e.fields, c name = d name) :
    e.evaluate c = e.evaluate d := by
  match e with
  | .all parts =>
    rw [evaluate, evaluate]
    exact Expr.evaluateAll_congr parts h
  | .any parts =>
    rw [evaluate, evaluate]
    exact Expr.evaluateAny_congr parts h
  | .not inner =>
    rw [evaluate, evaluate, Expr.evaluate_congr inner h]
  | .compare left op right =>
    rw [Expr.fields, List.forall_mem_append] at h
    rw [evaluate, evaluate, Operand.resolve_congr h.1, Operand.resolve_congr h.2]
  | .isNull operand negated =>
    rw [evaluate, evaluate, Operand.isNull_congr h]

lemma Expr.evaluateAll_congr (es : List Expr) (h : ∀ name ∈ Expr.fieldsList es, c name = d name) :
    Expr.evaluateAll c es = Expr.evaluateAll d es := by
  match es with
  | [] => rfl
  | e :: es =>
    rw [Expr.fieldsList, List.forall_mem_append] at h
    rw [evaluateAll, evaluateAll, Expr.evaluate_congr e h.1, Expr.evaluateAll_congr es h.2]

lemma Expr.evaluateAny_congr (es : List Expr) (h : ∀ name ∈ Expr.fieldsList es, c name = d name) :
    Expr.evaluateAny c es = Expr.evaluateAny d es := by
  match es with
  | [] => rfl
  | e :: es =>
    rw [Expr.fieldsList, List.forall_mem_append] at h
    rw [evaluateAny, evaluateAny, Expr.evaluate_congr e h.1, Expr.evaluateAny_congr es h.2]

end

instance : LocalPredicate Expr :=
  ⟨fun e _ _ h => Expr.evaluate_congr e h⟩

end Cql

/-! ### Filters and selectors -/

variable {P : Type} [Predicate P] {c d : Candidate}

namespace Filter

mutual

lemma evaluate_congr [LocalPredicate P] (f : Filter P)
    (h : ∀ name ∈ f.fields, c name = d name) : f.evaluate c = f.evaluate d := by
  match f with
  | .predicate p =>
    rw [evaluate, evaluate]
    exact LocalPredicate.evaluate_congr p c d h
  | .all parts =>
    rw [evaluate, evaluate]
    exact evaluateAll_congr parts h
  | .any parts =>
    rw [evaluate, evaluate]
    exact evaluateAny_congr parts h

lemma evaluateAll_congr [LocalPredicate P] (fs : List (Filter P))
    (h : ∀ name ∈ fieldsList fs, c name = d name) : evaluateAll c fs = evaluateAll d fs := by
  match fs with
  | [] => rfl
  | f :: fs =>
    rw [fieldsList, List.forall_mem_append] at h
    rw [evaluateAll, evaluateAll, evaluate_congr f h.1, evaluateAll_congr fs h.2]

lemma evaluateAny_congr [LocalPredicate P] (fs : List (Filter P))
    (h : ∀ name ∈ fieldsList fs, c name = d name) : evaluateAny c fs = evaluateAny d fs := by
  match fs with
  | [] => rfl
  | f :: fs =>
    rw [fieldsList, List.forall_mem_append] at h
    rw [evaluateAny, evaluateAny, evaluate_congr f h.1, evaluateAny_congr fs h.2]

end

end Filter

lemma Selector.accepts_congr [LocalPredicate P] {s : Selector P}
    (h : ∀ name ∈ s.fields, c name = d name) : s.accepts c = s.accepts d := by
  rw [Selector.fields] at h
  rw [Selector.accepts, Selector.accepts]
  cases hf : s.filter with
  | none => rfl
  | some f =>
    rw [hf] at h
    simp only [Option.all_some, Filter.accepts, Filter.evaluate_congr f h]

end MapStyle
