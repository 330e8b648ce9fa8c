import Mathlib.Tactic.Lemma
import MapStyle.Cascade
import MapStyle.Proofs.Evaluation.Complement
import MapStyle.Proofs.Evaluation.Verdicts

/-!
# More attributes

An answer that a test gives on a candidate stays when the candidate gets further attributes: what is missing
can take an answer away, but cannot bring a wrong one about. Only a question for a missing attribute itself
is different.
-/

namespace MapStyle

/-! ### Outcomes that keep an answer -/

/-- If the first computation has an outcome, the second one has the same. -/
def RefinedBy {ε α : Type} (u v : Except ε α) : Prop :=
  ∀ a, u = .ok a → v = .ok a

namespace RefinedBy

variable {ε α β : Type}

lemma refl (u : Except ε α) : RefinedBy u u :=
  fun _ h => h

lemma of_error (e : ε) (v : Except ε α) : RefinedBy (.error e) v :=
  nofun

lemma bind {u v : Except ε α} {f g : α → Except ε β} (h : RefinedBy u v)
    (hfg : ∀ a, RefinedBy (f a) (g a)) : RefinedBy (u.bind f) (v.bind g) := by
  cases u with
  | error e => exact of_error e _
  | ok a =>
    rw [h a rfl]
    exact hfg a

end RefinedBy

namespace Verdict

variable {ε : Type} {u u' v v' : Verdict ε}

lemma and_eq_true_iff : u.and v = .ok true ↔ u = .ok true ∧ v = .ok true := by
  rcases u with _ | _ | _ <;> rcases v with _ | _ | _ <;> simp [Verdict.and]

lemma and_eq_false_iff : u.and v = .ok false ↔ u = .ok false ∨ v = .ok false := by
  rcases u with _ | _ | _ <;> rcases v with _ | _ | _ <;> simp [Verdict.and]

lemma or_eq_true_iff : u.or v = .ok true ↔ u = .ok true ∨ v = .ok true := by
  rcases u with _ | _ | _ <;> rcases v with _ | _ | _ <;> simp [Verdict.or]

lemma or_eq_false_iff : u.or v = .ok false ↔ u = .ok false ∧ v = .ok false := by
  rcases u with _ | _ | _ <;> rcases v with _ | _ | _ <;> simp [Verdict.or]

/-- A conjunction has its answer from a side that stays false or from two that stay true. -/
lemma refinedBy_and (hu : RefinedBy u u') (hv : RefinedBy v v') : RefinedBy (u.and v) (u'.and v') := by
  intro b hb
  cases b with
  | false => exact and_eq_false_iff.2 ((and_eq_false_iff.1 hb).imp (hu _) (hv _))
  | true => exact and_eq_true_iff.2 ((and_eq_true_iff.1 hb).imp (hu _) (hv _))

lemma refinedBy_or (hu : RefinedBy u u') (hv : RefinedBy v v') : RefinedBy (u.or v) (u'.or v') := by
  intro b hb
  cases b with
  | false => exact or_eq_false_iff.2 ((or_eq_false_iff.1 hb).imp (hu _) (hv _))
  | true => exact or_eq_true_iff.2 ((or_eq_true_iff.1 hb).imp (hu _) (hv _))

lemma refinedBy_not (h : RefinedBy u v) : RefinedBy u.not v.not := by
  intro b hb
  rw [← Bool.not_not b] at hb ⊢
  exact not_eq_ok_iff.2 (h _ (not_eq_ok_iff.1 hb))

lemma holds_of_refinedBy (h : RefinedBy u v) (hu : u.holds) : v.holds :=
  (holds_iff v).2 (h _ ((holds_iff u).1 hu))

end Verdict

/-- The second candidate has every attribute of the first one, with the same value. -/
def Candidate.Extended (c d : Candidate) : Prop :=
  ∀ name value, c name = some value → d name = some value

/-- A test whose answers stay when a candidate gets further attributes. -/
def Predicate.Stable {P : Type} [Predicate P] (p : P) : Prop :=
  ∀ c d : Candidate, Candidate.Extended c d → RefinedBy (evaluate p c) (evaluate p d)

/-! ### Attribute expressions -/

namespace Cql

variable {c d : Candidate}

/-- An attribute that is there keeps its value. -/
lemma Operand.refinedBy_resolve (o : Operand) (h : Candidate.Extended c d) :
    RefinedBy (o.resolve c) (o.resolve d) := by
  cases o with
  | literal value => exact RefinedBy.refl _
  | reference name =>
    rw [resolve, resolve]
    cases hc : c name with
    | none => exact RefinedBy.of_error _ _
    | some value =>
      rw [h name value hc]
      exact RefinedBy.refl _

namespace Expr

mutual

/-- Whether an expression asks somewhere whether an attribute is missing. -/
def asksMissing : Expr → Bool
  | all parts => asksMissingEach parts
  | any parts => asksMissingEach parts
  | not inner => asksMissing inner
  | compare .. => false
  | isNull .. => true

/-- Whether one of the expressions of a list asks for a missing attribute. -/
def asksMissingEach : List Expr → Bool
  | [] => false
  | e :: es => asksMissing e || asksMissingEach es

end

mutual

lemma refinedBy_evaluate (h : Candidate.Extended c d) (e : Expr) (he : e.asksMissing = false) :
    RefinedBy (e.evaluate c) (e.evaluate d) := by
  match e with
  | all parts =>
    rw [evaluate, evaluate]
    exact refinedBy_evaluateAll h parts he
  | any parts =>
    rw [evaluate, evaluate]
    exact refinedBy_evaluateAny h parts he
  | not inner =>
    rw [evaluate, evaluate]
    exact Verdict.refinedBy_not (refinedBy_evaluate h inner he)
  | compare left op right =>
    rw [evaluate, evaluate]
    exact (left.refinedBy_resolve h).bind fun l => (right.refinedBy_resolve h).bind fun r => RefinedBy.refl _
  | isNull operand negated => cases he

lemma refinedBy_evaluateAll (h : Candidate.Extended c d) (es : List Expr)
    (hes : asksMissingEach es = false) : RefinedBy (evaluateAll c es) (evaluateAll d es) := by
  match es with
  | [] => exact RefinedBy.refl _
  | e :: es =>
    rw [asksMissingEach, Bool.or_eq_false_iff] at hes
    rw [evaluateAll, evaluateAll]
    exact Verdict.refinedBy_and (refinedBy_evaluate h e hes.1) (refinedBy_evaluateAll h es hes.2)

lemma refinedBy_evaluateAny (h : Candidate.Extended c d) (es : List Expr)
    (hes : asksMissingEach es = false) : RefinedBy (evaluateAny c es) (evaluateAny d es) := by
  match es with
  | [] => exact RefinedBy.refl _
  | e :: es =>
    rw [asksMissingEach, Bool.or_eq_false_iff] at hes
    rw [evaluateAny, evaluateAny]
    exact Verdict.refinedBy_or (refinedBy_evaluate h e hes.1) (refinedBy_evaluateAny h es hes.2)

end

/-- Comparisons and their combinations are stable. -/
lemma stable {e : Expr} (he : e.asksMissing = false) : Predicate.Stable e :=
  fun _ _ h => refinedBy_evaluate h e he

end Expr

end Cql

/-! ### Filters, selectors and rules -/

namespace Filter

variable {P : Type}

mutual

/-- The predicates of a filter, in reading order. -/
def predicates : Filter P → List P
  | predicate p => [p]
  | all parts => predicatesEach parts
  | any parts => predicatesEach parts

/-- The predicates of the filters of a list. -/
def predicatesEach : List (Filter P) → List P
  | [] => []
  | f :: fs => predicates f ++ predicatesEach fs

end

variable [Predicate P] {c d : Candidate}

mutual

/-- A filter of stable predicates keeps its answer. -/
theorem refinedBy_evaluate (h : Candidate.Extended c d) (f : Filter P)
    (hf : ∀ p ∈ f.predicates, Predicate.Stable p) : RefinedBy (f.evaluate c) (f.evaluate d) := by
  match f with
  | predicate p =>
    rw [evaluate, evaluate]
    exact hf p (List.mem_singleton_self p) c d h
  | all parts =>
    rw [evaluate, evaluate]
    exact refinedBy_evaluateAll h parts hf
  | any parts =>
    rw [evaluate, evaluate]
    exact refinedBy_evaluateAny h parts hf

lemma refinedBy_evaluateAll (h : Candidate.Extended c d) (fs : List (Filter P))
    (hfs : ∀ p ∈ predicatesEach fs, Predicate.Stable p) :
    RefinedBy (evaluateAll c fs) (evaluateAll d fs) := by
  match fs with
  | [] => exact RefinedBy.refl _
  | f :: fs =>
    rw [predicatesEach, List.forall_mem_append] at hfs
    rw [evaluateAll, evaluateAll]
    exact Verdict.refinedBy_and (refinedBy_evaluate h f hfs.1) (refinedBy_evaluateAll h fs hfs.2)

lemma refinedBy_evaluateAny (h : Candidate.Extended c d) (fs : List (Filter P))
    (hfs : ∀ p ∈ predicatesEach fs, Predicate.Stable p) :
    RefinedBy (evaluateAny c fs) (evaluateAny d fs) := by
  match fs with
  | [] => exact RefinedBy.refl _
  | f :: fs =>
    rw [predicatesEach, List.forall_mem_append] at hfs
    rw [evaluateAny, evaluateAny]
    exact Verdict.refinedBy_or (refinedBy_evaluate h f hfs.1) (refinedBy_evaluateAny h fs hfs.2)

end

end Filter

variable {P : Type} [Predicate P] {c d : Candidate}

/-- The predicates of the filters of a rule's own selectors. -/
def Rule.predicates {P : Type} (r : Rule P) : List P :=
  r.selectors.flatMap fun s => s.filter.toList.flatMap Filter.predicates

/-- A selector accepts whatever it accepted with fewer attributes. -/
lemma Selector.accepts_of_extended (h : Candidate.Extended c d) {s : Selector P}
    (hs : ∀ f ∈ s.filter, ∀ p ∈ f.predicates, Predicate.Stable p) (hc : s.accepts c) : s.accepts d := by
  rw [accepts, Option.all_eq_true] at hc ⊢
  exact fun f hf => Verdict.holds_of_refinedBy (f.refinedBy_evaluate h (hs f hf)) (hc f hf)

lemma RuleList.matching_sublist (h : Candidate.Extended c d) {rs : RuleList P}
    (hrs : ∀ r ∈ rs, ∀ p ∈ r.predicates, Predicate.Stable p) :
    (rs.matching c).Sublist (rs.matching d) := by
  have himp : ∀ r ∈ rs, r.selectors.any (·.accepts c) → r.selectors.any (·.accepts d) := by
    intro r hr hc
    obtain ⟨s, hs, hsc⟩ := List.any_eq_true.1 hc
    refine List.any_eq_true.2 ⟨s, hs, s.accepts_of_extended h (fun f hf p hp => hrs r hr p ?_) hsc⟩
    rw [Rule.predicates, List.mem_flatMap]
    exact ⟨s, hs, List.mem_flatMap.2 ⟨f, Option.mem_toList.2 hf, hp⟩⟩
  -- the rules that match with fewer attributes are those among the others that do so
  have hfilter : rs.matching c = (rs.matching d).filter fun r => r.selectors.any (·.accepts c) := by
    rw [matching, matching, List.filter_filter]
    refine List.filter_congr fun r hr => ?_
    cases hc : r.selectors.any (·.accepts c) with
    | false => rfl
    | true => rw [himp r hr hc, Bool.and_true]
  rw [hfilter]
  exact List.filter_sublist

namespace Cql

/-- Missing information never decides wrongly. A filter of attribute expressions that do not ask for missing
attributes keeps the answer that it gives on a candidate when the candidate gets further attributes, and so the
rules with such filters that match stay, in their order. -/
theorem evaluate_extended (h : Candidate.Extended c d) :
    (∀ f : Filter Expr, (∀ e ∈ f.predicates, e.asksMissing = false) →
      ∀ b, f.evaluate c = .ok b → f.evaluate d = .ok b) ∧
    ∀ rs : RuleList Expr, (∀ r ∈ rs, ∀ e ∈ r.predicates, e.asksMissing = false) →
      (rs.matching c).Sublist (rs.matching d) :=
  ⟨fun f hf => f.refinedBy_evaluate h fun e he => Expr.stable (hf e he),
    fun _ hrs => RuleList.matching_sublist h fun r hr e he => Expr.stable (hrs r hr e he)⟩

/-- A road of which nothing but its direction is known. -/
def onewayRoad : Candidate := fun name => if name = "oneway" then some (.boolean true) else none

/-- The same road, which is now known to be lit. -/
def litRoad : Candidate := fun name => if name = "lit" then some (.boolean true) else onewayRoad name

/-- One-way roads and unlit ones. -/
def onewayOrUnlit : Filter Expr :=
  .any [.predicate (.not (.compare (.reference "lit") .eq (.literal (.boolean true)))),
    .predicate (.compare (.reference "oneway") .eq (.literal (.boolean true)))]

/-- The first part fails as long as nothing is known of the light, and becomes false then. -/
theorem evaluate_litRoad : onewayOrUnlit.evaluate onewayRoad = .ok true ∧
    onewayOrUnlit.evaluate litRoad = .ok true ∧
      (RuleList.matching [.ofSelectors [{ filter := some onewayOrUnlit }]] onewayRoad).Sublist
        (RuleList.matching [.ofSelectors [{ filter := some onewayOrUnlit }]] litRoad) := by
  have hroads : Candidate.Extended onewayRoad litRoad := by
    intro name value h
    by_cases hname : name = "lit"
    · subst hname
      cases h
    · rw [litRoad, if_neg hname, h]
  have hc : onewayOrUnlit.evaluate onewayRoad = .ok true := rfl
  exact ⟨hc, (evaluate_extended hroads).1 _ (by decide) true hc,
    (evaluate_extended hroads).2 _ (by decide)⟩

/-- Without its light, the road counts as one for which the light is missing. -/
example : (Expr.isNull (.reference "lit") false).evaluate onewayRoad = .ok true ∧
    (Expr.isNull (.reference "lit") false).evaluate litRoad = .ok false :=
  ⟨rfl, rfl⟩

end Cql

end MapStyle
