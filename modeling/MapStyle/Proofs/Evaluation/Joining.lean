import MapStyle.Proofs.Evaluation.Verdicts

/-!
# Joined filters

One answer decides a conjunction, the other one a disjunction, wherever in the list it stands; without it the
first failure is the outcome. Joining filters splices their lists, and so changes nothing about this.
-/

namespace MapStyle

namespace Verdict

variable {ε : Type}

/-- Whether the outcome is a given answer. -/
def gives (answer : Bool) : Verdict ε → Bool
  | .ok b => b == answer
  | .error _ => false

/-- Why there is no answer, if there is none. -/
def failure? : Verdict ε → Option ε
  | .ok _ => none
  | .error e => some e

/-- The given answer if one of the outcomes is that answer, else the first failure, else the opposite. -/
def seek (answer : Bool) (vs : List (Verdict ε)) : Verdict ε :=
  if vs.any (·.gives answer) then .ok answer else (vs.findSome? failure?).elim (.ok !answer) .error

@[simp] lemma seek_nil (answer : Bool) : seek answer ([] : List (Verdict ε)) = .ok !answer := rfl

lemma seek_cons_ok (answer b : Bool) (vs : List (Verdict ε)) :
    seek answer (.ok b :: vs) = if b = answer then .ok answer else seek answer vs := by
  rw [seek, List.any_cons, List.findSome?_cons]
  by_cases h : b = answer
  · simp [gives, h]
  · rw [if_neg h, gives, beq_false_of_ne h, Bool.false_or, failure?, seek]

/-- A failure in front is the outcome unless one of the others is the given answer. -/
lemma seek_cons_error (answer : Bool) (e : ε) (vs : List (Verdict ε)) :
    seek answer (.error e :: vs) = if vs.any (·.gives answer) then .ok answer else .error e := by
  rw [seek, List.any_cons, List.findSome?_cons, gives, Bool.false_or, failure?, Option.elim_some]

lemma any_gives (answer : Bool) (vs : List (Verdict ε)) :
    vs.any (·.gives answer) = (seek answer vs).gives answer := by
  by_cases h : vs.any (·.gives answer)
  · rw [seek, if_pos h, h, gives, beq_self_eq_true]
  · rw [seek, if_neg h, Bool.eq_false_iff.2 h]
    cases vs.findSome? failure? <;> simp [gives]

/-- A conjunction looks for a false part. -/
lemma seek_false_cons (v : Verdict ε) (vs : List (Verdict ε)) :
    seek false (v :: vs) = v.and (seek false vs) := by
  match v with
  | .ok true | .ok false => simp [seek_cons_ok, Verdict.and]
  | .error e =>
    rw [seek_cons_error, any_gives]
    rcases seek false vs with _ | _ | _ <;> rfl

/-- A disjunction looks for a true part. -/
lemma seek_true_cons (v : Verdict ε) (vs : List (Verdict ε)) :
    seek true (v :: vs) = v.or (seek true vs) := by
  match v with
  | .ok true | .ok false => simp [seek_cons_ok, Verdict.or]
  | .error e =>
    rw [seek_cons_error, any_gives]
    rcases seek true vs with _ | _ | _ <;> rfl

lemma and_eq_seek (u v : Verdict ε) : u.and v = seek false [u, v] := by
  rw [seek_false_cons, seek_false_cons, seek_nil, Bool.not_false, and_ok_true]

lemma or_eq_seek (u v : Verdict ε) : u.or v = seek true [u, v] := by
  rw [seek_true_cons, seek_true_cons, seek_nil, Bool.not_true, or_ok_false]

end Verdict

namespace Filter

variable {P : Type} [Predicate P]

/-- What joined filters say depends only on what the two sides say: one false side makes `and` false, one true
side makes `or` true, and otherwise a failure comes before the answer that is left, the one on the left before
the one on the right. A candidate passes `and` if it passes both sides and `or` if it passes one of them, and
the trees themselves do not show which of three filters were joined first. -/
theorem evaluate_joined (f g h : Filter P) (c : Candidate) :
    ((f.and g).evaluate c = Verdict.seek false [f.evaluate c, g.evaluate c] ∧
      (f.or g).evaluate c = Verdict.seek true [f.evaluate c, g.evaluate c]) ∧
    ((f.and g).accepts c = (f.accepts c && g.accepts c) ∧
      (f.or g).accepts c = (f.accepts c || g.accepts c)) ∧
    (f.and g).and h = f.and (g.and h) ∧ (f.or g).or h = f.or (g.or h) :=
  ⟨⟨by rw [evaluate_and, Verdict.and_eq_seek], by rw [evaluate_or, Verdict.or_eq_seek]⟩,
    ⟨accepts_and c f g, accepts_or c f g⟩, and_assoc f g h, or_assoc f g h⟩

end Filter

end MapStyle
