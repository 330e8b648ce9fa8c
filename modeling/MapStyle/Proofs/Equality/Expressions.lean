import MapStyle.Proofs.Equality.Operands

/-!
# Expressions with the same text

An expression can be told from its text: parentheses show what belongs together, and the words and signs
between two operands show how they are tested. So legible expressions with the same text have the same
outcome on every candidate (`Expr.alike_of_display`).
-/

namespace MapStyle

/-! ### Outcomes that tell the same -/

/-- What a failed test tells: the attribute that is missing, or the texts of the two values. -/
def EvalError.report : EvalError → String ⊕ String × String
  | missingAttribute name => .inl name
  | incomparable left right => .inr (left.display, right.display)

namespace Verdict

section

variable {ε ε' : Type} (h : ε → ε') (u v : Verdict ε)

lemma mapError_and : (u.and v).mapError h = and (u.mapError h) (v.mapError h) := by
  rcases u with _ | _ | _ <;> rcases v with _ | _ | _ <;> rfl

lemma mapError_or : (u.or v).mapError h = or (u.mapError h) (v.mapError h) := by
  rcases u with _ | _ | _ <;> rcases v with _ | _ | _ <;> rfl

lemma mapError_not : u.not.mapError h = not (u.mapError h) := by
  rcases u with _ | _ <;> rfl

end

/-- Outcomes that tell the same: the same answer, or failures with the same report. -/
def Alike (u v : Verdict EvalError) : Prop :=
  u.mapError EvalError.report = v.mapError EvalError.report

namespace Alike

variable {u u' v v' : Verdict EvalError}

lemma refl (u : Verdict EvalError) : u.Alike u :=
  rfl

lemma and (hu : u.Alike u') (hv : v.Alike v') : (u.and v).Alike (u'.and v') := by
  rw [Alike, mapError_and, mapError_and, hu, hv]

lemma or (hu : u.Alike u') (hv : v.Alike v') : (u.or v).Alike (u'.or v') := by
  rw [Alike, mapError_or, mapError_or, hu, hv]

lemma not (hu : u.Alike u') : u.not.Alike u'.not := by
  rw [Alike, mapError_not, mapError_not, hu]

end Alike

end Verdict

namespace Cql

variable {c : Candidate}

/-! ### Tests of operands that agree -/

lemma Comparator.alike_test (op : Comparator) {l l' m m' : Literal} (hl : l.Agrees l') (hm : m.Agrees m') :
    (op.test l m).Alike (op.test l' m') := by
  unfold test
  rw [← hl.compare? hm]
  cases l.compare? m with
  | some o => exact .refl _
  | none =>
    have hreport : (EvalError.incomparable l m).report = (EvalError.incomparable l' m').report := by
      rw [EvalError.report, EvalError.report, hl.display_eq, hm.display_eq]
    cases op with
    | eq | ne => exact .refl _
    | lt | le | gt | ge => exact congrArg Except.error hreport

namespace Operand.Agrees

variable {o o' p p' : Operand}

/-- Operands that agree have no value for the same reason, or values that agree. -/
lemma resolve (h : o.Agrees o') (c : Candidate) :
    (∃ e, o.resolve c = .error e ∧ o'.resolve c = .error e) ∨
      ∃ l l', o.resolve c = .ok l ∧ o'.resolve c = .ok l' ∧ l.Agrees l' := by
  cases h with
  | reference name =>
    rw [Operand.resolve]
    cases c name with
    | none => exact .inl ⟨_, rfl, rfl⟩
    | some value => exact .inr ⟨value, value, rfl, rfl, .refl value⟩
  | literal h => exact .inr ⟨_, _, rfl, rfl, h⟩

lemma isNull_eq (h : o.Agrees o') (c : Candidate) : o.isNull c = o'.isNull c := by
  cases h <;> rfl

end Operand.Agrees

namespace Expr

/-- Expressions whose outcomes tell the same on every candidate. -/
def Alike (e f : Expr) : Prop :=
  ∀ c, (e.evaluate c).Alike (f.evaluate c)

variable {e f : Expr} {es fs : List Expr} {o o' p p' : Operand}

lemma alike_compare (op : Comparator) (ho : o.Agrees o') (hp : p.Agrees p') :
    Alike (.compare o op p) (.compare o' op p') := by
  intro c
  rw [evaluate, evaluate]
  obtain ⟨e, ho, ho'⟩ | ⟨l, l', ho, ho', hl⟩ := ho.resolve c
  · rw [ho, ho']
    exact .refl _
  obtain ⟨e, hp, hp'⟩ | ⟨m, m', hp, hp', hm⟩ := hp.resolve c
  · rw [ho, ho', hp, hp']
    exact .refl _
  · rw [ho, ho', hp, hp']
    exact op.alike_test hl hm

lemma alike_isNull (ho : o.Agrees o') (negated : Bool) : Alike (.isNull o negated) (.isNull o' negated) := by
  intro c
  rw [evaluate, evaluate, ho.isNull_eq]
  exact .refl _

lemma Alike.not (h : Alike e f) : Alike (.not e) (.not f) := by
  intro c
  rw [evaluate, evaluate]
  exact (h c).not

lemma alike_all (h : List.Forall₂ Alike es fs) : Alike (.all es) (.all fs) := by
  intro c
  rw [evaluate, evaluate]
  induction h with
  | nil => exact .refl _
  | cons he _ ih =>
    rw [evaluateAll, evaluateAll]
    exact (he c).and ih

lemma alike_any (h : List.Forall₂ Alike es fs) : Alike (.any es) (.any fs) := by
  intro c
  rw [evaluate, evaluate]
  induction h with
  | nil => exact .refl _
  | cons he _ ih =>
    rw [evaluateAny, evaluateAny]
    exact (he c).or ih

/-! ### Texts of expressions -/

/-- What the engine reads as an expression, if its operands are legible: nothing is joined with less than two
parts, and no test begins with the word NOT. -/
inductive IsLegible : Expr → Prop
  | all {es : List Expr} (hlength : 2 ≤ es.length) (hes : ∀ e ∈ es, IsLegible e) : IsLegible (.all es)
  | any {es : List Expr} (hlength : 2 ≤ es.length) (hes : ∀ e ∈ es, IsLegible e) : IsLegible (.any es)
  | not {e : Expr} (he : IsLegible e) : IsLegible (.not e)
  | compare {left right : Operand} (op : Comparator) (hfirst : left.display ≠ "NOT")
      (hleft : left.IsLegible) (hright : right.IsLegible) : IsLegible (.compare left op right)
  | isNull {o : Operand} (negated : Bool) (hfirst : o.display ≠ "NOT") (ho : o.IsLegible) :
      IsLegible (.isNull o negated)

/-- The text of an expression as a part of a conjunction or disjunction. -/
def part (e : Expr) : String :=
  if e.isCombined then "(" ++ e.display ++ ")" else e.display

lemma displayParts_eq (es : List Expr) : displayParts es = es.map part := by
  induction es with
  | nil => rfl
  | cons e es ih => rw [displayParts, ih, List.map_cons, part]

/-- The texts of the further parts of a conjunction or disjunction, with the word before each of them. -/
def behind (word : List Char) (es : List Expr) : List Char :=
  es.flatMap fun e => ' ' :: (word ++ ' ' :: e.part.toList)

lemma behind_cons (word : List Char) (e : Expr) (es : List Expr) :
    behind word (e :: es) = ' ' :: (word ++ ' ' :: (e.part.toList ++ behind word es)) := by
  simp [behind]

/-- The conjunction of some expressions, or their disjunction. -/
def joined (disjunction : Bool) (es : List Expr) : Expr :=
  if disjunction then .any es else .all es

/-- The word between the parts of a conjunction, or of a disjunction. -/
def joiner (disjunction : Bool) : List Char :=
  if disjunction then ['O', 'R'] else ['A', 'N', 'D']

/-- The first part, and then each further one with the word before it. -/
lemma toList_intercalate_parts {word : List Char} {sep : String} (hsep : sep.toList = ' ' :: (word ++ [' ']))
    (e : Expr) (es : List Expr) :
    (String.intercalate sep (displayParts (e :: es))).toList = e.part.toList ++ behind word es := by
  rw [displayParts_eq]
  induction es generalizing e with
  | nil => simp [behind, String.intercalate_singleton]
  | cons f fs ih =>
    rw [List.map_cons, List.map_cons, String.intercalate_cons_cons, String.toList_append,
      String.toList_append, ← List.map_cons, ih, hsep, behind_cons]
    simp

lemma toList_display_joined (disjunction : Bool) (e : Expr) (es : List Expr) :
    (joined disjunction (e :: es)).display.toList = e.part.toList ++ behind (joiner disjunction) es := by
  cases disjunction
  · exact toList_intercalate_parts rfl e es
  · exact toList_intercalate_parts rfl e es

lemma alike_joined (disjunction : Bool) (h : List.Forall₂ Alike es fs) :
    Alike (joined disjunction es) (joined disjunction fs) := by
  cases disjunction
  · exact alike_all h
  · exact alike_any h

lemma IsLegible.exists_joined (he : e.IsLegible) (hcombined : e.isCombined) :
    ∃ disjunction e₁ e₂ es, e = joined disjunction (e₁ :: e₂ :: es) ∧
      ∀ f ∈ e₁ :: e₂ :: es, f.IsLegible := by
  cases he with
  | @all es hlength hes =>
    match es, hlength with
    | e₁ :: e₂ :: es, _ => exact ⟨false, e₁, e₂, es, rfl, hes⟩
  | @any es hlength hes =>
    match es, hlength with
    | e₁ :: e₂ :: es, _ => exact ⟨true, e₁, e₂, es, rfl, hes⟩
  | not | compare | isNull => cases hcombined

lemma part_of_not_isCombined (he : e.isCombined = false) : e.part = e.display := by
  rw [part, he]
  rfl

lemma toList_part_of_isCombined (he : e.isCombined) (r : List Char) :
    e.part.toList ++ r = '(' :: (e.display.toList ++ ')' :: r) := by
  simp [part, he]

lemma toList_part_not (e : Expr) (r : List Char) :
    (Expr.not e).part.toList ++ r = "NOT".toList ++ ' ' :: '(' :: (e.display.toList ++ ')' :: r) := by
  simp [part, isCombined, display]

lemma toList_part_compare (o : Operand) (op : Comparator) (p : Operand) (r : List Char) :
    (Expr.compare o op p).part.toList ++ r =
      o.display.toList ++ ' ' :: (op.symbol.toList ++ ' ' :: (p.display.toList ++ r)) := by
  simp [part, isCombined, display]

lemma toList_part_isNull (o : Operand) (negated : Bool) (r : List Char) :
    (Expr.isNull o negated).part.toList ++ r =
      o.display.toList ++ ' ' :: ("IS ".toList ++ ((if negated then "NOT NULL" else "NULL").toList ++ r)) := by
  cases negated <;> simp [part, isCombined, display]

/-! ### Where an expression ends -/

/-- A text before which an expression ends: it is empty or goes on with a closing parenthesis. -/
def Closes (r : List Char) : Prop :=
  ∀ c ∈ r.head?, c = ')'

variable {r r' : List Char} {word word' : List Char}

lemma endsOperand_blank (r : List Char) : EndsOperand (' ' :: r) :=
  fun _ hc => .inl (Option.some.inj hc).symm

lemma closes_closer (r : List Char) : Closes (')' :: r) :=
  fun _ hc => (Option.some.inj hc).symm

lemma Closes.endsOperand (hr : Closes r) : EndsOperand r :=
  fun c hc => .inr (hr c hc)

lemma Closes.ne_blank (hr : Closes r) (cs : List Char) : r ≠ ' ' :: cs := by
  rintro rfl
  cases hr ' ' rfl

lemma Closes.endsOperand_behind (hr : Closes r) (word : List Char) (es : List Expr) :
    EndsOperand (behind word es ++ r) := by
  cases es with
  | nil => exact hr.endsOperand
  | cons e es =>
    rw [behind_cons]
    exact endsOperand_blank _

lemma symbol_append_inj {op op' : Comparator}
    (h : op.symbol.toList ++ ' ' :: r = op'.symbol.toList ++ ' ' :: r') : op = op' ∧ r = r' := by
  have hsolid (op : Comparator) : ∀ c ∈ op.symbol.toList, isSolid c := by
    cases op <;> exact List.all_eq_true.mp (by decide +kernel)
  obtain ⟨hsymbol, hrest⟩ :=
    solid_append_inj (hsolid op) (hsolid op') (endsOperand_blank r) (endsOperand_blank r') h
  refine ⟨?_, (List.cons.inj hrest).2⟩
  cases op <;> cases op' <;> first | rfl | exact absurd hsymbol (by decide)

/-- A sign is no question for a missing attribute. -/
lemma symbol_append_ne (op : Comparator) (cs : List Char) : op.symbol.toList ++ r ≠ "IS ".toList ++ cs := by
  cases op <;> exact fun h => absurd (List.cons.inj h).1 (by decide)

lemma null_append_inj {negated negated' : Bool} (h : (if negated then "NOT NULL" else "NULL").toList ++ r =
    (if negated' then "NOT NULL" else "NULL").toList ++ r') : negated = negated' ∧ r = r' := by
  cases negated <;> cases negated'
  · exact ⟨rfl, List.append_cancel_left h⟩
  · exact absurd (List.cons.inj (List.cons.inj h).2).1 (by decide)
  · exact absurd (List.cons.inj (List.cons.inj h).2).1 (by decide)
  · exact ⟨rfl, List.append_cancel_left h⟩

/-- The word NOT is the text of no operand in front of a test. -/
lemma not_append_ne (ho : o.IsLegible) (hfirst : o.display ≠ "NOT") (r r' : List Char) :
    "NOT".toList ++ ' ' :: r ≠ o.display.toList ++ ' ' :: r' := by
  intro h
  have hnot : (Operand.reference "NOT").IsLegible := by
    refine .reference ⟨by decide, List.all_eq_true.mp (by decide +kernel)⟩ ?_ ?_ (by decide)
    · rw [Text.sameWord_eq]
      decide
    · rw [Text.sameWord_eq]
      decide
  exact hfirst (hnot.append_inj ho (endsOperand_blank r) (endsOperand_blank r') h).1.symm

/-- A legible expression that is not joined begins with no parenthesis. -/
lemma IsLegible.part_append_ne (he : e.IsLegible) (hsingle : e.isCombined = false) (cs : List Char) :
    e.part.toList ++ r ≠ '(' :: cs := by
  cases he with
  | all | any => cases hsingle
  | not he =>
    rw [toList_part_not]
    exact fun h => absurd (List.cons.inj h).1 (by decide)
  | compare op _ hleft _ =>
    rw [toList_part_compare]
    exact hleft.append_ne_paren cs
  | isNull negated _ ho =>
    rw [toList_part_isNull]
    exact ho.append_ne_paren cs

/-! ### Telling an expression from its text -/

/-- An expression that can be told from its text in front of another one, as a part and as a whole. -/
structure IsTold (e : Expr) : Prop where
  part : ∀ {f r r'}, f.IsLegible → EndsOperand r → EndsOperand r' →
    e.part.toList ++ r = f.part.toList ++ r' → e.Alike f ∧ r = r'
  whole : ∀ {f r r'}, f.IsLegible → Closes r → Closes r' →
    e.display.toList ++ r = f.display.toList ++ r' → e.Alike f ∧ r = r'

/-- The further parts of a conjunction or disjunction can be told one by one. -/
lemma forall₂_of_behind (hes : ∀ e ∈ es, e.IsTold) (hfs : ∀ f ∈ fs, f.IsLegible) (hr : Closes r)
    (hr' : Closes r') (h : behind word es ++ r = behind word fs ++ r') :
    List.Forall₂ Alike es fs ∧ r = r' := by
  induction es generalizing fs with
  | nil =>
    cases fs with
    | nil => exact ⟨.nil, h⟩
    | cons f fs =>
      rw [behind_cons] at h
      exact absurd h (hr.ne_blank _)
  | cons e es ih =>
    obtain ⟨he, hes⟩ := List.forall_mem_cons.mp hes
    cases fs with
    | nil =>
      rw [behind_cons] at h
      exact absurd h.symm (hr'.ne_blank _)
    | cons f fs =>
      obtain ⟨hf, hfs⟩ := List.forall_mem_cons.mp hfs
      simp only [behind_cons, List.cons_append, List.append_assoc, List.cons_inj_right,
        List.append_cancel_left_eq] at h
      obtain ⟨hef, h⟩ := he.part hf (hr.endsOperand_behind word es) (hr'.endsOperand_behind word fs) h
      obtain ⟨hall, hrest⟩ := ih hes hfs h
      exact ⟨.cons hef hall, hrest⟩

lemma disjunction_eq_of_behind {d d' : Bool}
    (h : behind (joiner d) (e :: es) ++ r = behind (joiner d') (f :: fs) ++ r') : d = d' := by
  rw [behind_cons, behind_cons] at h
  cases d <;> cases d'
  · rfl
  · exact absurd (List.cons.inj (List.cons.inj h).2).1 (by decide)
  · exact absurd (List.cons.inj (List.cons.inj h).2).1 (by decide)
  · rfl

/-- What is told as a part is told as a whole, if it is not joined. -/
lemma isTold_of_part (hsingle : e.isCombined = false)
    (hpart : ∀ {f r r'}, f.IsLegible → EndsOperand r → EndsOperand r' →
      e.part.toList ++ r = f.part.toList ++ r' → e.Alike f ∧ r = r') : e.IsTold := by
  refine ⟨hpart, fun {f r r'} hf hr hr' h => ?_⟩
  rw [← part_of_not_isCombined hsingle] at h
  cases hcombined : f.isCombined with
  | false =>
    rw [← part_of_not_isCombined hcombined] at h
    exact hpart hf hr.endsOperand hr'.endsOperand h
  | true =>  -- the first part of the other text would be all of this one, but a further part follows it
    obtain ⟨d, f₁, f₂, fs, rfl, hfs⟩ := hf.exists_joined hcombined
    rw [toList_display_joined, List.append_assoc] at h
    obtain ⟨-, hrest⟩ := hpart (hfs f₁ List.mem_cons_self) hr.endsOperand
      (hr'.endsOperand_behind _ _) h
    rw [behind_cons] at hrest
    exact absurd hrest (hr.ne_blank _)

/-- A joined expression is told as a whole: by its first part, the word behind it, and the further parts. -/
lemma whole_joined {d : Bool} {e₁ e₂ : Expr} (hes : ∀ e ∈ e₁ :: e₂ :: es, e.IsTold) (hf : f.IsLegible)
    (hr : Closes r) (hr' : Closes r')
    (h : (joined d (e₁ :: e₂ :: es)).display.toList ++ r = f.display.toList ++ r') :
    (joined d (e₁ :: e₂ :: es)).Alike f ∧ r = r' := by
  obtain ⟨he₁, hes⟩ := List.forall_mem_cons.mp hes
  rw [toList_display_joined, List.append_assoc] at h
  cases hcombined : f.isCombined with
  | false =>
    rw [← part_of_not_isCombined hcombined] at h
    obtain ⟨-, hrest⟩ := he₁.part hf (hr.endsOperand_behind _ _) hr'.endsOperand h
    rw [behind_cons] at hrest
    exact absurd hrest.symm (hr'.ne_blank _)
  | true =>
    obtain ⟨d', f₁, f₂, fs, rfl, hfs⟩ := hf.exists_joined hcombined
    obtain ⟨hf₁, hfs⟩ := List.forall_mem_cons.mp hfs
    rw [toList_display_joined, List.append_assoc] at h
    obtain ⟨hfirst, hbehind⟩ :=
      he₁.part hf₁ (hr.endsOperand_behind _ _) (hr'.endsOperand_behind _ _) h
    obtain rfl := disjunction_eq_of_behind hbehind
    obtain ⟨hfurther, hrest⟩ := forall₂_of_behind hes hfs hr hr' hbehind
    exact ⟨alike_joined d (.cons hfirst hfurther), hrest⟩

lemma isTold_joined (d : Bool) (hlength : 2 ≤ es.length) (hes : ∀ e ∈ es, e.IsTold) :
    (joined d es).IsTold := by
  match es, hlength with
  | e₁ :: e₂ :: es, _ =>
    refine ⟨fun {f r r'} hf _ _ h => ?_, whole_joined hes⟩
    have hjoined : (joined d (e₁ :: e₂ :: es)).isCombined := by cases d <;> rfl
    rw [toList_part_of_isCombined hjoined] at h
    cases hcombined : f.isCombined with
    | false => exact absurd h.symm (hf.part_append_ne hcombined _)
    | true =>
      rw [toList_part_of_isCombined hcombined] at h
      obtain ⟨halike, hrest⟩ :=
        whole_joined hes hf (closes_closer _) (closes_closer _) (List.cons.inj h).2
      exact ⟨halike, (List.cons.inj hrest).2⟩

lemma isTold_not (he : e.IsTold) : (Expr.not e).IsTold := by
  refine isTold_of_part rfl fun {f r r'} hf hr hr' h => ?_
  rw [toList_part_not] at h
  cases hf with
  | all | any =>
    rw [toList_part_of_isCombined rfl] at h
    exact absurd (List.cons.inj h).1 (by decide)
  | not hf =>
    rw [toList_part_not, List.append_cancel_left_eq, List.cons_inj_right, List.cons_inj_right] at h
    obtain ⟨halike, hrest⟩ := he.whole hf (closes_closer _) (closes_closer _) h
    exact ⟨halike.not, (List.cons.inj hrest).2⟩
  | compare op hfirst hleft _ =>
    rw [toList_part_compare] at h
    exact absurd h (not_append_ne hleft hfirst _ _)
  | isNull negated hfirst ho =>
    rw [toList_part_isNull] at h
    exact absurd h (not_append_ne ho hfirst _ _)

lemma isTold_compare (op : Comparator) (hfirst : o.display ≠ "NOT") (ho : o.IsLegible) (hp : p.IsLegible) :
    (Expr.compare o op p).IsTold := by
  refine isTold_of_part rfl fun {f r r'} hf hr hr' h => ?_
  rw [toList_part_compare] at h
  cases hf with
  | all | any =>
    rw [toList_part_of_isCombined rfl] at h
    exact absurd h (ho.append_ne_paren _)
  | not hf =>
    rw [toList_part_not] at h
    exact absurd h.symm (not_append_ne ho hfirst _ _)
  | compare op' _ ho' hp' =>
    rw [toList_part_compare] at h
    obtain ⟨hleft, h⟩ := ho.append_inj ho' (endsOperand_blank _) (endsOperand_blank _) h
    obtain ⟨rfl, htail⟩ := symbol_append_inj (List.cons.inj h).2
    obtain ⟨hright, hrest⟩ := hp.append_inj hp' hr hr' htail
    exact ⟨alike_compare op (Operand.agrees_of_display ho ho' hleft)
      (Operand.agrees_of_display hp hp' hright), hrest⟩
  | isNull negated _ ho' =>
    rw [toList_part_isNull] at h
    obtain ⟨-, h⟩ := ho.append_inj ho' (endsOperand_blank _) (endsOperand_blank _) h
    exact absurd (List.cons.inj h).2 (symbol_append_ne op _)

lemma isTold_isNull (negated : Bool) (hfirst : o.display ≠ "NOT") (ho : o.IsLegible) :
    (Expr.isNull o negated).IsTold := by
  refine isTold_of_part rfl fun {f r r'} hf hr hr' h => ?_
  rw [toList_part_isNull] at h
  cases hf with
  | all | any =>
    rw [toList_part_of_isCombined rfl] at h
    exact absurd h (ho.append_ne_paren _)
  | not hf =>
    rw [toList_part_not] at h
    exact absurd h.symm (not_append_ne ho hfirst _ _)
  | compare op _ ho' _ =>
    rw [toList_part_compare] at h
    obtain ⟨-, h⟩ := ho.append_inj ho' (endsOperand_blank _) (endsOperand_blank _) h
    exact absurd (List.cons.inj h).2.symm (symbol_append_ne op _)
  | isNull negated' _ ho' =>
    rw [toList_part_isNull] at h
    obtain ⟨htext, h⟩ := ho.append_inj ho' (endsOperand_blank _) (endsOperand_blank _) h
    obtain ⟨rfl, hrest⟩ := null_append_inj (List.append_cancel_left (List.cons.inj h).2)
    exact ⟨alike_isNull (Operand.agrees_of_display ho ho' htext) negated, hrest⟩

/-- Legible expressions can be told from their texts. -/
theorem IsLegible.isTold (he : e.IsLegible) : e.IsTold := by
  induction he with
  | all hlength _ ih => exact isTold_joined false hlength ih
  | any hlength _ ih => exact isTold_joined true hlength ih
  | not _ ih => exact isTold_not ih
  | compare op hfirst hleft hright => exact isTold_compare op hfirst hleft hright
  | isNull negated hfirst ho => exact isTold_isNull negated hfirst ho

/-- Legible expressions with the same text have outcomes that tell the same, on every candidate. -/
theorem alike_of_display (he : e.IsLegible) (hf : f.IsLegible) (h : e.display = f.display) : e.Alike f := by
  have hclosed : Closes [] := fun _ hc => nomatch hc
  have htext : e.display.toList ++ [] = f.display.toList ++ [] := by rw [h]
  exact (he.isTold.whole hf hclosed hclosed htext).1

end Expr

end Cql

end MapStyle
