import MapStyle.Proofs.Equality.Expressions
import MapStyle.Proofs.Evaluation.Stability
import MapStyle.Proofs.Expressions.Acceptance

/-!
# Equal filters

Filters count as equal if they have the same shape and their predicates the same text. That is enough for the
same outcome on every candidate if the names and colours in them are written without escapes
(`evaluate_of_equal`). A name that needs its escapes can have the text of another operand.
-/

namespace MapStyle

/-! ### Filters of predicates that tell the same -/

namespace Filter

variable {P : Type} [Predicate P] {c : Candidate}

/-- Predicates with the same text tell the same. -/
def SameMeaning (c : Candidate) (ps qs : List P) : Prop :=
  ∀ p ∈ ps, ∀ q ∈ qs, Predicate.display p = Predicate.display q →
    (Predicate.evaluate p c).Alike (Predicate.evaluate q c)

/-- The same for the predicates of the first parts of two lists, and for those of the other parts. -/
lemma sameMeaning_cons {f g : Filter P} {fs gs : List (Filter P)}
    (h : SameMeaning c (predicatesEach (f :: fs)) (predicatesEach (g :: gs))) :
    SameMeaning c f.predicates g.predicates ∧ SameMeaning c (predicatesEach fs) (predicatesEach gs) := by
  rw [predicatesEach, predicatesEach] at h
  exact ⟨fun p hp q hq => h p (List.mem_append_left _ hp) q (List.mem_append_left _ hq),
    fun p hp q hq => h p (List.mem_append_right _ hp) q (List.mem_append_right _ hq)⟩

mutual

/-- Equal filters tell the same if their predicates do so. -/
theorem alike_evaluate {f g : Filter P} (h : SameMeaning c f.predicates g.predicates) (heq : f.equal g) :
    (f.evaluate c).Alike (g.evaluate c) := by
  match f, g with
  | predicate p, predicate q =>
    rw [evaluate, evaluate]
    rw [equal, beq_iff_eq] at heq
    exact h p (List.mem_singleton_self p) q (List.mem_singleton_self q) heq
  | all fs, all gs =>
    rw [evaluate, evaluate]
    exact alike_evaluateAll h heq
  | any fs, any gs =>
    rw [evaluate, evaluate]
    exact alike_evaluateAny h heq
  | predicate _, all _ | predicate _, any _ | all _, predicate _ | all _, any _ | any _, predicate _
  | any _, all _ => cases heq

lemma alike_evaluateAll {fs gs : List (Filter P)}
    (h : SameMeaning c (predicatesEach fs) (predicatesEach gs)) (heq : equalList fs gs) :
    (evaluateAll c fs).Alike (evaluateAll c gs) := by
  match fs, gs with
  | [], [] => exact .refl _
  | f :: fs, g :: gs =>
    obtain ⟨hfirst, hfurther⟩ := sameMeaning_cons h
    rw [equalList, Bool.and_eq_true] at heq
    rw [evaluateAll, evaluateAll]
    exact (alike_evaluate hfirst heq.1).and (alike_evaluateAll hfurther heq.2)
  | [], _ :: _ | _ :: _, [] => cases heq

lemma alike_evaluateAny {fs gs : List (Filter P)}
    (h : SameMeaning c (predicatesEach fs) (predicatesEach gs)) (heq : equalList fs gs) :
    (evaluateAny c fs).Alike (evaluateAny c gs) := by
  match fs, gs with
  | [], [] => exact .refl _
  | f :: fs, g :: gs =>
    obtain ⟨hfirst, hfurther⟩ := sameMeaning_cons h
    rw [equalList, Bool.and_eq_true] at heq
    rw [evaluateAny, evaluateAny]
    exact (alike_evaluate hfirst heq.1).or (alike_evaluateAny hfurther heq.2)
  | [], _ :: _ | _ :: _, [] => cases heq

end

end Filter

namespace Cql

/-! ### Expressions that are read -/

namespace Expr

mutual

/-- The operands of an expression, in reading order. -/
def operands : Expr → List Operand
  | all parts => operandsEach parts
  | any parts => operandsEach parts
  | not inner => operands inner
  | compare left _ right => [left, right]
  | isNull operand _ => [operand]

/-- The operands of the expressions of a list. -/
def operandsEach : List Expr → List Operand
  | [] => []
  | e :: es => operands e ++ operandsEach es

end

/-- An expression whose operands are written without escapes. -/
def IsUnescaped (e : Expr) : Prop :=
  ∀ o ∈ e.operands, o.IsUnescaped

lemma forall_isUnescaped {es : List Expr} (h : ∀ o ∈ operandsEach es, o.IsUnescaped) :
    ∀ e ∈ es, e.IsUnescaped := by
  induction es with
  | nil => exact fun e he => nomatch he
  | cons e es ih =>
    rw [operandsEach, List.forall_mem_append] at h
    exact List.forall_mem_cons.mpr ⟨h.1, ih h.2⟩

end Expr

namespace Grammar

variable {m : Mark} {o : Operand} {e : Expr} {es : List Expr}

/-- A number is read as an integer or as a floating-point number, and never as no number. -/
lemma isLegible_of_parseNumber {s : String} {l : Literal} (h : Literal.parseNumber? s = some l) :
    (Operand.literal l).IsLegible := by
  rw [Literal.parseNumber?_eq, Option.or_eq_some_iff] at h
  obtain h | ⟨-, h⟩ := h
  · obtain ⟨n, -, rfl⟩ := Option.map_eq_some_iff.mp h
    exact .integer n
  · obtain ⟨n, -, rfl⟩ := Option.map_eq_some_iff.mp h
    exact .float (Decimal.ofFloat_toFloat_ne n)

lemma IsOperand.isLegible (h : IsOperand m o) (ho : o.IsUnescaped) : o.IsLegible := by
  cases h with
  | truth | falsity => exact .boolean _
  | reference _ htrue hfalse => exact .reference ho.1 htrue hfalse ho.2
  | string => exact .string _
  | number _ hl => exact isLegible_of_parseNumber hl
  | @color name =>
    have htext : ("#" ++ name).toList = '#' :: name.toList := String.toList_append
    refine .color htext ?_
    have htail : ∀ c ∈ ("#" ++ name).toList.tail, Lexeme.isNameChar c := ho
    rwa [htext] at htail

/-- What is not the word NOT has another text. -/
lemma IsOperand.display_ne (h : IsOperand m o) (ho : o.IsUnescaped) (hnot : ¬ m.isKeyword "not") :
    o.display ≠ "NOT" := by
  intro htext
  have hkind : o.kind = .attribute := by
    rw [← Kind.ofText_display (h.isLegible ho), htext]
    decide +kernel
  cases h with
  | reference hm =>
    obtain rfl : _ = "NOT" := htext
    refine hnot (isKeyword_iff.mpr ⟨_, hm, ?_⟩)
    rw [Text.sameWord_eq]
    decide
  | number _ hl => cases isLegible_of_parseNumber hl <;> cases hkind
  | truth | falsity | string | color => cases hkind

lemma Joined.isUnescaped {join : List Expr → Expr} (h : Joined join es e)
    (hjoin : ∀ es, (join es).operands = Expr.operandsEach es) (he : e.IsUnescaped) :
    ∀ f ∈ es, f.IsUnescaped := by
  cases h with
  | single => exact List.forall_mem_singleton.mpr he
  | several =>
    rw [Expr.IsUnescaped, hjoin] at he
    exact Expr.forall_isUnescaped he

lemma Joined.isLegible {join : List Expr → Expr} (h : Joined join es e)
    (hjoin : 2 ≤ es.length → (∀ f ∈ es, f.IsLegible) → (join es).IsLegible)
    (hes : ∀ f ∈ es, f.IsLegible) : e.IsLegible := by
  cases h with
  | single => exact hes _ List.mem_cons_self
  | several hlength => exact hjoin hlength hes

mutual

/-- Items without escapes are legible. -/
theorem Item.isLegible {ts : List Tree} {e : Expr} (h : Item ts e) (he : e.IsUnescaped) : e.IsLegible := by
  match h with
  | .not _ h => exact .not (h.isLegible he)
  | .group h hjoined => exact hjoined.isLegible .any (h.isLegible (hjoined.isUnescaped (fun _ => rfl) he))
  | .isNull hfirst ho _ _ =>
    have hunescaped := he _ List.mem_cons_self
    exact .isNull false (ho.display_ne hunescaped hfirst) (ho.isLegible hunescaped)
  | .isNotNull hfirst ho _ _ _ =>
    have hunescaped := he _ List.mem_cons_self
    exact .isNull true (ho.display_ne hunescaped hfirst) (ho.isLegible hunescaped)
  | .compare hfirst hleft _ hright =>
    have hunescaped := he _ List.mem_cons_self
    exact .compare _ (hleft.display_ne hunescaped hfirst) (hleft.isLegible hunescaped)
      (hright.isLegible (he _ (List.mem_cons_of_mem _ List.mem_cons_self)))

lemma Conjunction.isLegible {ts : List Tree} {es : List Expr} (h : Conjunction ts es)
    (hes : ∀ e ∈ es, e.IsUnescaped) : ∀ e ∈ es, e.IsLegible := by
  match h with
  | .last h =>
    exact List.forall_mem_singleton.mpr (h.isLegible (hes _ List.mem_cons_self))
  | .more h _ hmore =>
    obtain ⟨he, hes⟩ := List.forall_mem_cons.mp hes
    exact List.forall_mem_cons.mpr ⟨h.isLegible he, hmore.isLegible hes⟩

lemma Disjunction.isLegible {ts : List Tree} {es : List Expr} (h : Disjunction ts es)
    (hes : ∀ e ∈ es, e.IsUnescaped) : ∀ e ∈ es, e.IsLegible := by
  match h with
  | .last h hjoined =>
    refine List.forall_mem_singleton.mpr (hjoined.isLegible .all (h.isLegible ?_))
    exact hjoined.isUnescaped (fun _ => rfl) (hes _ List.mem_cons_self)
  | .more h hjoined _ hmore =>
    obtain ⟨he, hes⟩ := List.forall_mem_cons.mp hes
    refine List.forall_mem_cons.mpr ⟨hjoined.isLegible .all (h.isLegible ?_), hmore.isLegible hes⟩
    exact hjoined.isUnescaped (fun _ => rfl) he

end

end Grammar

namespace Expr

variable {text : String} {e : Expr}

/-- An expression that is read is legible, if its operands are written without escapes. -/
lemma isLegible_of_parse (h : parse text = .ok e) (he : e.IsUnescaped) : e.IsLegible := by
  obtain ⟨ts, -, ⟨hdisjunction, hjoined⟩⟩ := reads_iff.mpr h
  exact hjoined.isLegible .any (hdisjunction.isLegible (hjoined.isUnescaped (fun _ => rfl) he))

end Expr

/-- Equality of filters is sound for predicates that are read and are written without escapes. Equal
filters give the same answer on every candidate, or fail with the same report: the same missing attribute, or
the same texts of two values that cannot be compared. -/
theorem evaluate_of_equal {f g : Filter Expr}
    (hf : ∀ e ∈ f.predicates, (∃ text, Expr.parse text = .ok e) ∧ e.IsUnescaped)
    (hg : ∀ e ∈ g.predicates, (∃ text, Expr.parse text = .ok e) ∧ e.IsUnescaped) (h : f.equal g)
    (c : Candidate) :
    (f.evaluate c).mapError EvalError.report = (g.evaluate c).mapError EvalError.report := by
  refine Filter.alike_evaluate (fun d hd e he htext => ?_) h
  obtain ⟨⟨_, hparse⟩, hunescaped⟩ := hf d hd
  obtain ⟨⟨_, hparse'⟩, hunescaped'⟩ := hg e he
  exact Expr.alike_of_display (Expr.isLegible_of_parse hparse hunescaped)
    (Expr.isLegible_of_parse hparse' hunescaped') htext c

/-! ### Equations with the same text -/

/-- A name, an equals sign and a number. -/
lemma parse_name_number {text name : String} {raw raw' : List Char} {spaced : Bool} {n : WrittenNumber}
    {l : Literal} (hmarks : Mark.ofText text.toList =
      [⟨.word name, raw, false⟩, ⟨.delimiter '=', ['='], spaced⟩, ⟨.number n, raw', true⟩])
    (hname : ∀ keyword ∈ ["not", "true", "false"], ¬ Text.sameWord name keyword)
    (hl : Literal.parseNumber? (String.ofList raw') = some l) :
    Expr.parse text = .ok (.compare (.reference name) .eq (.literal l)) :=
  Expr.parse_equation hmarks (hname "not" (by decide))
    (.reference rfl (hname "true" (by decide)) (hname "false" (by decide))) (.number rfl hl)

/-- The filter that compares an operand with a number. -/
def equates (o : Operand) (l : Literal) : Filter Expr :=
  .predicate (.compare o .eq (.literal l))

/-- A candidate with the attribute `a`, a string that reads as a number. -/
def numbered : Candidate := fun name => if name = "a" then some (.string "1") else none

/-- An integer and a floating-point number with the same text. -/
theorem evaluate_equates_one :
    (equates (.reference "a") (.integer 1)).equal (equates (.reference "a") (.float 1.0)) ∧
    ((equates (.reference "a") (.integer 1)).evaluate numbered).mapError EvalError.report =
      ((equates (.reference "a") (.float 1.0)).evaluate numbered).mapError EvalError.report := by
  have hname : ∀ keyword ∈ ["not", "true", "false"], ¬ Text.sameWord "a" keyword := by
    simp only [Text.sameWord_eq]
    decide
  have hinteger : Mark.ofText "a = 1".toList = [⟨.word "a", ['a'], false⟩, ⟨.delimiter '=', ['='], true⟩,
      ⟨.number ⟨none, ['1'], [], none⟩, ['1'], true⟩] := by
    decide +kernel
  have hfloat : Mark.ofText "a = 1.0".toList = [⟨.word "a", ['a'], false⟩, ⟨.delimiter '=', ['='], true⟩,
      ⟨.number ⟨none, ['1'], ['0'], none⟩, ['1', '.', '0'], true⟩] := by
    decide +kernel
  have hunescaped (l : Literal) (hl : (Operand.literal l).IsUnescaped) :
      (Expr.compare (.reference "a") .eq (.literal l)).IsUnescaped := by
    have hbare : IsBareName ['a'] := ⟨by decide, List.forall_mem_singleton.mpr (by decide)⟩
    exact List.forall_mem_cons.mpr ⟨⟨hbare, by decide, by decide⟩, List.forall_mem_singleton.mpr hl⟩
  have hequal : (equates (.reference "a") (.integer 1)).equal (equates (.reference "a") (.float 1.0)) := by
    decide +kernel
  refine ⟨hequal, evaluate_of_equal ?_ ?_ hequal numbered⟩
  · have hparse := parse_name_number hinteger hname (l := .integer 1) (by decide +kernel)
    exact List.forall_mem_singleton.mpr ⟨⟨_, hparse⟩, hunescaped _ trivial⟩
  · have hparse := parse_name_number hfloat hname (l := .float 1.0) (by decide +kernel)
    exact List.forall_mem_singleton.mpr ⟨⟨_, hparse⟩, hunescaped _ trivial⟩

/-- An attribute with the name 1 has the text of the number one: a name is not escaped in the text of an
expression. Both texts are read, and the filters are equal, but one of them asks for an attribute. -/
theorem evaluate_escaped_name :
    Expr.parse "\\31 = 1" = .ok (.compare (.reference "1") .eq (.literal (.integer 1))) ∧
      Expr.parse "1 = 1" = .ok (.compare (.literal (.integer 1)) .eq (.literal (.integer 1))) ∧
      (equates (.reference "1") (.integer 1)).equal (equates (.literal (.integer 1)) (.integer 1)) ∧
      (equates (.reference "1") (.integer 1)).evaluate (fun _ => none) = .error (.missingAttribute "1") ∧
      (equates (.literal (.integer 1)) (.integer 1)).evaluate (fun _ => none) = .ok true := by
  have hname : ∀ keyword ∈ ["not", "true", "false"], ¬ Text.sameWord "1" keyword := by
    simp only [Text.sameWord_eq]
    decide
  have hone : Literal.parseNumber? (String.ofList ['1']) = some (.integer 1) := by decide +kernel
  have hescaped : Mark.ofText "\\31 = 1".toList = [⟨.word "1", ['\\', '3', '1', ' '], false⟩,
      ⟨.delimiter '=', ['='], false⟩, ⟨.number ⟨none, ['1'], [], none⟩, ['1'], true⟩] := by
    decide +kernel
  have hplain : Mark.ofText "1 = 1".toList = [⟨.number ⟨none, ['1'], [], none⟩, ['1'], false⟩,
      ⟨.delimiter '=', ['='], true⟩, ⟨.number ⟨none, ['1'], [], none⟩, ['1'], true⟩] := by
    decide +kernel
  refine ⟨parse_name_number hescaped hname hone, ?_, by decide +kernel, rfl, by decide +kernel⟩
  exact Expr.parse_equation hplain nofun (.number rfl hone) (.number rfl hone)

end Cql

end MapStyle
