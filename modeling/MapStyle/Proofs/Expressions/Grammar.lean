import MapStyle.Proofs.Expressions.Trees
import MapStyle.Proofs.Printing.Rereading

/-!
# The grammar of expressions

What an expression is, without saying how it is read: relations between trees and what they say. The
main statement is that a text is read as an expression exactly if the grammar gives the text that
expression (`parse_eq_ok_iff`), so that no text has two readings.
-/

namespace MapStyle.Cql

namespace Grammar

/-- The operand that a lexeme is. The words for the two truth values are no attributes. -/
inductive IsOperand : Mark → Operand → Prop
  | truth {m : Mark} (h : m.isKeyword "true") : IsOperand m (.literal (.boolean true))
  | falsity {m : Mark} (h : m.isKeyword "false") : IsOperand m (.literal (.boolean false))
  | reference {m : Mark} {name : String} (h : m.lexeme = .word name)
      (htrue : ¬ Text.sameWord name "true") (hfalse : ¬ Text.sameWord name "false") :
      IsOperand m (.reference name)
  | string {m : Mark} {s : String} (h : m.lexeme = .string s) : IsOperand m (.literal (.string s))
  | number {m : Mark} {n : WrittenNumber} {l : Literal} (h : m.lexeme = .number n)
      (hl : Literal.parseNumber? (String.ofList m.raw) = some l) : IsOperand m (.literal l)
  | color {m : Mark} {name : String} (h : m.lexeme = .hash name ∨ m.lexeme = .idHash name) :
      IsOperand m (.literal (.color ("#" ++ name)))

/-- The comparator that one sign is, or two signs without a blank between them. -/
inductive IsComparator : List Mark → Comparator → Prop
  | single {m : Mark} {c : Char} {op : Comparator} (h : m.lexeme = .delimiter c)
      (hop : (c, op) ∈ [('=', Comparator.eq), ('<', .lt), ('>', .gt)]) : IsComparator [m] op
  | double {m n : Mark} {c d : Char} {op : Comparator} (h : m.lexeme = .delimiter c)
      (h' : n.lexeme = .delimiter d) (hadjacent : ¬ n.spaced)
      (hop : (c, d, op) ∈
        [('!', '=', Comparator.ne), ('<', '>', .ne), ('<', '=', .le), ('>', '=', .ge)]) :
      IsComparator [m, n] op

/-- A list of parts as one expression: two or more parts are joined, a single one stands for itself. -/
inductive Joined (join : List Expr → Expr) : List Expr → Expr → Prop
  | single {e : Expr} : Joined join [e] e
  | several {es : List Expr} (h : 2 ≤ es.length) : Joined join es (join es)

mutual

/-- A test, with any number of NOT before it. A word NOT in front is never an operand. -/
inductive Item : List Tree → Expr → Prop
  | not {m : Mark} {ts : List Tree} {e : Expr} (hnot : m.isKeyword "not") (h : Item ts e) :
      Item (.leaf m :: ts) (.not e)
  | group {ts : List Tree} {es : List Expr} {e : Expr} (h : Disjunction ts es)
      (he : Joined .any es e) : Item [.group ts] e
  | isNull {m is null : Mark} {o : Operand} (hfirst : ¬ m.isKeyword "not") (ho : IsOperand m o)
      (his : is.isKeyword "is") (hnull : null.isKeyword "null") :
      Item [.leaf m, .leaf is, .leaf null] (.isNull o false)
  | isNotNull {m is not null : Mark} {o : Operand} (hfirst : ¬ m.isKeyword "not") (ho : IsOperand m o)
      (his : is.isKeyword "is") (hnot : not.isKeyword "not") (hnull : null.isKeyword "null") :
      Item [.leaf m, .leaf is, .leaf not, .leaf null] (.isNull o true)
  | compare {m n : Mark} {signs : List Mark} {left right : Operand} {op : Comparator}
      (hfirst : ¬ m.isKeyword "not") (hleft : IsOperand m left) (hop : IsComparator signs op)
      (hright : IsOperand n right) :
      Item (.leaf m :: (signs.map .leaf ++ [.leaf n])) (.compare left op right)

/-- Tests with AND between them. -/
inductive Conjunction : List Tree → List Expr → Prop
  | last {ts : List Tree} {e : Expr} (h : Item ts e) : Conjunction ts [e]
  | more {m : Mark} {ts us : List Tree} {e : Expr} {es : List Expr} (h : Item ts e)
      (hand : m.isKeyword "and") (hmore : Conjunction us es) :
      Conjunction (ts ++ .leaf m :: us) (e :: es)

/-- Conjunctions with OR between them. -/
inductive Disjunction : List Tree → List Expr → Prop
  | last {ts : List Tree} {es : List Expr} {e : Expr} (h : Conjunction ts es)
      (he : Joined .all es e) : Disjunction ts [e]
  | more {m : Mark} {ts us : List Tree} {es fs : List Expr} {e : Expr} (h : Conjunction ts es)
      (he : Joined .all es e) (hor : m.isKeyword "or") (hmore : Disjunction us fs) :
      Disjunction (ts ++ .leaf m :: us) (e :: fs)

end

/-- An expression: a disjunction. -/
inductive Expression : List Tree → Expr → Prop
  | intro {ts : List Tree} {es : List Expr} {e : Expr} (h : Disjunction ts es)
      (he : Joined .any es e) : Expression ts e

/-! ### Parts of a test -/

variable {m n : Mark} {o : Operand} {e : Expr} {es : List Expr} {ts us : List Tree}

lemma isKeyword_iff {keyword : String} :
    m.isKeyword keyword ↔ ∃ w, m.lexeme = .word w ∧ Text.sameWord w keyword := by
  unfold Mark.isKeyword
  cases m.lexeme <;> simp

lemma not_isKeyword {keyword : String} (h : ∀ w, m.lexeme ≠ .word w) : ¬ m.isKeyword keyword := by
  rw [isKeyword_iff]
  rintro ⟨w, hw, -⟩
  exact h w hw

lemma isKeyword_sameWord {keyword keyword' : String} (h : m.isKeyword keyword)
    (h' : m.isKeyword keyword') : Text.sameWord keyword keyword' := by
  obtain ⟨w, hw, hsame⟩ := isKeyword_iff.mp h
  obtain ⟨w', hw', hsame'⟩ := isKeyword_iff.mp h'
  obtain rfl : w = w' := by simpa [hw] using hw'
  simp only [Text.sameWord, beq_iff_eq] at hsame hsame' ⊢
  exact hsame.symm.trans hsame'

/-- An operand is a word, a string, a number or a name behind `#`. -/
lemma IsOperand.lexeme_eq (h : IsOperand m o) :
    (∃ w, m.lexeme = .word w) ∨ (∃ s, m.lexeme = .string s) ∨ (∃ n, m.lexeme = .number n) ∨
      ∃ name, m.lexeme = .hash name ∨ m.lexeme = .idHash name := by
  cases h with
  | truth h | falsity h =>
    obtain ⟨w, hw, -⟩ := isKeyword_iff.mp h
    exact .inl ⟨w, hw⟩
  | reference h => exact .inl ⟨_, h⟩
  | string h => exact .inr (.inl ⟨_, h⟩)
  | number h => exact .inr (.inr (.inl ⟨_, h⟩))
  | color h => exact .inr (.inr (.inr ⟨_, h⟩))

lemma IsOperand.ne_delimiter (h : IsOperand m o) (c : Char) : m.lexeme ≠ .delimiter c := by
  intro hm
  simpa [hm] using h.lexeme_eq

lemma IsOperand.ne_opener (h : IsOperand m o) (b : Bracket) : m.lexeme ≠ .opener b := by
  intro hm
  simpa [hm] using h.lexeme_eq

lemma operand_eq_ok_iff : m.operand = .ok o ↔ IsOperand m o := by
  constructor
  · -- each case of the mark is one kind of operand; a word is looked up among the two truth values
    intro h
    unfold Mark.operand at h
    split at h
    · next w hw =>
      split at h
      · next htrue =>
        cases h
        exact .truth (isKeyword_iff.mpr ⟨w, hw, htrue⟩)
      · next htrue =>
        split at h
        · next hfalse =>
          cases h
          exact .falsity (isKeyword_iff.mpr ⟨w, hw, hfalse⟩)
        · next hfalse =>
          cases h
          exact .reference hw htrue hfalse
    · next s hs =>
      cases h
      exact .string hs
    · next n hn =>
      split at h
      · next l hl =>
        cases h
        exact .number hn hl
      · cases h
    · next name hname =>
      cases h
      exact .color (.inl hname)
    · next name hname =>
      cases h
      exact .color (.inr hname)
    · cases h
  · intro h
    cases h with
    | truth h =>
      obtain ⟨w, hw, htrue⟩ := isKeyword_iff.mp h
      simp [Mark.operand, hw, htrue]
    | falsity h =>
      obtain ⟨w, hw, hfalse⟩ := isKeyword_iff.mp h
      -- a word is not both `true` and `false`
      have htrue : ¬ Text.sameWord w "true" := by
        simp only [Text.sameWord, beq_iff_eq] at hfalse ⊢
        rw [hfalse]
        decide +kernel
      simp [Mark.operand, hw, htrue, hfalse]
    | reference h htrue hfalse => simp [Mark.operand, h, htrue, hfalse]
    | string h => simp [Mark.operand, h]
    | number h hl => simp [Mark.operand, h, hl]
    | color h =>
      obtain h | h := h
      · simp [Mark.operand, h]
      · simp [Mark.operand, h]

lemma joined_iff {join : List Expr → Expr} (hne : es ≠ []) :
    Joined join es e ↔ e = collapse join es := by
  match es with
  | [f] =>
    constructor
    · rintro (_ | h)
      · rfl
      · exact absurd h (Nat.not_succ_le_self 1)
    · rintro rfl
      exact .single
  | f :: g :: es =>
    constructor
    · rintro (_ | _)
      rfl
    · rintro rfl
      exact .several (by simp)

lemma Conjunction.ne_nil (h : Conjunction ts es) : es ≠ [] := by
  cases h <;> exact List.cons_ne_nil _ _

lemma Disjunction.ne_nil (h : Disjunction ts es) : es ≠ [] := by
  cases h <;> exact List.cons_ne_nil _ _

end Grammar

namespace Reading

open Grammar

variable {r : Reading} {m n : Mark} {o right : Operand} {e : Expr} {es : List Expr}
  {ts us : List Tree}

lemma run_first (ho : IsOperand m o) (hnot : ¬ m.isKeyword "not") (hr : r.phase = .test) :
    run r (.leaf m :: ts) = run (r.enter (.left o)) ts :=
  run_operand (operand_eq_ok_iff.mpr ho) (Bool.eq_false_iff.mpr hnot) hr

lemma run_signs {signs : List Mark} {op : Comparator} (hop : IsComparator signs op)
    (hn : IsOperand n right) :
    run (r.enter (.left o)) (signs.map .leaf ++ .leaf n :: ts) =
      run (r.complete (.compare o op right)) ts := by
  have hright := operand_eq_ok_iff.mpr hn
  cases hop with
  | @single m c op h hop =>
    have his : ¬ m.isKeyword "is" := not_isKeyword (by simp [h])
    have hsigns (first : Char) : Comparator.ofSigns? first n = none := by
      unfold Comparator.ofSigns?
      split
      · rfl
      · split <;> first | rfl | next hn' => exact absurd hn' (hn.ne_delimiter _)
    simp only [List.mem_cons, Prod.mk.injEq, List.not_mem_nil, or_false] at hop
    obtain ⟨rfl, rfl⟩ | ⟨rfl, rfl⟩ | ⟨rfl, rfl⟩ := hop <;>
      simp [run, stepTree, step, enter, his, h, hsigns, Comparator.ofSign?, hright, complete,
        Except.map]
  | @double m m' c d op h h' hadjacent hop =>
    have his : ¬ m.isKeyword "is" := not_isKeyword (by simp [h])
    simp only [List.mem_cons, Prod.mk.injEq, List.not_mem_nil, or_false] at hop
    obtain ⟨rfl, rfl, rfl⟩ | ⟨rfl, rfl, rfl⟩ | ⟨rfl, rfl, rfl⟩ | ⟨rfl, rfl, rfl⟩ := hop <;>
      simp [run, stepTree, step, enter, his, h, h', Comparator.ofSigns?, hadjacent, hright, complete,
        Except.map]

lemma run_is (his : m.isKeyword "is") :
    run (r.enter (.left o)) (.leaf m :: ts) = run (r.enter (.is o)) ts :=
  run_leaf (by simp [step, enter, his])

lemma run_isNot (hnot : m.isKeyword "not") :
    run (r.enter (.is o)) (.leaf m :: ts) = run (r.enter (.isNot o)) ts :=
  run_leaf (by simp [step, enter, hnot])

lemma run_null (hnull : m.isKeyword "null") :
    run (r.enter (.is o)) (.leaf m :: ts) = run (r.complete (.isNull o false)) ts := by
  have hnot : ¬ m.isKeyword "not" := by
    intro hnot
    exact absurd (isKeyword_sameWord hnot hnull) (by decide +kernel)
  exact run_leaf (by simp [step, enter, hnot, hnull, complete])

lemma run_not (hnot : m.isKeyword "not") (hr : r.phase = .test) :
    run r (.leaf m :: ts) = run { r with negations := r.negations + 1 } ts :=
  run_leaf (by simp [step, hr, hnot])

lemma complete_not (r : Reading) (e : Expr) :
    complete { r with negations := r.negations + 1 } e = r.complete (.not e) := by
  have hrepeat (n : Nat) : Nat.repeat Expr.not (n + 1) e = Nat.repeat Expr.not n (.not e) := by
    induction n with
    | zero => rfl
    | succ n ih => rw [Nat.repeat, ih, Nat.repeat]
  simp only [complete, hrepeat]

lemma run_and (hand : m.isKeyword "and") (hr : r.phase = .joined) :
    run r (.leaf m :: ts) = run (r.enter .test) ts :=
  run_leaf (by simp [step, hr, hand])

lemma run_or (hor : m.isKeyword "or") (hr : r.phase = .joined) :
    run r (.leaf m :: ts) =
      run { r with disjuncts := r.disjuncts ++ [r.conjunction], conjuncts := [], phase := .test } ts := by
  have hand : ¬ m.isKeyword "and" := by
    intro hand
    exact absurd (isKeyword_sameWord hand hor) (by decide +kernel)
  exact run_leaf (by simp [step, hr, hand, hor])

mutual

/-- A reading that awaits a test reads what is an item as that item, and goes on behind it. -/
theorem run_item {ts : List Tree} {e : Expr} (h : Item ts e) (r : Reading) (hr : r.phase = .test)
    (rest : List Tree) : run r (ts ++ rest) = run (r.complete e) rest := by
  match h with
  | .not hnot h =>
    rw [List.cons_append, run_not hnot hr,
      run_item h { r with negations := r.negations + 1 } hr rest, complete_not]
  | .group h he =>
    have hinner := run_disjunction h {} rfl rfl rfl
    rw [(joined_iff h.ne_nil).mp he, List.singleton_append, run, stepTree, hinner]
    simp [stepGroup, hr, Except.map]
  | .isNull hfirst ho his hnull =>
    rw [List.cons_append, run_first ho hfirst hr, List.cons_append, run_is his]
    exact run_null hnull
  | .isNotNull hfirst ho his hnot hnull =>
    rw [List.cons_append, run_first ho hfirst hr, List.cons_append, run_is his, List.cons_append,
      run_isNot hnot]
    exact run_leaf (by simp [step, enter, hnull, complete])
  | .compare hfirst hleft hop hright =>
    rw [List.cons_append, List.append_assoc, run_first hleft hfirst hr]
    exact run_signs hop hright

/-- A reading that awaits a test reads a conjunction, and may read more of it. -/
theorem run_conjunction {ts : List Tree} {es : List Expr} (h : Conjunction ts es) (r : Reading)
    (hr : r.phase = .test) (hnegations : r.negations = 0) (rest : List Tree) :
    run r (ts ++ rest) = run { r with conjuncts := r.conjuncts ++ es, phase := .joined } rest := by
  match h with
  | .last h =>
    rw [run_item h r hr, complete, hnegations, Nat.repeat]
  | .more (e := e) h hand hmore =>
    rw [List.append_assoc, List.cons_append, run_item h r hr, run_and hand rfl,
      run_conjunction hmore ((r.complete e).enter .test) rfl rfl rest]
    simp [enter, complete, hnegations, Nat.repeat]

/-- A reading that awaits a test reads the rest of a text as a disjunction. -/
theorem run_disjunction {ts : List Tree} {es : List Expr} (h : Disjunction ts es) (r : Reading)
    (hr : r.phase = .test) (hnegations : r.negations = 0) (hconjuncts : r.conjuncts = []) :
    run r ts = .ok (collapse .any (r.disjuncts ++ es)) := by
  match h with
  | .last h he =>
    have hrun := run_conjunction h r hr hnegations []
    rw [List.append_nil] at hrun
    rw [hrun, hconjuncts, List.nil_append, (joined_iff h.ne_nil).mp he]
    rfl
  | @Disjunction.more _ _ _ es _ _ h he hor hmore =>
    have hrun := run_disjunction hmore { r with
      disjuncts := r.disjuncts ++ [collapse .all es], conjuncts := [], phase := .test }
      rfl hnegations rfl
    rw [List.append_assoc, List.singleton_append, ← (joined_iff h.ne_nil).mp he] at hrun
    rw [run_conjunction h r hr hnegations, hconjuncts, List.nil_append, run_or hor rfl, ← hrun]
    simp only [conjunction, (joined_iff h.ne_nil).mp he]

end

end Reading

end MapStyle.Cql
