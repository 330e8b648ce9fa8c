import MapStyle.Proofs.Expressions.Grammar

/-!
# Accepted expressions

Each phase of a reading allows a few lexemes only, so that an accepted text can be taken apart into
the items, conjunctions and disjunctions of the grammar. With the other direction, a text is accepted
exactly if the grammar has a reading for it, and there is one such reading at most.
-/

namespace MapStyle.Cql

open Grammar

namespace Reading

variable {r : Reading} {m : Mark} {o : Operand} {op : Comparator} {e : Expr} {t : Tree}
  {ts : List Tree}

/-! ### What each phase allows -/

lemma exists_stepTree (h : run r (t :: ts) = .ok e) :
    ∃ r', stepTree r t = .ok r' ∧ run r' ts = .ok e := by
  rw [run] at h
  split at h
  · next r' hr' => exact ⟨r', hr', h⟩
  · cases h

lemma exists_of_map {α : Type} {x : Except Refusal α} {f : α → Reading} {r : Reading}
    (h : x.map f = .ok r) : ∃ a, x = .ok a ∧ r = f a := by
  cases x with
  | error e => cases h
  | ok a =>
    cases h
    exact ⟨a, rfl, rfl⟩

/-- Behind a whole comparator, an operand ends the test. -/
lemma exists_of_right (h : run (r.enter (.right o op)) ts = .ok e) :
    ∃ n right us, ts = .leaf n :: us ∧ IsOperand n right ∧
      run (r.complete (.compare o op right)) us = .ok e := by
  match ts with
  | [] => cases h
  | .group g :: us =>
    obtain ⟨r', hr', -⟩ := exists_stepTree h
    cases hr'
  | .leaf n :: us =>
    obtain ⟨r', hr', h⟩ := exists_stepTree h
    obtain ⟨right, hright, rfl⟩ := exists_of_map hr'
    exact ⟨n, right, us, rfl, operand_eq_ok_iff.mp hright, h⟩

lemma isComparator_of_ofSigns {first : Char} {m n : Mark} (hm : m.lexeme = .delimiter first)
    (h : Comparator.ofSigns? first n = some op) : IsComparator [m, n] op := by
  unfold Comparator.ofSigns? at h
  split at h
  · cases h
  · next hadjacent =>
    split at h <;> first | cases h; next hn => exact .double hm hn hadjacent (by simp) | cases h

lemma isComparator_of_ofSign {first : Char} (hm : m.lexeme = .delimiter first)
    (h : Comparator.ofSign? first = some op) : IsComparator [m] op := by
  unfold Comparator.ofSign? at h
  split at h <;> first | cases h; exact .single hm (by simp) | cases h

/-- Behind the first sign, there is a second one or an operand. -/
lemma exists_of_sign {first : Char} (hm : m.lexeme = .delimiter first)
    (h : run (r.enter (.sign o first)) ts = .ok e) :
    ∃ signs op n right us, ts = signs.map .leaf ++ .leaf n :: us ∧ IsComparator (m :: signs) op ∧
      IsOperand n right ∧ run (r.complete (.compare o op right)) us = .ok e := by
  match ts with
  | [] =>
    simp only [run, finish, enter, refuse] at h
    split at h <;> cases h
  | .group g :: us =>
    obtain ⟨r', hr', -⟩ := exists_stepTree h
    simp only [stepTree, stepGroup, enter, refuse] at hr'
    split at hr' <;> cases hr'
  | .leaf n :: us =>
    obtain ⟨r', hr', h⟩ := exists_stepTree h
    simp only [stepTree, step, enter] at hr'
    split at hr'
    · next op hop =>
      cases hr'
      obtain ⟨n', right, us, rfl, hn', h⟩ := exists_of_right (r := r) h
      exact ⟨[n], op, n', right, us, rfl, isComparator_of_ofSigns hm hop, hn', h⟩
    · split at hr'
      · next op hop =>
        obtain ⟨right, hright, rfl⟩ := exists_of_map hr'
        exact ⟨[], op, n, right, us, rfl, isComparator_of_ofSign hm hop,
          operand_eq_ok_iff.mp hright, h⟩
      · cases hr'

lemma exists_of_isNot (h : run (r.enter (.isNot o)) ts = .ok e) :
    ∃ null us, ts = .leaf null :: us ∧ null.isKeyword "null" ∧
      run (r.complete (.isNull o true)) us = .ok e := by
  match ts with
  | [] => cases h
  | .group g :: us =>
    obtain ⟨r', hr', -⟩ := exists_stepTree h
    cases hr'
  | .leaf null :: us =>
    obtain ⟨r', hr', h⟩ := exists_stepTree h
    simp only [stepTree, step, enter] at hr'
    split at hr'
    · next hnull =>
      cases hr'
      exact ⟨null, us, rfl, hnull, h⟩
    · cases hr'

lemma exists_of_is (h : run (r.enter (.is o)) ts = .ok e) :
    (∃ null us, ts = .leaf null :: us ∧ null.isKeyword "null" ∧
      run (r.complete (.isNull o false)) us = .ok e) ∨
    ∃ not null us, ts = .leaf not :: .leaf null :: us ∧ not.isKeyword "not" ∧
      null.isKeyword "null" ∧ run (r.complete (.isNull o true)) us = .ok e := by
  match ts with
  | [] => cases h
  | .group g :: us =>
    obtain ⟨r', hr', -⟩ := exists_stepTree h
    cases hr'
  | .leaf m :: us =>
    obtain ⟨r', hr', h⟩ := exists_stepTree h
    simp only [stepTree, step, enter] at hr'
    split at hr'
    · next hnot =>
      cases hr'
      obtain ⟨null, vs, rfl, hnull, h⟩ := exists_of_isNot (r := r) h
      exact .inr ⟨m, null, vs, rfl, hnot, hnull, h⟩
    · split at hr'
      · next hnull =>
        cases hr'
        exact .inl ⟨m, us, rfl, hnull, h⟩
      · cases hr'

/-- Behind an operand, a question for null ends the test, or a comparator and an operand do. -/
lemma exists_of_left (hfirst : ¬ m.isKeyword "not") (ho : IsOperand m o)
    (h : run (r.enter (.left o)) ts = .ok e) :
    ∃ us vs f, ts = us ++ vs ∧ Item (.leaf m :: us) f ∧ run (r.complete f) vs = .ok e := by
  -- an operand is followed by `is` or by a comparator, never by a group
  match ts with
  | [] => cases h
  | .group g :: us =>
    obtain ⟨r', hr', -⟩ := exists_stepTree h
    cases hr'
  | .leaf n :: us =>
    obtain ⟨r', hr', h⟩ := exists_stepTree h
    simp only [stepTree, step, enter] at hr'
    split at hr'
    · next his =>
      cases hr'
      obtain ⟨null, vs, rfl, hnull, h⟩ | ⟨not, null, vs, rfl, hnot, hnull, h⟩ :=
        exists_of_is (r := r) h
      · exact ⟨[_, _], vs, _, rfl, .isNull hfirst ho his hnull, h⟩
      · exact ⟨[_, _, _], vs, _, rfl, .isNotNull hfirst ho his hnot hnull, h⟩
    · -- a comparator of more than one sign is put together from its signs
      have hsign (first : Char) (hn : n.lexeme = .delimiter first)
          (h : run (r.enter (.sign o first)) us = .ok e) :
          ∃ ts vs f, .leaf n :: us = ts ++ vs ∧ Item (.leaf m :: ts) f ∧
            run (r.complete f) vs = .ok e := by
        obtain ⟨signs, op, n', right, vs, rfl, hop, hright, h⟩ := exists_of_sign hn h
        refine ⟨.leaf n :: (signs.map .leaf ++ [.leaf n']), vs, _, by simp, ?_, h⟩
        exact .compare hfirst ho hop hright
      split at hr'
      · next hn =>
        cases hr'
        obtain ⟨n', right, vs, rfl, hright, h⟩ := exists_of_right (r := r) h
        exact ⟨[.leaf n, .leaf n'], vs, _, rfl,
          .compare hfirst ho (.single hn (by simp)) hright, h⟩
      · next hn =>
        cases hr'
        exact hsign '<' hn h
      · next hn =>
        cases hr'
        exact hsign '>' hn h
      · next hn =>
        cases hr'
        exact hsign '!' hn h
      · cases hr'

/-- Behind a test, a reading ends or goes on with AND or OR. -/
lemma of_joined (hr : r.phase = .joined) (h : run r ts = .ok e) :
    ts = [] ∧ e = collapse .any (r.disjuncts ++ [r.conjunction]) ∨
    (∃ m us, ts = .leaf m :: us ∧ m.isKeyword "and" ∧ run (r.enter .test) us = .ok e) ∨
    ∃ m us, ts = .leaf m :: us ∧ m.isKeyword "or" ∧
      run { r with disjuncts := r.disjuncts ++ [r.conjunction], conjuncts := [], phase := .test } us =
        .ok e := by
  -- the end, a group, which is refused, or a word
  match ts with
  | [] =>
    simp only [run, finish, hr] at h
    cases h
    exact .inl ⟨rfl, rfl⟩
  | .group g :: us =>
    obtain ⟨r', hr', -⟩ := exists_stepTree h
    simp only [stepTree, stepGroup, hr, refuse] at hr'
    cases hr'
  | .leaf m :: us =>
    obtain ⟨r', hr', h⟩ := exists_stepTree h
    simp only [stepTree, step, hr] at hr'
    split at hr'
    · next hand =>
      cases hr'
      exact .inr (.inl ⟨m, us, rfl, hand, h⟩)
    · split at hr'
      · next hor =>
        cases hr'
        exact .inr (.inr ⟨m, us, rfl, hor, h⟩)
      · cases hr'

/-! ### Accepted texts follow the grammar -/

/-- Trees in which each group that is read as an expression is one by the grammar. -/
def SoundGroups (ts : List Tree) : Prop :=
  ∀ g, .group g ∈ ts → ∀ f, run {} g = .ok f → Expression g f

/-- Where a test is expected, an item stands. -/
lemma exists_item (hsound : SoundGroups ts) (hr : r.phase = .test) (h : run r ts = .ok e) :
    ∃ us vs f, ts = us ++ vs ∧ Item us f ∧ run (r.complete f) vs = .ok e := by
  -- only NOT leaves the phase as it is, so the induction is on the words NOT in front
  induction ts generalizing r with
  | nil =>
    simp only [run, finish, hr] at h
    cases h
  | cons t ts ih =>
    obtain ⟨r', hr', hrun⟩ := exists_stepTree h
    cases t with
    | group g =>
      simp only [stepTree, stepGroup, hr] at hr'
      obtain ⟨f, hf, rfl⟩ := exists_of_map hr'
      obtain ⟨hg, he⟩ := hsound g List.mem_cons_self f hf
      exact ⟨[.group g], ts, f, rfl, .group hg he, hrun⟩
    | leaf m =>
      simp only [stepTree, step, hr] at hr'
      split at hr'
      · next hnot =>
        cases hr'
        obtain ⟨us, vs, f, rfl, hitem, hrun⟩ :=
          ih (fun g hg => hsound g (List.mem_cons_of_mem _ hg)) rfl hrun
        have hrun : run (r.complete (.not f)) vs = .ok e := by
          rw [← complete_not]
          exact hrun
        exact ⟨.leaf m :: us, vs, _, rfl, .not hnot hitem, hrun⟩
      · next hnot =>
        obtain ⟨o, ho, rfl⟩ := exists_of_map hr'
        obtain ⟨us, vs, f, rfl, hitem, hrun⟩ :=
          exists_of_left hnot (operand_eq_ok_iff.mp ho) hrun
        exact ⟨.leaf m :: us, vs, f, rfl, hitem, hrun⟩

/-- Where a conjunction is expected, one stands, and the text ends behind it or goes on with OR. -/
lemma exists_conjunction {r : Reading} {ts : List Tree} (hsound : SoundGroups ts)
    (hr : r.phase = .test) (hnegations : r.negations = 0) (h : run r ts = .ok e) :
    ∃ us vs es, ts = us ++ vs ∧ Conjunction us es ∧
      (vs = [] ∧ e = collapse .any (r.disjuncts ++ [collapse .all (r.conjuncts ++ es)]) ∨
      ∃ m ws, vs = .leaf m :: ws ∧ m.isKeyword "or" ∧
        run { disjuncts := r.disjuncts ++ [collapse .all (r.conjuncts ++ es)] } ws = .ok e) := by
  obtain ⟨us, vs, f, rfl, hitem, hrun⟩ := exists_item hsound hr h
  obtain ⟨rfl, rfl⟩ | ⟨m, ws, rfl, hand, hrun⟩ | ⟨m, ws, rfl, hor, hrun⟩ := of_joined rfl hrun
  · refine ⟨us, [], [f], rfl, .last hitem, .inl ⟨rfl, ?_⟩⟩
    simp [conjunction, complete, hnegations, Nat.repeat]
  · obtain ⟨us', vs', es, rfl, hmore, hrest⟩ :=
      exists_conjunction (fun g hg => hsound g (by simp [hg])) rfl rfl hrun
    refine ⟨us ++ .leaf m :: us', vs', f :: es, by simp, .more hitem hand hmore, ?_⟩
    simpa [enter, complete, hnegations, Nat.repeat] using hrest
  · refine ⟨us, _, [f], rfl, .last hitem, .inr ⟨m, ws, rfl, hor, ?_⟩⟩
    simpa [conjunction, complete, hnegations, Nat.repeat] using hrun
termination_by ts.length

/-- Where a disjunction is expected, one stands, to the end of the text. -/
lemma exists_disjunction {r : Reading} {ts : List Tree} (hsound : SoundGroups ts)
    (hr : r.phase = .test) (hnegations : r.negations = 0) (hconjuncts : r.conjuncts = [])
    (h : run r ts = .ok e) : ∃ es, Disjunction ts es ∧ e = collapse .any (r.disjuncts ++ es) := by
  obtain ⟨us, vs, es, rfl, hconj, hrest⟩ := exists_conjunction hsound hr hnegations h
  have hjoined : Joined .all es (collapse .all es) := (joined_iff hconj.ne_nil).mpr rfl
  rw [hconjuncts, List.nil_append] at hrest
  obtain ⟨rfl, rfl⟩ | ⟨m, ws, rfl, hor, hrun⟩ := hrest
  · rw [List.append_nil]
    exact ⟨_, .last hconj hjoined, rfl⟩
  · obtain ⟨fs, hmore, rfl⟩ :=
      exists_disjunction (fun g hg => hsound g (by simp [hg])) rfl rfl rfl hrun
    exact ⟨_, .more hconj hjoined hor hmore, by simp⟩
termination_by ts.length

/-- What is read as an expression is one by the grammar. -/
theorem expression_of_run {ts : List Tree} {e : Expr} (h : run {} ts = .ok e) : Expression ts e := by
  -- a group is read on its own, and it is smaller than the trees that it is one of
  have hsound : SoundGroups ts := fun g hg f hf => expression_of_run hf
  obtain ⟨es, hdisj, rfl⟩ := exists_disjunction hsound rfl rfl rfl h
  exact .intro hdisj ((joined_iff hdisj.ne_nil).mpr rfl)
termination_by sizeOf ts
decreasing_by
  have hlt := List.sizeOf_lt_of_mem hg
  rw [Tree.group.sizeOf_spec] at hlt
  omega

lemma run_eq_ok_iff {ts : List Tree} {e : Expr} : run {} ts = .ok e ↔ Expression ts e := by
  constructor
  · exact expression_of_run
  · rintro ⟨h, he⟩
    rw [run_disjunction h {} rfl rfl rfl, (joined_iff h.ne_nil).mp he]
    rfl

end Reading

namespace Expr

/-- The grammar gives a text an expression. -/
def Reads (text : String) (e : Expr) : Prop :=
  ∃ trees, Tree.Forms false (Mark.ofText text.toList) trees ∧ Expression trees e

lemma reads_iff {text : String} {e : Expr} : Reads text e ↔ parse text = .ok e := by
  have hparse : parse text = .ok e ↔ Reading.run {} (Tree.ofText text.toList) = .ok e := by
    rw [parse]
    cases Reading.run {} (Tree.ofText text.toList) <;> simp
  rw [hparse, Reading.run_eq_ok_iff, Reads]
  simp only [Tree.forms_iff, exists_eq_left]

/-- An operand, an equals sign and another operand are read as an equation. -/
lemma parse_equation {text : String} {m n : Mark} {left right : Operand} {spaced : Bool}
    (hmarks : Mark.ofText text.toList = [m, ⟨.delimiter '=', ['='], spaced⟩, n])
    (hnot : ¬ m.isKeyword "not") (hleft : IsOperand m left) (hright : IsOperand n right) :
    parse text = .ok (.compare left .eq right) := by
  have hforms : Tree.Forms false (Mark.ofText text.toList)
      [.leaf m, .leaf ⟨.delimiter '=', ['='], spaced⟩, .leaf n] := by
    rw [hmarks]
    refine .leaf (hleft.ne_opener _) Bool.noConfusion ?_
    exact .leaf Lexeme.noConfusion Bool.noConfusion (.leaf (hright.ne_opener _) Bool.noConfusion .nil)
  have hsign : IsComparator [⟨.delimiter '=', ['='], spaced⟩] .eq := .single rfl List.mem_cons_self
  have hitem : Item _ (.compare left .eq right) := .compare hnot hleft hsign hright
  exact reads_iff.mp ⟨_, hforms, .intro (.last (.last hitem) .single) .single⟩

/-- A text is read as an expression exactly if the grammar gives it that expression, it is refused
exactly if the grammar gives it none, and the grammar never gives it two. -/
theorem parse_eq_ok_iff (text : String) :
    (∀ e, parse text = .ok e ↔ Reads text e) ∧
      ((∃ cause, parse text = .error ⟨text, cause⟩) ↔ ¬ ∃ e, Reads text e) ∧
      ∀ e f, Reads text e → Reads text f → e = f := by
  refine ⟨fun e => reads_iff.symm, ?_, ?_⟩
  · simp only [reads_iff, parse]
    cases Reading.run {} (Tree.ofText text.toList) <;> simp
  · intro e f he hf
    rw [reads_iff] at he hf
    exact Except.ok.inj (he.symm.trans hf)

end Expr

end MapStyle.Cql
