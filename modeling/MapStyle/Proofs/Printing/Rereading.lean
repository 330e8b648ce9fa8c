import MapStyle.Proofs.Printing.Expression

/-!
# Reading written expressions

The engine goes through the lexemes of a written test as through any other text: they become leaves
and groups, and each test that is read joins the ones before it.
-/

namespace MapStyle.Cql

/-! ### Trees of lexemes -/

namespace Tree

/-- The trees of a text of which a part has been read, from the lexemes that are left. -/
def read (spaced : Bool) (current : List Tree) (around : List (List Tree))
    (ls : List (Lexeme × List Char)) : List Tree :=
  build current around (Mark.ofLexemes spaced ls)

/-- Some lexemes become certain trees, whatever is read before them and behind them. -/
def Builds (spaced : Bool) (ls : List (Lexeme × List Char)) (trees : List Tree) : Prop :=
  ∀ current around ms,
    read spaced current around (ls ++ ms) = read false (trees.reverse ++ current) around ms

/-- A lexeme that is a leaf wherever it stands. -/
def isLeaf : Lexeme → Bool
  | .blank | .comment | .opener .paren | .closer .paren => false
  | _ => true

namespace Builds

variable {spaced : Bool} {ls ms : List (Lexeme × List Char)} {trees trees' : List Tree}

lemma leaf {l : Lexeme × List Char} (h : isLeaf l.1) :
    Builds spaced [l] [.leaf ⟨l.1, l.2, spaced⟩] := by
  intro current around ms
  obtain ⟨lexeme, raw⟩ := l
  cases lexeme with
  | blank | comment => cases h
  | opener b | closer b =>
    cases b with
    | paren => cases h
    | square | curly => rfl
  | _ => rfl

lemma append (hls : Builds spaced ls trees) (hms : Builds false ms trees') :
    Builds spaced (ls ++ ms) (trees ++ trees') := by
  intro current around ns
  rw [List.append_assoc, hls, hms, List.reverse_append, List.append_assoc]

lemma cons {l : Lexeme × List Char} (h : isLeaf l.1) (hls : Builds false ls trees) :
    Builds spaced (l :: ls) (.leaf ⟨l.1, l.2, spaced⟩ :: trees) :=
  append (leaf h) hls

lemma blank_cons (h : Builds true ls trees) : Builds spaced (blank :: ls) trees := h

lemma group (h : Builds false ls trees) :
    Builds spaced ((.opener .paren, ['(']) :: (ls ++ [(.closer .paren, [')'])])) [.group trees] := by
  intro current around ms
  have hinner := h [] (current :: around) ((.closer .paren, [')']) :: ms)
  rw [List.append_nil] at hinner
  calc read spaced current around ((.opener .paren, ['(']) :: (ls ++ [(.closer .paren, [')'])]) ++ ms)
      = read false [] (current :: around) (ls ++ (.closer .paren, [')']) :: ms) := by
        rw [List.cons_append, List.append_assoc]
        rfl
    _ = read false (.group trees.reverse.reverse :: current) around ms := hinner
    _ = read false (.group trees :: current) around ms := by rw [List.reverse_reverse]

end Builds

/-- A text that is read as certain lexemes is read as the trees that they become. -/
lemma ofText_eq {cs : List Char} {trees : List Tree} (h : Builds false (Lexeme.ofText cs) trees) :
    ofText cs = trees := by
  have hread := h [] [] []
  rw [List.append_nil, List.append_nil] at hread
  exact hread.trans (List.reverse_reverse trees)

end Tree

/-! ### Tests -/

lemma Operand.IsPlain.isLeaf {o : Operand} (h : o.IsPlain) : Tree.isLeaf o.lexeme.1 := by
  cases h with
  | boolean b => cases b <;> rfl
  | _ => rfl

/-- The leaves that a comparator becomes. -/
def Comparator.leaves (op : Comparator) : List Tree :=
  match op.symbol.toList with
  | [] => []
  | c :: cs => .leaf ⟨.delimiter c, [c], true⟩ :: cs.map fun c => .leaf ⟨.delimiter c, [c], false⟩

lemma Comparator.builds (op : Comparator) : Tree.Builds true op.lexemes op.leaves := by
  cases op
  · exact .leaf rfl
  · exact .cons rfl (.leaf rfl)
  · exact .leaf rfl
  · exact .cons rfl (.leaf rfl)
  · exact .leaf rfl
  · exact .cons rfl (.leaf rfl)

namespace Reading

variable {r r' : Reading} {m : Mark} {o right : Operand} {ts : List Tree}

/-- Some trees are read as one test wherever a test may stand. -/
def Reads (trees : List Tree) (e : Expr) : Prop :=
  ∀ r ts, r.phase = .test → r.negations = 0 → run r (trees ++ ts) = run (r.complete e) ts

lemma run_leaf (h : r.step m = .ok r') : run r (.leaf m :: ts) = run r' ts := by
  rw [run, stepTree, h]

lemma run_operand (ho : m.operand = .ok o) (hnot : m.isKeyword "not" = false)
    (hr : r.phase = .test) : run r (.leaf m :: ts) = run (r.enter (.left o)) ts := by
  refine run_leaf ?_
  simp [step, hr, hnot, ho, Except.map]

lemma run_comparator (op : Comparator) (hm : m.operand = .ok right) (hspaced : m.spaced = true) :
    run (r.enter (.left o)) (op.leaves ++ .leaf m :: ts) =
      run (r.complete (.compare o op right)) ts := by
  have hkeyword (c : Char) (spaced : Bool) :
      Mark.isKeyword ⟨.delimiter c, [c], spaced⟩ "is" = false := rfl
  cases op <;>
    simp [Comparator.leaves, Comparator.symbol, run, stepTree, step, enter, hkeyword,
      Comparator.ofSigns?, Comparator.ofSign?, hm, hspaced, complete, Except.map]

/-! ### Tests in a row -/

/-- What has been read, once some tests with OR between them, or AND, follow and end the text. -/
def outcome (r : Reading) (disjunction : Bool) (es : List Expr) : Expr :=
  collapse .any (r.disjuncts ++ if disjunction then es else [collapse .all (r.conjuncts ++ es)])

lemma outcome_empty (disjunction : Bool) (es : List Expr) :
    outcome {} disjunction es = Test.joined disjunction es := by
  cases disjunction <;> rfl

lemma run_complete_nil {e : Expr} (disjunction : Bool) (hr : r.negations = 0)
    (hconjuncts : disjunction → r.conjuncts = []) :
    run (r.complete e) [] = .ok (r.outcome disjunction [e]) := by
  cases disjunction
  · simp [run, finish, complete, conjunction, outcome, hr, Nat.repeat]
  · simp [run, finish, complete, conjunction, outcome, hr, hconjuncts rfl, Nat.repeat, collapse]

/-- Behind a test and the word that joins it to the next one, the rest is read with that test done. -/
lemma exists_run_joiner {e : Expr} (disjunction : Bool) (es : List Expr) (hr : r.negations = 0)
    (hconjuncts : disjunction → r.conjuncts = []) :
    ∃ r', r'.phase = .test ∧ r'.negations = 0 ∧ (disjunction → r'.conjuncts = []) ∧
      r'.outcome disjunction es = r.outcome disjunction (e :: es) ∧
      ∀ ts, run (r.complete e)
        (.leaf ⟨(word (if disjunction then "OR" else "AND")).1,
          (word (if disjunction then "OR" else "AND")).2, true⟩ :: ts) = run r' ts := by
  cases disjunction with
  | false =>
    have hand : Text.sameWord "AND" "and" := by rw [Text.sameWord_eq]; decide
    refine ⟨(r.complete e).enter .test, rfl, rfl, nofun, ?_, ?_⟩
    · simp [outcome, enter, complete, hr, Nat.repeat]
    · intro ts
      refine run_leaf ?_
      simp [step, complete, Mark.isKeyword, word, hand]
  | true =>
    have hand : Text.sameWord "OR" "and" = false := by rw [Text.sameWord_eq]; decide
    have hor : Text.sameWord "OR" "or" := by rw [Text.sameWord_eq]; decide
    refine ⟨{ r.complete e with
      disjuncts := r.disjuncts ++ [(r.complete e).conjunction], conjuncts := [], phase := .test },
      rfl, rfl, fun _ => rfl, ?_, ?_⟩
    · simp [outcome, conjunction, complete, hr, hconjuncts rfl, Nat.repeat, collapse]
    · intro ts
      refine run_leaf ?_
      simp [step, complete, Mark.isKeyword, word, hand, hor]

end Reading

namespace Test

open Reading

variable {t : Test} {ts : List Test}

/-- Some lexemes are read as one test. -/
def ReadsAs (ls : List (Lexeme × List Char)) (e : Expr) : Prop :=
  ∀ spaced, ∃ trees, Tree.Builds spaced ls trees ∧ Reads trees e

lemma exists_run_joinedLexemes (disjunction : Bool) (hne : ts ≠ [])
    (h : ∀ t ∈ ts, ReadsAs t.lexemes t.expr) (spaced : Bool) :
    ∃ trees, Tree.Builds spaced (joinedLexemes disjunction ts) trees ∧
      ∀ r : Reading, r.phase = .test → r.negations = 0 → (disjunction → r.conjuncts = []) →
        run r trees = .ok (r.outcome disjunction (exprs ts)) := by
  induction ts generalizing spaced with
  | nil => exact absurd rfl hne
  | cons t ts ih =>
    obtain ⟨ht, hts⟩ := List.forall_mem_cons.mp h
    obtain ⟨trees, hbuilds, hreads⟩ := ht spaced
    cases ts with
    | nil =>
      rw [joinedLexemes_singleton]
      refine ⟨trees, hbuilds, ?_⟩
      intro r hphase hr hconjuncts
      have hrun := hreads r [] hphase hr
      rw [List.append_nil] at hrun
      rw [hrun, run_complete_nil disjunction hr hconjuncts]
      rfl
    | cons u ts =>
      obtain ⟨trees', hbuilds', hruns⟩ := ih nofun hts true
      rw [joinedLexemes_cons_cons, List.append_assoc]
      refine ⟨_, hbuilds.append (.blank_cons (.cons ?_ (.blank_cons hbuilds'))), ?_⟩
      · cases disjunction <;> rfl
      · -- a test, then the word that joins it to the others
        intro r hphase hr hconjuncts
        obtain ⟨r', hphase', hr', hconjuncts', houtcome, hrun⟩ :=
          exists_run_joiner (e := t.expr) disjunction (exprs (u :: ts)) hr hconjuncts
        rw [hreads r _ hphase hr, hrun, hruns r' hphase' hr' hconjuncts', houtcome]
        rfl

lemma ReadsAs.group {ls : List (Lexeme × List Char)} {e : Expr} (negated : Bool)
    (h : ∃ trees, Tree.Builds false ls trees ∧ run {} trees = .ok e) :
    ReadsAs ((if negated then [word "NOT", blank] else []) ++ (.opener .paren, ['(']) ::
      (ls ++ [(.closer .paren, [')'])])) (if negated then .not e else e) := by
  intro spaced
  obtain ⟨trees, hbuilds, hrun⟩ := h
  cases negated with
  | false =>
    refine ⟨_, .group hbuilds, ?_⟩
    intro r ts hphase hr
    simp [run, stepTree, stepGroup, hphase, hrun, Except.map]
  | true =>
    have hnot : Text.sameWord "NOT" "not" := by rw [Text.sameWord_eq]; decide
    refine ⟨_, .cons rfl (.blank_cons (.group hbuilds)), ?_⟩
    intro r ts hphase hr
    simp [run, stepTree, stepGroup, step, Mark.isKeyword, word, hnot, hphase, hrun, hr, Except.map,
      complete, Nat.repeat]

lemma ReadsAs.compare {left right : Operand} (op : Comparator) (hleft : left.IsPlain)
    (hright : right.IsPlain) : ReadsAs (lexemes (.compare left op right)) (.compare left op right) := by
  intro spaced
  have hbuilds : Tree.Builds true (op.lexemes ++ [blank, right.lexeme])
      (op.leaves ++ [.leaf ⟨right.lexeme.1, right.lexeme.2, true⟩]) :=
    op.builds.append (.blank_cons (.leaf hright.isLeaf))
  refine ⟨_, .cons hleft.isLeaf (.blank_cons hbuilds), ?_⟩
  intro r ts hphase hr
  rw [List.cons_append, List.append_assoc,
    run_operand (hleft.operand_eq spaced) (hleft.not_isKeyword spaced) hphase]
  exact run_comparator op (hright.operand_eq true) rfl

lemma ReadsAs.isNull {o : Operand} (negated : Bool) (h : o.IsPlain) :
    ReadsAs (lexemes (.isNull o negated)) (.isNull o negated) := by
  intro spaced
  have his : Text.sameWord "IS" "is" := by rw [Text.sameWord_eq]; decide
  have hnot : Text.sameWord "NOT" "not" := by rw [Text.sameWord_eq]; decide
  have hnull : Text.sameWord "NULL" "null" := by rw [Text.sameWord_eq]; decide
  have hnull_not : Text.sameWord "NULL" "not" = false := by rw [Text.sameWord_eq]; decide
  have hbuilds : ∃ trees, Tree.Builds true
      ((if negated then [word "NOT", blank] else []) ++ [word "NULL"]) trees ∧
      ∀ (r : Reading) ts,
        run (r.enter (.is o)) (trees ++ ts) = run (r.complete (.isNull o negated)) ts := by
    cases negated with
    | false =>
      refine ⟨_, .leaf rfl, ?_⟩
      intro r ts
      refine run_leaf ?_
      simp [step, enter, complete, Mark.isKeyword, word, hnull, hnull_not]
    | true =>
      refine ⟨_, .cons rfl (.blank_cons (.leaf rfl)), ?_⟩
      intro r ts
      refine (run_leaf ?_).trans (run_leaf (r := r.enter (.isNot o)) ?_)
      · simp [step, enter, Mark.isKeyword, word, hnot]
      · simp [step, enter, complete, Mark.isKeyword, word, hnull]
  obtain ⟨trees, hbuilds, hrun⟩ := hbuilds
  refine ⟨_, .cons h.isLeaf (.blank_cons (.cons rfl (.blank_cons hbuilds))), ?_⟩
  intro r ts hphase hr
  rw [List.cons_append, List.cons_append,
    run_operand (h.operand_eq spaced) (h.not_isKeyword spaced) hphase, ← hrun]
  refine run_leaf ?_
  simp [step, enter, Mark.isKeyword, word, his]

/-- The engine reads a plain test as the expression that it stands for. -/
lemma IsPlain.readsAs (h : t.IsPlain) : ReadsAs t.lexemes t.expr := by
  induction h with
  | compare op hleft hright => exact .compare op hleft hright
  | isNull negated h => exact .isNull negated h
  | group negated disjunction hne hparts ih =>
    obtain ⟨trees, hbuilds, hruns⟩ := exists_run_joinedLexemes disjunction hne ih false
    have hrun := hruns {} rfl rfl fun _ => rfl
    rw [outcome_empty] at hrun
    exact .group negated ⟨trees, hbuilds, hrun⟩

/-- The text of some plain tests with OR between them, or AND. -/
def text (disjunction : Bool) (ts : List Test) : String :=
  String.ofList (spelled (joinedLexemes disjunction ts))

/-- The engine reads plain tests in a row back as the expression that they stand for. -/
theorem parse_text (disjunction : Bool) (hne : ts ≠ []) (h : ∀ t ∈ ts, t.IsPlain) :
    Expr.parse (text disjunction ts) = .ok (joined disjunction (exprs ts)) := by
  have hspells : Spells (joinedLexemes disjunction ts) [] :=
    spells_joinedLexemes disjunction hne (fun t ht => (h t ht).spells) Lexeme.endsNumber_nil
  rw [Spells, List.append_nil, Lexeme.ofText, List.append_nil] at hspells
  obtain ⟨trees, hbuilds, hruns⟩ :=
    exists_run_joinedLexemes disjunction hne (fun t ht => (h t ht).readsAs) false
  have hrun := hruns {} rfl rfl fun _ => rfl
  rw [outcome_empty] at hrun
  rw [← hspells] at hbuilds
  rw [Expr.parse, text, String.toList_ofList, Tree.ofText_eq hbuilds, hrun]

end Test

end MapStyle.Cql
