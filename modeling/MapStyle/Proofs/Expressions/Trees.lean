import Mathlib.Tactic.Lemma
import MapStyle.Cql.Tree

/-!
# Lexemes and trees

Which trees the lexemes of a text form, without saying how they are built. A group reaches to its
closing parenthesis, or to the end of the text if there is none; a closing parenthesis outside of all
groups is a leaf.
-/

namespace MapStyle.Cql.Tree

variable {m o c : Mark} {ms ns inner : List Mark} {ts us : List Tree}

/-- Lexemes in which every parenthesis is closed, and their trees. -/
inductive Closed : List Mark → List Tree → Prop
  | nil : Closed [] []
  | leaf {m : Mark} {ms : List Mark} {ts : List Tree} (hopen : m.lexeme ≠ .opener .paren)
      (hclose : m.lexeme ≠ .closer .paren) (h : Closed ms ts) : Closed (m :: ms) (.leaf m :: ts)
  | group {o c : Mark} {inner ms : List Mark} {ts us : List Tree} (hopen : o.lexeme = .opener .paren)
      (hinner : Closed inner ts) (hclose : c.lexeme = .closer .paren) (h : Closed ms us) :
      Closed (o :: (inner ++ c :: ms)) (.group ts :: us)

/-- The lexemes up to the end of a text, and their trees. The last group may lack its closing
parenthesis. Inside of a group, no closing parenthesis is left over. -/
inductive Forms : Bool → List Mark → List Tree → Prop
  | nil {inside : Bool} : Forms inside [] []
  | leaf {inside : Bool} {m : Mark} {ms : List Mark} {ts : List Tree}
      (hopen : m.lexeme ≠ .opener .paren) (hclose : inside → m.lexeme ≠ .closer .paren)
      (h : Forms inside ms ts) : Forms inside (m :: ms) (.leaf m :: ts)
  | group {inside : Bool} {o c : Mark} {inner ms : List Mark} {ts us : List Tree}
      (hopen : o.lexeme = .opener .paren) (hinner : Closed inner ts)
      (hclose : c.lexeme = .closer .paren) (h : Forms inside ms us) :
      Forms inside (o :: (inner ++ c :: ms)) (.group ts :: us)
  | unfinished {inside : Bool} {o : Mark} {ms : List Mark} {ts : List Tree}
      (hopen : o.lexeme = .opener .paren) (h : Forms true ms ts) :
      Forms inside (o :: ms) [.group ts]

/-! ### One way to form trees -/

lemma build_opener (hopen : o.lexeme = .opener .paren) (current : List Tree)
    (around : List (List Tree)) :
    build current around (o :: ms) = build [] (current :: around) ms := by
  simp only [build, hopen]

lemma build_closer (hclose : c.lexeme = .closer .paren) (current outer : List Tree)
    (around : List (List Tree)) :
    build current (outer :: around) (c :: ms) =
      build (.group current.reverse :: outer) around ms := by
  simp only [build, hclose]

lemma build_leaf {around : List (List Tree)} (hopen : m.lexeme ≠ .opener .paren)
    (hclose : around ≠ [] → m.lexeme ≠ .closer .paren) (current : List Tree) :
    build current around (m :: ms) = build (.leaf m :: current) around ms := by
  rw [build.eq_def]
  dsimp only
  split
  · next h => exact absurd h hopen
  · next h => exact absurd h (hclose (List.cons_ne_nil _ _))
  · rfl

lemma build_group (hopen : o.lexeme = .opener .paren) (hclose : c.lexeme = .closer .paren)
    (hinner : ∀ around, build [] around (inner ++ c :: ms) = build ts.reverse around (c :: ms))
    (current : List Tree) (around : List (List Tree)) :
    build current around (o :: (inner ++ c :: ms)) = build (.group ts :: current) around ms := by
  rw [build_opener hopen, hinner, build_closer hclose, List.reverse_reverse]

lemma Closed.build_append (h : Closed ms ts) (current : List Tree) (around : List (List Tree))
    (ns : List Mark) : build current around (ms ++ ns) = build (ts.reverse ++ current) around ns := by
  induction h generalizing current around ns with
  | nil => rfl
  | leaf hopen hclose _ ih =>
    rw [List.cons_append, build_leaf hopen fun _ => hclose, ih, List.reverse_cons,
      List.append_assoc, List.singleton_append]
  | @group o c inner ms ts us hopen _ hclose _ ih ih' =>
    have hinner (around : List (List Tree)) : build [] around (inner ++ c :: (ms ++ ns)) =
        build ts.reverse around (c :: (ms ++ ns)) := by simpa using ih [] around _
    rw [List.cons_append, List.append_assoc, List.cons_append, build_group hopen hclose hinner, ih',
      List.reverse_cons, List.append_assoc, List.singleton_append]

lemma Forms.build_eq {inside : Bool} (h : Forms inside ms ts) {around : List (List Tree)}
    (hinside : around ≠ [] → inside) (current : List Tree) :
    build current around ms = endGroups (ts.reverse ++ current) around := by
  induction h generalizing current around with
  | nil => rfl
  | leaf hopen hclose _ ih =>
    rw [build_leaf hopen fun haround => hclose (hinside haround), ih hinside, List.reverse_cons,
      List.append_assoc, List.singleton_append]
  | @group inside o c inner ms ts us hopen hinner hclose _ ih =>
    have hbuild (around : List (List Tree)) : build [] around (inner ++ c :: ms) =
        build ts.reverse around (c :: ms) := by simpa using hinner.build_append [] around _
    rw [build_group hopen hclose hbuild, ih hinside, List.reverse_cons, List.append_assoc,
      List.singleton_append]
  | unfinished hopen _ ih =>
    rw [build_opener hopen, ih fun _ => rfl, List.append_nil, endGroups, List.reverse_reverse]
    rfl

/-! ### Every text forms trees -/

/-- Lexemes go on to the end of their group, or there is no end of a group in them. -/
lemma exists_forms_or_closed (ms : List Mark) :
    (∃ ts, Forms true ms ts) ∨
      ∃ inner c rest ts, ms = inner ++ c :: rest ∧ c.lexeme = .closer .paren ∧ Closed inner ts := by
  match ms with
  | [] => exact .inl ⟨[], .nil⟩
  | m :: ms =>
    by_cases hclose : m.lexeme = .closer .paren
    · exact .inr ⟨[], m, ms, [], rfl, hclose, .nil⟩
    by_cases hopen : m.lexeme = .opener .paren
    · obtain ⟨ts, hts⟩ | ⟨inner, c, rest, ts, rfl, hc, hinner⟩ := exists_forms_or_closed ms
      · exact .inl ⟨_, .unfinished hopen hts⟩
      · obtain ⟨us, hus⟩ | ⟨inner', c', rest', us, rfl, hc', hinner'⟩ := exists_forms_or_closed rest
        · exact .inl ⟨_, .group hopen hinner hc hus⟩
        · exact .inr ⟨m :: (inner ++ c :: inner'), c', rest', _, by simp, hc',
            .group hopen hinner hc hinner'⟩
    · obtain ⟨ts, hts⟩ | ⟨inner, c, rest, ts, rfl, hc, hinner⟩ := exists_forms_or_closed ms
      · exact .inl ⟨_, .leaf hopen (fun _ => hclose) hts⟩
      · exact .inr ⟨m :: inner, c, rest, _, rfl, hc, .leaf hopen hclose hinner⟩
termination_by ms.length

lemma exists_forms (ms : List Mark) : ∃ ts, Forms false ms ts := by
  match ms with
  | [] => exact ⟨[], .nil⟩
  | m :: ms =>
    by_cases hopen : m.lexeme = .opener .paren
    · obtain ⟨ts, hts⟩ | ⟨inner, c, rest, ts, rfl, hc, hinner⟩ := exists_forms_or_closed ms
      · exact ⟨_, .unfinished hopen hts⟩
      · obtain ⟨us, hus⟩ := exists_forms rest
        exact ⟨_, .group hopen hinner hc hus⟩
    · obtain ⟨ts, hts⟩ := exists_forms ms
      exact ⟨_, .leaf hopen nofun hts⟩
termination_by ms.length

/-- Lexemes form only the trees that are built from them. -/
lemma Forms.build (h : Forms false ms ts) : Tree.build [] [] ms = ts := by
  have hbuild : Tree.build [] [] ms = endGroups (ts.reverse ++ []) [] :=
    h.build_eq (fun hne => absurd rfl hne) []
  rw [hbuild, List.append_nil, endGroups, List.reverse_reverse]

/-- The lexemes of a text form exactly the trees that are built from them. -/
lemma forms_iff {cs : List Char} : Forms false (Mark.ofText cs) ts ↔ ts = ofText cs := by
  constructor
  · exact fun h => h.build.symm
  · rintro rfl
    obtain ⟨ts, hts⟩ := exists_forms (Mark.ofText cs)
    have hbuild : ofText cs = ts := hts.build
    exact hbuild ▸ hts

end MapStyle.Cql.Tree
