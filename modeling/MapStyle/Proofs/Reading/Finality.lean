import MapStyle.Proofs.Reading.Concatenation

/-!
# Errors are final

A reader does not look beyond the token at hand. So an error that is not about the end of the text stays
the same whatever comes behind.
-/

namespace MapStyle

variable {P : Type}

/-- Whether an error is about something else than the end of the text: it does not show there, and it is
no filter without its closing bracket. -/
def Error.IsFinal : Error → Prop
  | .malformed fault near _ => near ≠ .endOfInput ∧ fault ≠ .unterminatedFilter
  | .badFilter _ _ _ | .unreadable _ => True

instance : DecidablePred Error.IsFinal
  | .malformed fault near _ =>
    inferInstanceAs (Decidable (near ≠ .endOfInput ∧ fault ≠ .unterminatedFilter))
  | .badFilter _ _ _ | .unreadable _ => inferInstanceAs (Decidable True)

lemma Error.not_isFinal_atEnd (fault : Fault) (l : Location) : ¬ (atEnd fault l).IsFinal :=
  fun h => h.1 rfl

namespace Machine

variable {d : Dialect P} {m : Machine P} {mode : Mode} {e : Error} {ts : List Token}

/-! ### The end of the text -/

lemma not_isFinal_of_stepEnd (h : m.stepEnd mode = .error e) : ¬ e.IsFinal := by
  cases mode with
  | root => cases h
  | filter =>
    rw [stepEnd] at h
    split at h
    · cases h
      exact fun hfinal => hfinal.2 rfl
    · cases h
  | rule | declaration | call | reference | map =>
    cases h
    exact Error.not_isFinal_atEnd _ _

lemma not_isFinal_of_finish_nil (h : m.finish [] = .error e) : ¬ e.IsFinal := by
  rw [finish] at h
  split at h
  · cases h
  · cases h
    exact Error.not_isFinal_atEnd _ _

/-- What a reader finds at the end of the text is never final. -/
lemma not_isFinal_of_read_nil (h : read d m [] = .error e) : ¬ e.IsFinal := by
  generalize hts : [] = ts at h
  induction m, ts using read_induction (d := d) with
  | done m ts hcontrol =>
    subst hts
    rw [read_of_control_nil hcontrol] at h
    exact not_isFinal_of_finish_nil h
  | ends m mode below hcontrol hopened ih =>
    rw [read_nil hcontrol hopened] at h
    cases hend : m.stepEnd mode with
    | error e' =>
      rw [hend] at h
      cases h
      exact not_isFinal_of_stepEnd hend
    | ok _ =>
      rw [hend] at h
      exact ih hend rfl h
  | steps => cases hts
  | opens m below ts hcontrol hunopened ih =>
    subst hts
    rw [read_of_unopened hcontrol hunopened] at h
    cases h
    exact Error.not_isFinal_atEnd _ _

/-! ### Tokens behind an error -/

lemma openMap_append_of_isFinal (hfinal : e.IsFinal) (h : m.openMap ts = .error e) (us : List Token) :
    m.openMap (ts ++ us) = .error e := by
  unfold openMap at h ⊢
  cases ts with
  | nil =>
    cases h
    exact absurd hfinal (Error.not_isFinal_atEnd _ _)
  | cons t ts =>
    rw [List.cons_append, List.tail_cons, List.dropWhile_append]
    rw [List.tail_cons] at h
    split at h
    · cases h
      exact absurd hfinal (Error.not_isFinal_atEnd _ _)
    · next brace vs hbrace =>
      rw [hbrace]
      split at h
      · cases h
      · next hdelimiter =>
        cases h
        simp [hdelimiter]

/-- A reader that comes upon a final error does so whatever comes behind. -/
theorem read_append_of_isFinal (hfinal : e.IsFinal) (h : read d m ts = .error e) (us : List Token) :
    read d m (ts ++ us) = .error e := by
  induction m, ts using read_induction (d := d) with
  | done m ts hcontrol =>  -- an error at the end of the tokens is not a final one
    cases ts with
    | nil => exact absurd hfinal (not_isFinal_of_read_nil h)
    | cons t ts =>
      rw [read_of_control_nil hcontrol] at h ⊢
      exact h
  | ends m mode below hcontrol hopened ih => exact absurd hfinal (not_isFinal_of_read_nil h)
  | steps m mode below t ts hcontrol hopened ih =>
    rw [read_cons hcontrol hopened] at h
    rw [List.cons_append, read_cons hcontrol hopened]
    cases hstep : step d mode { m with last := t.location } t with
    | error e' =>
      rw [hstep] at h
      exact h
    | ok o =>
      rw [hstep] at h
      change read d (o.next mode below t (ts ++ us)).1 (o.next mode below t (ts ++ us)).2 = _
      rw [next_append]
      exact ih o hstep h
  | opens m below ts hcontrol hunopened ih =>
    rw [read_of_unopened hcontrol hunopened] at h ⊢
    cases hmap : m.openMap ts with
    | error e' =>
      rw [hmap] at h
      cases h
      -- the token that stands in place of the brace is there whatever comes behind
      rw [openMap_append_of_isFinal hfinal hmap]
      rfl
    | ok q =>
      obtain ⟨n, rest⟩ := q
      rw [hmap] at h
      rw [openMap_append hmap]
      exact ih n rest hmap h

end Machine

namespace Dialect

/-- An error of a token list that neither shows at the end of the text nor is a filter without its
closing bracket is the error of every longer token list, too. -/
theorem parseTokens_append_of_isFinal (d : Dialect P) {ts : List Token} {e : Error}
    (h : d.parseTokens ts = .error e) (hfinal : e.IsFinal) (us : List Token) :
    d.parseTokens (ts ++ us) = .error e := by
  rw [Machine.parseTokens_eq_read] at h ⊢
  exact Machine.read_append_of_isFinal hfinal h us

/-- The tokens of `#a[x=]`. -/
def halfTokens : List Token :=
  [⟨.colorLiteral, "#a", "#a", ⟨1, 1⟩⟩, ⟨.delimiter, "[", "[", ⟨1, 3⟩⟩,
    ⟨.identifier, "x", "x", ⟨1, 4⟩⟩, ⟨.operator, "=", "=", ⟨1, 5⟩⟩, ⟨.delimiter, "]", "]", ⟨1, 6⟩⟩]

/-- What is wrong with them: the comparison lacks an operand. -/
def halfError : Error := .badFilter "x=" ⟨1, 3⟩ ⟨"x=", .unexpectedEnd⟩

/-- With a whole stylesheet behind them they have the same fault. -/
theorem parseTokens_half_wide : cql.parseTokens halfTokens = .error halfError ∧ halfError.IsFinal ∧
    cql.parseTokens (halfTokens ++ wideTokens) = .error halfError := by
  have hhalf : cql.parseTokens halfTokens = .error halfError := by cbv
  exact ⟨hhalf, trivial, cql.parseTokens_append_of_isFinal hhalf trivial wideTokens⟩

end Dialect

end MapStyle
