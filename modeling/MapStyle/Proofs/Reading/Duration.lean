import Mathlib.Tactic.SplitIfs
import MapStyle.Proofs.Reading.Course

/-!
# How long a reading takes

The loop of a reader without fuel: one activation behind the other, until no mode is left or one of
them fails. Each token list has exactly one such course. It is short, as at most two constructs start
at a token, and all rounds of a mode's own loop but the last one read a token.
-/

namespace MapStyle

variable {P : Type}

namespace Machine

/-- The course of a reading up to its result, with the states in which modes were activated and the
tokens that were left there. -/
inductive Course (d : Dialect P) : Machine P → List Token → List (Machine P × List Token) →
    Except Error (Parsed P) → Prop
  | finished {m : Machine P} {ts : List Token} (hcontrol : m.control = []) :
      Course d m ts [] (m.finish ts)
  | failed {m : Machine P} {ts : List Token} {e : Error} (hcontrol : m.control ≠ [])
      (hactivate : m.activate d ts = .error e) : Course d m ts [(m, ts)] (.error e)
  | continued {m n : Machine P} {ts us : List Token} {states : List (Machine P × List Token)}
      {r : Except Error (Parsed P)} (hcontrol : m.control ≠ [])
      (hactivate : m.activate d ts = .ok (n, us)) (hcourse : Course d n us states r) :
      Course d m ts ((m, ts) :: states) r

/-- Whether the activation in a state starts a construct at the token that comes first of those left,
given how many these are. -/
def startsAt (d : Dialect P) (k : Nat) (s : Machine P × List Token) : Bool :=
  match s.1.activate d s.2 with
  | .error _ => false
  | .ok (n, us) => s.1.control.length < n.control.length && us.length == k

/-- How many rounds the loop of a mode makes: another one for each token that it reads itself. -/
def loopRounds (d : Dialect P) (mode : Mode) (m : Machine P) : List Token → Nat
  | [] => 1
  | t :: ts =>
    match step d mode { m with last := t.location } t with
    | .ok (.stay n) => loopRounds d mode n ts + 1
    | _ => 1

/-- How many rounds the loops of an activation make. In front of the brace of a `Map` block there is
another loop, which skips white space. -/
def rounds (d : Dialect P) (m : Machine P) (ts : List Token) : Nat :=
  match m.control with
  | [] => 0
  | mode :: _ =>
    if mode = .map ∧ ¬ m.inMapBody then
      (ts.tail.takeWhile Token.isWhitespace).length +
        match m.openMap ts with
        | .error _ => 0
        | .ok (n, us) => loopRounds d .map n us
    else loopRounds d mode m ts

variable {d : Dialect P} {m n : Machine P} {mode : Mode} {below : List Mode} {ts us : List Token}
  {states states' : List (Machine P × List Token)} {r r' : Except Error (Parsed P)}

/-! ### One course -/

lemma Course.unique (h : Course d m ts states r) (h' : Course d m ts states' r') :
    states' = states ∧ r' = r := by
  induction h generalizing states' r' with
  | finished hcontrol =>
    cases h' with
    | finished => exact ⟨rfl, rfl⟩
    | failed hne => exact absurd hcontrol hne
    | continued hne => exact absurd hcontrol hne
  | failed hcontrol hactivate =>
    cases h' with
    | finished hnil => exact absurd hnil hcontrol
    | failed _ hactivate' =>
      rw [hactivate] at hactivate'
      cases hactivate'
      exact ⟨rfl, rfl⟩
    | continued _ hactivate' =>
      rw [hactivate] at hactivate'
      cases hactivate'
  | continued hcontrol hactivate _ ih =>
    cases h' with
    | finished hnil => exact absurd hnil hcontrol
    | failed _ hactivate' =>
      rw [hactivate] at hactivate'
      cases hactivate'
    | continued _ hactivate' hcourse' =>
      rw [hactivate] at hactivate'
      cases hactivate'
      obtain ⟨rfl, rfl⟩ := ih hcourse'
      exact ⟨rfl, rfl⟩

/-- The number of activations that are still to come shrinks, so every reading comes to its result. -/
theorem exists_course (d : Dialect P) (m : Machine P) (ts : List Token) :
    ∃ states, Course d m ts states (read d m ts) := by
  induction hk : m.pending ts using Nat.strongRecOn generalizing m ts with
  | ind k ih =>
    subst hk
    by_cases hcontrol : m.control = []
    · rw [read_of_control_nil hcontrol]
      exact ⟨[], .finished hcontrol⟩
    rw [read_of_activate hcontrol]
    cases hactivate : m.activate d ts with
    | error e => exact ⟨_, .failed hcontrol hactivate⟩
    | ok p =>
      obtain ⟨n, us⟩ := p
      obtain ⟨states, hstates⟩ := ih _ (pending_activate hcontrol hactivate) n us rfl
      exact ⟨_, .continued hcontrol hactivate hstates⟩

/-- A course has no more activations than the bound says. -/
theorem Course.length_le (h : Course d m ts states r) : states.length ≤ m.pending ts := by
  induction h with
  | finished => exact Nat.zero_le _
  | @failed m ts e hcontrol _ =>
    obtain ⟨mode, below, hmode⟩ := List.exists_cons_of_ne_nil hcontrol
    rw [pending_of_control hmode, Mode.pending, List.length_singleton]
    omega
  | continued hcontrol hactivate _ ih =>
    have hlt := pending_activate hcontrol hactivate
    rw [List.length_cons]
    omega

/-! ### Constructs that start at a token -/

/-- Where the text may end, no construct has started at its end. -/
lemma openings_nil_of_stepEnd (hend : m.stepEnd mode = .ok ()) : mode.openings m.context [] = 0 := by
  cases mode with
  | root => rfl
  | filter => rfl
  | rule | declaration | call | reference | map => cases hend

/-- What comes of an activation: a child construct has started, further in than its parent if at the
same token, or the construct has ended, and not at the token where it had started. -/
lemma starts_or_ends_of_readTokens (hopened : mode = .map → m.inMapBody)
    (h : readTokens d mode below m ts = .ok (n, us)) :
    us.length ≤ ts.length ∧
      ((∃ child, n.control = child :: mode :: below ∧ us ≠ [] ∧ 0 < child.openings n.context us ∧
          (us.length = ts.length → mode.openings m.context ts < child.openings n.context us)) ∨
        n.control = below ∧ (us.length = ts.length → mode.openings m.context ts = 0)) := by
  induction ts generalizing m with
  | nil =>  -- the tokens are at their end, and the construct ends there
    cases hend : m.stepEnd mode <;> rw [readTokens, hend] at h <;> cases h
    exact ⟨Nat.le_refl _, .inr ⟨rfl, fun _ => openings_nil_of_stepEnd hend⟩⟩
  | cons t ts ih =>
    rw [readTokens] at h
    split at h
    · cases h
    · -- the token is taken, so what comes of it is at another one
      next k hstep =>
      have hstill : mode = .map → k.inMapBody := by
        rintro rfl
        exact inMapBody_of_stepMap_stay (m := { m with last := t.location }) (hopened rfl) hstep
      obtain ⟨hlength, hcases⟩ := ih hstill h
      have hne : us.length ≠ (t :: ts).length := by rw [List.length_cons]; omega
      refine ⟨Nat.le_succ_of_le hlength, hcases.imp ?_ ?_⟩
      · rintro ⟨child, hcontrol, hus, hpos, -⟩
        exact ⟨child, hcontrol, hus, hpos, fun heq => absurd heq hne⟩
      · rintro ⟨hcontrol, -⟩
        exact ⟨hcontrol, fun heq => absurd heq hne⟩
    · -- a child starts at this token
      next child k hstep =>
      cases h
      have hprogress := progresses_step (m := { m with last := t.location }) hopened hstep ts
      exact ⟨Nat.le_refl _, .inl ⟨child, rfl, List.cons_ne_nil _ _, Nat.zero_lt_of_lt hprogress,
        fun _ => hprogress⟩⟩
    · -- the construct ends at this token, having opened nothing there
      next k hstep =>
      cases h
      have hprogress := progresses_step (m := { m with last := t.location }) hopened hstep ts
      exact ⟨Nat.le_refl _, .inr ⟨rfl, fun _ => hprogress⟩⟩
    · next k hstep =>
      cases h
      refine ⟨Nat.le_succ _, .inr ⟨rfl, fun heq => ?_⟩⟩
      rw [List.length_cons] at heq
      omega

/-- How many constructs have started at the token at hand. -/
def openings (m : Machine P) (ts : List Token) : Nat :=
  match m.control with
  | [] => 0
  | mode :: _ => mode.openings m.context ts

lemma openings_of_control (hcontrol : m.control = mode :: below) (ts : List Token) :
    m.openings ts = mode.openings m.context ts := by
  rw [openings, hcontrol]

/-- How many constructs can still start when a given number of tokens is left. -/
def allowance (m : Machine P) (ts : List Token) (k : Nat) : Nat :=
  if k = 0 ∨ ts.length < k then 0 else if k < ts.length then 2 else 2 - m.openings ts

lemma allowance_le (m : Machine P) (ts : List Token) (k : Nat) : m.allowance ts k ≤ 2 := by
  unfold allowance
  split
  · exact Nat.zero_le 2
  split
  · exact Nat.le_refl 2
  · exact Nat.sub_le ..

lemma openMap_lengths (h : m.openMap ts = .ok (n, us)) :
    n.inMapBody ∧ n.control = m.control ∧
      (ts.tail.takeWhile Token.isWhitespace).length + us.length + 2 = ts.length := by
  have hts := congrArg List.length (List.takeWhile_append_dropWhile (p := Token.isWhitespace)
    (l := ts.tail))
  unfold openMap at h
  split at h
  · cases h
  · next brace rest hbrace =>
    split at h
    · cases h
      rw [hbrace, List.length_append, List.length_cons, List.length_tail] at hts
      exact ⟨rfl, rfl, by omega⟩
    · cases h

lemma starts_or_ends_of_activate (hcontrol : m.control = mode :: below)
    (h : m.activate d ts = .ok (n, us)) :
    us.length ≤ ts.length ∧
      ((n.control.length = m.control.length + 1 ∧ us ≠ [] ∧ 0 < n.openings us ∧
          (us.length = ts.length → m.openings ts < n.openings us)) ∨
        n.control.length < m.control.length ∧ (us.length = ts.length → m.openings ts = 0)) := by
  rw [openings_of_control hcontrol]
  -- a `Map` block that is not open yet has its brace read first
  by_cases hopened : mode = .map → m.inMapBody
  · rw [activate_of_opened hcontrol hopened] at h
    obtain ⟨hlength, ⟨child, hn, hus, hpos, hlt⟩ | ⟨hn, hzero⟩⟩ :=
      starts_or_ends_of_readTokens hopened h
    · rw [openings_of_control hn, hn, hcontrol]
      exact ⟨hlength, .inl ⟨rfl, hus, hpos, hlt⟩⟩
    · rw [hn, hcontrol]
      exact ⟨hlength, .inr ⟨Nat.lt_succ_self _, hzero⟩⟩
  · obtain ⟨rfl, hunopened⟩ := Classical.not_imp.mp hopened
    rw [activate_of_unopened hcontrol hunopened] at h
    cases hmap : m.openMap ts with
    | error e => rw [hmap] at h; cases h
    | ok p =>
      obtain ⟨k, rest⟩ := p
      rw [hmap] at h
      obtain ⟨hbody, -, hrest⟩ := openMap_lengths hmap
      obtain ⟨hlength, hcases⟩ := starts_or_ends_of_readTokens (fun _ => hbody) h
      -- with the brace a token is gone
      have hne : us.length ≠ ts.length := by omega
      refine ⟨by omega, ?_⟩
      obtain ⟨child, hn, hus, hpos, -⟩ | ⟨hn, -⟩ := hcases
      · rw [openings_of_control hn, hn, hcontrol]
        exact .inl ⟨rfl, hus, hpos, fun heq => absurd heq hne⟩
      · rw [hn, hcontrol]
        exact .inr ⟨Nat.lt_succ_self _, fun heq => absurd heq hne⟩

/-- Each construct that starts at a token takes from what can still start there. -/
lemma allowance_activate (hcontrol : m.control ≠ []) (h : m.activate d ts = .ok (n, us)) (k : Nat) :
    n.allowance us k + (if startsAt d k (m, ts) then 1 else 0) ≤ m.allowance ts k := by
  obtain ⟨mode, below, hmode⟩ := List.exists_cons_of_ne_nil hcontrol
  have hstarts : startsAt d k (m, ts) = (m.control.length < n.control.length && us.length == k) := by
    simp only [startsAt, h]
  have hle : n.openings us ≤ 2 := by
    unfold openings
    split
    · exact Nat.zero_le _
    · exact Mode.openings_le _ _ _
  rw [hstarts]
  obtain ⟨hlength, ⟨hn, hus, hpos, hlt⟩ | ⟨hn, hzero⟩⟩ := starts_or_ends_of_activate hmode h
  · have hpositive := List.length_pos_iff.mpr hus
    simp only [allowance, hn, Nat.lt_succ_self, decide_true, Bool.true_and, beq_iff_eq]
    split_ifs <;> omega
  · rw [decide_eq_false (Nat.lt_asymm hn), Bool.false_and, if_neg Bool.false_ne_true, Nat.add_zero,
      allowance, allowance]
    split_ifs <;> omega

lemma Course.countP_startsAt_le (h : Course d m ts states r) (k : Nat) :
    states.countP (startsAt d k) ≤ m.allowance ts k := by
  induction h with
  | finished => exact Nat.zero_le _
  | failed _ hactivate =>
    rw [List.countP_singleton, startsAt, hactivate]
    exact Nat.zero_le _
  | continued hcontrol hactivate _ ih =>
    rw [List.countP_cons]
    exact Nat.le_trans (Nat.add_le_add_right ih _) (allowance_activate hcontrol hactivate k)

/-! ### Rounds of the loops -/

lemma loopRounds_le (d : Dialect P) (mode : Mode) (m : Machine P) (ts : List Token) :
    loopRounds d mode m ts ≤ ts.length + 1 := by
  induction ts generalizing m with
  | nil => exact Nat.le_refl _
  | cons t ts ih =>
    rw [loopRounds]
    split
    · exact Nat.succ_le_succ (ih _)
    · rw [List.length_cons]
      omega

/-- Each round of a mode's loop but the last one reads a token. -/
lemma loopRounds_add_le (h : readTokens d mode below m ts = .ok (n, us)) :
    loopRounds d mode m ts + us.length ≤ ts.length + 1 := by
  induction ts generalizing m with
  | nil =>
    cases hend : m.stepEnd mode <;> rw [readTokens, hend] at h <;> cases h
    exact Nat.le_refl _
  | cons t ts ih =>
    rw [readTokens] at h
    rw [loopRounds, List.length_cons]
    split at h
    · cases h
    · next k hstep =>
      have hk := ih h
      simp only [hstep]
      omega
    · next child k hstep =>
      cases h
      simp only [hstep, List.length_cons]
      omega
    · next k hstep =>
      cases h
      simp only [hstep, List.length_cons]
      omega
    · next k hstep =>
      cases h
      simp only [hstep]
      omega

lemma rounds_of_opened (hcontrol : m.control = mode :: below) (hopened : mode = .map → m.inMapBody)
    (ts : List Token) : m.rounds d ts = loopRounds d mode m ts := by
  rw [rounds, hcontrol]
  exact if_neg fun h => h.2 (hopened h.1)

lemma rounds_of_unopened (hcontrol : m.control = .map :: below) (hunopened : ¬ m.inMapBody)
    (ts : List Token) : m.rounds d ts = (ts.tail.takeWhile Token.isWhitespace).length +
      match m.openMap ts with
      | .error _ => 0
      | .ok (n, us) => loopRounds d .map n us := by
  rw [rounds, hcontrol]
  exact if_pos ⟨rfl, hunopened⟩

/-- Each round of an activation but the last one reads a token. -/
lemma rounds_le (d : Dialect P) (m : Machine P) (ts : List Token) :
    m.rounds d ts ≤ ts.length + 1 ∧
      ∀ n us, m.activate d ts = .ok (n, us) → m.rounds d ts + us.length ≤ ts.length + 1 := by
  cases hcontrol : m.control with
  | nil =>
    have hzero : m.rounds d ts = 0 := by rw [rounds, hcontrol]
    rw [hzero, activate, hcontrol]
    refine ⟨Nat.zero_le _, fun n us h => ?_⟩
    cases h
    omega
  | cons mode below =>
    by_cases hopened : mode = .map → m.inMapBody
    · rw [rounds_of_opened hcontrol hopened, activate_of_opened hcontrol hopened]
      exact ⟨loopRounds_le d mode m ts, fun n us h => loopRounds_add_le h⟩
    · obtain ⟨rfl, hunopened⟩ := Classical.not_imp.mp hopened
      rw [rounds_of_unopened hcontrol hunopened, activate_of_unopened hcontrol hunopened]
      -- rounds over the blanks in front of the brace, then as many as the block takes
      cases hmap : m.openMap ts with
      | error e =>
        have hle := (List.takeWhile_sublist Token.isWhitespace (l := ts.tail)).length_le
        rw [List.length_tail] at hle
        dsimp only
        exact ⟨by omega, nofun⟩
      | ok p =>
        obtain ⟨k, rest⟩ := p
        obtain ⟨-, -, hrest⟩ := openMap_lengths hmap
        have hloop := loopRounds_le d .map k rest
        dsimp only
        refine ⟨by omega, fun n us h => ?_⟩
        have hadd : loopRounds d .map k rest + us.length ≤ rest.length + 1 := loopRounds_add_le h
        omega

end Machine

/-- Every reading ends, with a stylesheet or an error: without fuel it has exactly one course, which has
at most four activations for each token and one more. With so many tokens left, at most two constructs
start, and none when there are none left; and each round of an activation's loops but the last one reads
a token, also if the activation fails. -/
theorem Dialect.exists_unique_course (d : Dialect P) (ts : List Token) :
    ∃ states, (∀ states' r, Machine.Course d {} ts states' r ↔
        states' = states ∧ r = d.parseTokens ts) ∧
      states.length ≤ 4 * ts.length + 1 ∧
      (∀ k, states.countP (Machine.startsAt d k) ≤ 2) ∧
      states.countP (Machine.startsAt d 0) = 0 ∧
      ∀ s ∈ states, s.1.rounds d s.2 ≤ s.2.length + 1 ∧
        ∀ m us, s.1.activate d s.2 = .ok (m, us) → s.1.rounds d s.2 + us.length ≤ s.2.length + 1 := by
  obtain ⟨states, hstates⟩ := Machine.exists_course d {} ts
  rw [← Machine.parseTokens_eq_read] at hstates
  refine ⟨states, fun states' r => ⟨hstates.unique, ?_⟩, ?_, fun k => ?_, ?_, fun s _ => ?_⟩
  · rintro ⟨rfl, rfl⟩
    exact hstates
  · rw [← Machine.pending_start]
    exact hstates.length_le
  · exact Nat.le_trans (hstates.countP_startsAt_le k) (Machine.allowance_le _ _ _)
  · exact Nat.le_zero.mp (hstates.countP_startsAt_le 0)
  · exact Machine.rounds_le d s.1 s.2

end MapStyle
