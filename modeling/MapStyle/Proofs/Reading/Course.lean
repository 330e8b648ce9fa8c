import Mathlib.Tactic.Lemma
import MapStyle.Proofs.Reading.Independence

/-!
# The course of a reading

Activations come to an end: a token is at hand when at most two constructs start, and every construct
ends once. This gives a number that shrinks with each activation, so the fuel of a reader is never
used up, and reading can be followed to its end token by token, without fuel and without activations.
-/

namespace MapStyle

variable {P : Type}

namespace Mode

/-- How many constructs can have started at the token at hand, if a mode goes on there. -/
def openings : Mode → List (Frame P) → List Token → Nat
  | .rule, .ruleBody :: _, _ => 0
  | .rule, _, _ => 1
  | .declaration, .declaration d :: _, _ => if d.separated then 0 else 2
  | .filter, _, t :: _ => if t.isDelimiter "[" then 2 else 0
  | .call, .call _ :: _, _ => 0
  | .call, _, _ => 1
  | .reference, .reference _ _ :: _, _ => 0
  | .reference, _, _ => 1
  | .map, .mapBody :: _, t :: _ => if t.isKeyword "map" then 1 else 0
  | .map, _, _ => 1
  | _, _, _ => 0

lemma openings_le (mode : Mode) (context : List (Frame P)) (ts : List Token) :
    mode.openings context ts ≤ 2 := by
  unfold openings
  split <;> (try split) <;> omega

/-- A bound on the activations that are still to come if a mode goes on, with others below it: each
construct that is open ends once, and each token lets two more constructs start and end. -/
def pending (mode : Mode) (below : List Mode) (context : List (Frame P)) (ts : List Token) : Nat :=
  below.length + 1 + 2 * (2 * ts.length - mode.openings context ts)

end Mode

/-- Where a reading goes on after a step: the state, with the modes that are then active, and the tokens
that are left. -/
def Outcome.next (mode : Mode) (below : List Mode) (t : Token) (ts : List Token) :
    Outcome P → Machine P × List Token
  | .stay m => ({ m with control := mode :: below }, ts)
  | .enter child m => ({ m with control := child :: mode :: below }, t :: ts)
  | .leave m => ({ m with control := below }, t :: ts)
  | .close m => ({ m with control := below }, ts)

namespace Machine

/-- A bound on the activations that are still to come from a state. -/
def pending (m : Machine P) (ts : List Token) : Nat :=
  match m.control with
  | [] => 0
  | mode :: below => mode.pending below m.context ts

/-! ### One step -/

/-- At one token the constructs that start are further and further in, and a construct does not end
where it started. -/
def Progresses (mode : Mode) (m : Machine P) (t : Token) : Outcome P → Prop
  | .enter child n => ∀ ts, mode.openings m.context (t :: ts) < child.openings n.context (t :: ts)
  | .leave _ => ∀ ts, mode.openings m.context (t :: ts) = 0
  | .stay _ | .close _ => True

variable {d : Dialect P} {m : Machine P} {t : Token} {o : Outcome P} {mode : Mode}

lemma progresses_of_map_stay {x : Except Error (Machine P)} (h : x.map Outcome.stay = .ok o) :
    Progresses mode m t o := by
  cases x with
  | error e => cases h
  | ok n => cases h; trivial

lemma progresses_of_map_close {x : Except Error (Machine P)} (h : x.map Outcome.close = .ok o) :
    Progresses mode m t o := by
  cases x with
  | error e => cases h
  | ok n => cases h; trivial

lemma progresses_stepRoot (h : stepRoot d m t = .ok o) : Progresses .root m t o := by
  unfold stepRoot at h
  split at h
  · cases h; trivial
  split at h
  · exact progresses_of_map_stay h
  split at h
  · next hkeyword =>
    cases h
    intro ts
    have hkeyword : t.isKeyword "map" := by simp_all
    simp only [Mode.openings]
    split <;> simp_all
  split at h
  · cases h
    simp [Progresses, Mode.openings, pushFrame]
  · cases h

lemma progresses_stepSelector (hbody : ¬ m.inRuleBody) (h : stepSelector d m t = .ok o) :
    Progresses .rule m t o := by
  -- in the head of a rule there is one thing left to open
  have hone (ts : List Token) : Mode.rule.openings m.context ts = 1 := by
    unfold Mode.openings
    split <;> simp_all [inRuleBody]
  unfold stepSelector at h
  split at h
  · split at h
    · exact progresses_of_map_stay h
    · cases h
  · split at h
    · cases h; trivial
    · cases h
  · split at h
    · exact progresses_of_map_stay h
    · cases h
  unfold stepSelectorPart at h
  split at h
  · cases h; trivial
  · exact progresses_of_map_stay h
  · exact progresses_of_map_stay h
  · split at h
    · cases h; trivial
    split at h
    · exact progresses_of_map_stay h
    · cases h
  · -- the delimiters; only `[` starts another construct at the token itself
    next hkind =>
    split at h
    · cases h; trivial
    split at h
    · cases hs : m.updateSelector t _ <;> rw [hs] at h <;> cases h
      trivial
    split at h
    · next hbracket =>
      cases h
      intro ts
      rw [hone]
      simp [Mode.openings, Token.isDelimiter, hkind, hbracket]
    split at h
    · exact progresses_of_map_stay h
    · cases h
  · cases h

lemma progresses_stepBody (hbody : m.inRuleBody) (h : stepBody m t = .ok o) :
    Progresses .rule m t o := by
  have hzero (ts : List Token) : Mode.rule.openings m.context ts = 0 := by
    unfold inRuleBody at hbody
    split at hbody
    · next heq => rw [heq, Mode.openings]
    · cases hbody
  unfold stepBody at h
  split at h
  · cases h; trivial
  split at h
  · cases h; trivial
  split at h
  · split at h
    · cases h
      intro ts
      rw [hzero]
    · exact progresses_of_map_close h
  split at h
  · cases h
    intro ts
    rw [hzero]
    simp [Mode.openings, pushFrame]
  split at h
  · cases h
    intro ts
    rw [hzero]
    simp [Mode.openings, pushFrame]
  · cases h

/-- Values need the colon, so neither a call nor a reference starts at the key of a declaration. -/
lemma openings_of_requireColon {n : Machine P}
    (h : m.updateDeclaration t (requireColon t) = .ok n) (ts : List Token) :
    Mode.declaration.openings m.context ts = 0 ∧ Mode.call.openings n.context ts = 1 ∧
      Mode.reference.openings n.context ts = 1 := by
  unfold updateDeclaration at h
  split at h
  · next decl below hcontext =>
    unfold requireColon at h
    split at h
    · next hseparated =>
      cases h
      simp [Mode.openings, hcontext, hseparated]
    · cases h
  · cases h

lemma openings_of_commit {policy : DuplicateKeys} {n : Machine P} (h : m.commit policy t = .ok n)
    (ts : List Token) : Mode.declaration.openings m.context ts = 0 := by
  unfold commit at h
  split at h
  · next decl below hcontext =>
    cases hseparated : decl.separated with
    | true => simp [Mode.openings, hcontext, hseparated]
    | false =>
      rw [hseparated] at h
      split at h <;> cases h
  · cases h

lemma progresses_stepDeclaration (h : stepDeclaration d m t = .ok o) :
    Progresses .declaration m t o := by
  unfold stepDeclaration at h
  split at h
  · cases h; trivial
  · exact progresses_of_map_stay h
  · exact progresses_of_map_stay h
  · exact progresses_of_map_stay h
  · exact progresses_of_map_stay h
  · cases hn : m.updateDeclaration t (requireColon t) <;> rw [hn] at h <;> cases h
    intro ts
    rw [(openings_of_requireColon hn _).1, (openings_of_requireColon hn _).2.1]
    exact Nat.zero_lt_one
  · split at h
    · exact progresses_of_map_stay h
    split at h
    · exact progresses_of_map_stay h
    split at h
    · cases hn : m.updateDeclaration t (requireColon t) <;> rw [hn] at h <;> cases h
      intro ts
      rw [(openings_of_requireColon hn _).1, (openings_of_requireColon hn _).2.2]
      exact Nat.zero_lt_one
    split at h
    · exact progresses_of_map_close h
    split at h
    · cases hn : m.commit d.duplicateKeys t <;> rw [hn] at h <;> cases h
      intro ts
      exact openings_of_commit hn _
    · cases h
  · cases h

lemma progresses_stepFilter (h : stepFilter d m t = .ok o) : Progresses .filter m t o := by
  unfold stepFilter at h
  split at h
  · unfold stepFilterText at h
    split at h
    · exact progresses_of_map_stay h
    split at h
    · cases h
    · exact progresses_of_map_stay h
  split at h
  · cases h; trivial
  split at h
  · cases h; trivial
  next hbracket =>
  -- whatever ends a row of filters, it is not the bracket of another one
  have hzero (ts : List Token) : Mode.filter.openings m.context (t :: ts) = 0 := by
    simp [Mode.openings, hbracket]
  split at h
  · split at h
    · cases h
    · cases h; trivial
  split at h
  · cases h
    exact hzero
  · cases h
    exact hzero

lemma openings_of_requireArgument {n : Machine P}
    (h : m.updateCall t (requireArgument t) = .ok n) (ts : List Token) :
    Mode.call.openings m.context ts = 0 ∧ Mode.reference.openings n.context ts = 1 := by
  unfold updateCall at h
  split at h
  · next call below hcontext =>
    unfold requireArgument at h
    split at h
    · cases h
      simp [Mode.openings, hcontext]
    · cases h
  · cases h

lemma progresses_stepCall (h : stepCall d m t = .ok o) : Progresses .call m t o := by
  unfold stepCall at h
  split at h
  · unfold stepArguments at h
    split at h
    · cases h
    · cases h; trivial
    · exact progresses_of_map_stay h
    · exact progresses_of_map_stay h
    · exact progresses_of_map_stay h
    · exact progresses_of_map_stay h
    · split at h
      · exact progresses_of_map_stay h
      split at h
      · cases hn : m.updateCall t (requireArgument t) <;> rw [hn] at h <;> cases h
        intro ts
        rw [(openings_of_requireArgument hn _).1, (openings_of_requireArgument hn _).2]
        exact Nat.zero_lt_one
      split at h
      · exact progresses_of_map_close h
      · cases h
    · cases h
  · split at h
    · cases h; trivial
    · cases h

lemma progresses_stepReference (h : stepReference m t = .ok o) : Progresses .reference m t o := by
  unfold stepReference at h
  split at h
  · split at h
    · cases h; trivial
    split at h
    · split at h
      · cases h
      · cases h; trivial
    split at h
    · exact progresses_of_map_close h
    · cases h
  · split at h
    · cases h; trivial
    · cases h

lemma progresses_stepMap (hbody : m.inMapBody) (h : stepMap m t = .ok o) :
    Progresses .map m t o := by
  obtain ⟨below, hcontext⟩ : ∃ below, m.context = .mapBody :: below := by
    unfold inMapBody at hbody
    split at hbody
    · next below heq => exact ⟨below, heq⟩
    · cases hbody
  unfold stepMap at h
  split at h
  · cases h; trivial
  split at h
  · next hbrace =>
    cases h
    intro ts
    have hkeyword : t.isKeyword "map" = false := by
      simp_all [Token.isKeyword, Token.isDelimiter]
    simp [Mode.openings, hcontext, hkeyword]
  split at h
  · cases h
    intro ts
    simp only [Mode.openings, hcontext, pushFrame]
    split <;> simp
  · cases h

lemma progresses_step (hopened : mode = .map → m.inMapBody) (h : step d mode m t = .ok o) :
    Progresses mode m t o := by
  cases mode with
  | root => exact progresses_stepRoot h
  | rule =>
    simp only [step, stepRule] at h
    split at h
    · next hbody => exact progresses_stepBody hbody h
    · next hbody => exact progresses_stepSelector hbody h
  | declaration => exact progresses_stepDeclaration h
  | filter => exact progresses_stepFilter h
  | call => exact progresses_stepCall h
  | reference => exact progresses_stepReference h
  | map => exact progresses_stepMap (hopened rfl) h

/-! ### Activations -/

lemma pending_of_control {below : List Mode} (hcontrol : m.control = mode :: below)
    (ts : List Token) : m.pending ts = mode.pending below m.context ts := by
  rw [pending, hcontrol]

lemma pending_le (m : Machine P) (ts : List Token) :
    m.pending ts ≤ m.control.length + 2 * (2 * ts.length) := by
  unfold pending
  split
  · omega
  · next h => rw [h, List.length_cons, Mode.pending]; omega

lemma inMapBody_of_stepMap_stay {n : Machine P} (hbody : m.inMapBody)
    (h : stepMap m t = .ok (.stay n)) : n.inMapBody := by
  unfold stepMap at h
  split at h
  · cases h
    exact hbody
  split at h
  · cases h
  split at h <;> cases h

/-- A step never leaves more to do than before, and less unless the same mode goes on. -/
lemma pending_next {below : List Mode} (hopened : mode = .map → m.inMapBody)
    (h : step d mode m t = .ok o) (ts : List Token) :
    (o.next mode below t ts).1.pending (o.next mode below t ts).2 + (o.next mode below t ts).2.length <
        mode.pending below m.context (t :: ts) + (t :: ts).length ∧
      ((∀ n, o ≠ .stay n) → (o.next mode below t ts).1.pending (o.next mode below t ts).2 <
        mode.pending below m.context (t :: ts)) := by
  -- each token is worth more than all that can be opened at it
  have hle := mode.openings_le m.context (t :: ts)
  have hprogress := progresses_step hopened h
  simp only [Mode.pending, List.length_cons]
  cases o with
  | stay n =>
    simp only [Outcome.next, pending, Mode.pending]
    exact ⟨by omega, fun hne => absurd rfl (hne n)⟩
  | enter child n =>
    have hlt := hprogress ts
    have hchild := child.openings_le n.context (t :: ts)
    simp only [Outcome.next, pending, Mode.pending, List.length_cons]
    exact ⟨by omega, fun _ => by omega⟩
  | leave n =>
    have hzero := hprogress ts
    have hn : ({ n with control := below } : Machine P).pending (t :: ts) ≤
      below.length + 2 * (2 * (ts.length + 1)) := pending_le _ _
    simp only [Outcome.next, List.length_cons]
    exact ⟨by omega, fun _ => by omega⟩
  | close n =>
    have hn : ({ n with control := below } : Machine P).pending ts ≤
      below.length + 2 * (2 * ts.length) := pending_le _ _
    simp only [Outcome.next]
    exact ⟨by omega, fun _ => by omega⟩

/-- Each activation of a mode whose construct is open leaves less to do. -/
lemma pending_readTokens {below : List Mode} {ts rest : List Token} {n : Machine P}
    (hopened : mode = .map → m.inMapBody) (h : readTokens d mode below m ts = .ok (n, rest)) :
    n.pending rest < mode.pending below m.context ts := by
  induction ts generalizing m with
  | nil =>
    cases hend : m.stepEnd mode <;> rw [readTokens, hend] at h <;> cases h
    -- at the end only the modes below are left to end
    have hn : ({ m with control := below } : Machine P).pending [] ≤ below.length :=
      pending_le _ _
    rw [Mode.pending]
    omega
  | cons t ts ih =>
    rw [readTokens] at h
    split at h
    · cases h
    · next k hstep =>
      have hstill : mode = .map → k.inMapBody := by
        rintro rfl
        exact inMapBody_of_stepMap_stay (m := { m with last := t.location }) (hopened rfl) hstep
      -- the same mode goes on with one token less
      have hk := ih hstill h
      have hle := mode.openings_le m.context (t :: ts)
      rw [Mode.pending] at hk ⊢
      rw [List.length_cons]
      omega
    · -- a child starts, or the construct ends, each at the cost of what is pending
      next child k hstep =>
      cases h
      exact (pending_next (m := { m with last := t.location }) hopened hstep ts).2 nofun
    · next k hstep =>
      cases h
      exact (pending_next (m := { m with last := t.location }) hopened hstep ts).2 nofun
    · next k hstep =>
      cases h
      exact (pending_next (m := { m with last := t.location }) hopened hstep rest).2 nofun

lemma activate_of_opened {below : List Mode} (hcontrol : m.control = mode :: below)
    (hopened : mode = .map → m.inMapBody) (ts : List Token) :
    m.activate d ts = readTokens d mode below m ts := by
  unfold activate
  split
  · next h => rw [hcontrol] at h; cases h
  · next below' h =>
    rw [hcontrol] at h
    cases h
    rw [if_pos (hopened rfl)]
  · next mode' below' h =>
    rw [hcontrol] at h
    cases h
    rfl

/-- Opening a `Map` block takes its keyword and its brace, so it leaves less to do. -/
lemma openMap_eq_ok {ts rest : List Token} {n : Machine P} (h : m.openMap ts = .ok (n, rest))
    (below : List Mode) :
    n.inMapBody ∧ n.control = m.control ∧ rest.length ≤ ts.length ∧
      Mode.map.pending below n.context rest < Mode.map.pending below m.context ts := by
  have hle := Mode.map.openings_le m.context ts
  unfold openMap at h
  split at h
  · cases h
  · next brace us hbrace =>
    split at h
    · cases h
      have hlength := (List.dropWhile_sublist Token.isWhitespace (l := ts.tail)).length_le
      rw [hbrace, List.length_cons, List.length_tail] at hlength
      refine ⟨rfl, rfl, by omega, ?_⟩
      simp only [Mode.pending]
      omega
    · cases h

lemma activate_of_unopened {below : List Mode} (hcontrol : m.control = .map :: below)
    (hunopened : ¬ m.inMapBody) (ts : List Token) :
    m.activate d ts =
      (m.openMap ts).bind fun (n, rest) => readTokens d .map below n rest := by
  unfold activate
  split
  · next h => rw [hcontrol] at h; cases h
  · next below' h =>
    rw [hcontrol] at h
    cases h
    rw [if_neg hunopened]
    cases m.openMap ts <;> rfl
  · next hne h =>
    rw [hcontrol] at h
    cases h
    exact absurd rfl hne

/-- Each activation leaves less to do. -/
theorem pending_activate {ts rest : List Token} {n : Machine P} (hcontrol : m.control ≠ [])
    (h : m.activate d ts = .ok (n, rest)) : n.pending rest < m.pending ts := by
  obtain ⟨mode, below, hmode⟩ := List.exists_cons_of_ne_nil hcontrol
  rw [pending_of_control hmode]
  by_cases hopened : mode = .map → m.inMapBody
  · rw [activate_of_opened hmode hopened] at h
    exact pending_readTokens hopened h
  · obtain ⟨rfl, hunopened⟩ := Classical.not_imp.mp hopened
    rw [activate_of_unopened hmode hunopened] at h
    cases hmap : m.openMap ts with
    | error e => rw [hmap] at h; cases h
    | ok p =>
      rw [hmap] at h
      obtain ⟨hbody, _, _, hlt⟩ := openMap_eq_ok hmap below
      exact Nat.lt_trans (pending_readTokens (fun _ => hbody) h) hlt

/-! ### Reading to the end -/

/-- What comes of reading the tokens that are left, from some state on. -/
def read (d : Dialect P) (m : Machine P) (ts : List Token) : Except Error (Parsed P) :=
  (run d (m.pending ts) m ts).bind fun (n, rest) => n.finish rest

lemma run_of_control_nil (hcontrol : m.control = []) (k : Nat) (ts : List Token) :
    run d k m ts = .ok (m, ts) := by
  cases k <;> simp [run, hcontrol]

lemma run_succ (hcontrol : m.control ≠ []) (k : Nat) (ts : List Token) :
    run d (k + 1) m ts = (m.activate d ts).bind fun (n, rest) => run d k n rest := by
  rw [run, if_neg (by simpa using hcontrol)]
  cases m.activate d ts <;> rfl

/-- Fuel beyond the bound makes no difference. -/
lemma run_eq_of_pending_le {k : Nat} {ts : List Token} (h : m.pending ts ≤ k) :
    run d k m ts = run d (m.pending ts) m ts := by
  induction k using Nat.strongRecOn generalizing m ts with
  | ind k ih =>
    by_cases hcontrol : m.control = []
    · rw [run_of_control_nil hcontrol, run_of_control_nil hcontrol]
    have hpos : m.pending ts ≠ 0 := by
      obtain ⟨mode, below, hmode⟩ := List.exists_cons_of_ne_nil hcontrol
      simp [pending, Mode.pending, hmode]
    obtain ⟨j, rfl⟩ := Nat.exists_eq_succ_of_ne_zero (Nat.ne_zero_of_lt (Nat.lt_of_lt_of_le
      (Nat.pos_of_ne_zero hpos) h))
    obtain ⟨i, hi⟩ := Nat.exists_eq_succ_of_ne_zero hpos
    rw [hi, run_succ hcontrol, run_succ hcontrol]
    cases hact : m.activate d ts with
    | error e => rfl
    | ok p =>
      obtain ⟨n, rest⟩ := p
      have hlt := pending_activate hcontrol hact
      have hj : n.pending rest ≤ j := by omega
      have hi' : n.pending rest ≤ i := by omega
      change run d j n rest = run d i n rest
      rw [ih j (by omega) hj, ih i (by omega) hi']

/-- With enough fuel the control stack is empty at the end. -/
lemma control_of_run {k : Nat} {ts rest : List Token} {n : Machine P} (h : m.pending ts ≤ k)
    (hrun : run d k m ts = .ok (n, rest)) : n.control = [] := by
  induction k generalizing m ts with
  | zero =>
    obtain ⟨rfl, rfl⟩ : m = n ∧ ts = rest := by simpa [run] using hrun
    cases hcontrol : m.control with
    | nil => rfl
    | cons mode below => simp [pending, Mode.pending, hcontrol] at h
  | succ k ih =>
    by_cases hcontrol : m.control = []
    · rw [run_of_control_nil hcontrol] at hrun
      cases hrun
      exact hcontrol
    rw [run_succ hcontrol] at hrun
    cases hact : m.activate d ts with
    | error e => rw [hact] at hrun; cases hrun
    | ok p =>
      rw [hact] at hrun
      have hlt := pending_activate hcontrol hact
      exact ih (by omega) hrun

lemma read_of_control_nil (hcontrol : m.control = []) (ts : List Token) :
    read d m ts = m.finish ts := by
  rw [read, run_of_control_nil hcontrol]
  rfl

lemma read_of_activate (hcontrol : m.control ≠ []) (ts : List Token) :
    read d m ts = (m.activate d ts).bind fun (n, rest) => read d n rest := by
  obtain ⟨mode, below, hmode⟩ := List.exists_cons_of_ne_nil hcontrol
  obtain ⟨k, hk⟩ : ∃ k, m.pending ts = k + 1 := by
    refine Nat.exists_eq_add_one_of_ne_zero ?_
    simp [pending, Mode.pending, hmode]
  rw [read, hk, run_succ hcontrol]
  cases hact : m.activate d ts with
  | error e => rfl
  | ok p =>
    obtain ⟨n, rest⟩ := p
    have hlt := pending_activate hcontrol hact
    change (run d k n rest).bind _ = read d n rest
    rw [run_eq_of_pending_le (by omega), read]

lemma pending_start (ts : List Token) : ({} : Machine P).pending ts = 4 * ts.length + 1 := by
  simp only [pending, Mode.pending, Mode.openings, List.length_nil]
  omega

/-- The fuel of a reader is enough. -/
theorem parseTokens_eq_read (d : Dialect P) (ts : List Token) : d.parseTokens ts = read d {} ts := by
  rw [Dialect.parseTokens, read, pending_start]
  cases run d (4 * ts.length + 1) {} ts <;> rfl

/-! ### Reading token by token -/

lemma control_step (h : step d mode m t = .ok o) : o.machine.control = m.control := by
  let s : Surroundings P := { control := fun _ => m.control }
  have hs : m.within s = m := by simp [within, s]
  have hstep := step_within s m t (fun _ _ => rfl) (d := d) mode
  rw [hs, h] at hstep
  have hself : o = o.map (within s) := Except.ok.inj hstep
  rw [hself]
  cases o <;> rfl

/-- Reading goes on after each step with what the step has left. -/
theorem read_cons {below : List Mode} (hcontrol : m.control = mode :: below)
    (hopened : mode = .map → m.inMapBody) (t : Token) (ts : List Token) :
    read d m (t :: ts) = (step d mode { m with last := t.location } t).bind fun o =>
      read d (o.next mode below t ts).1 (o.next mode below t ts).2 := by
  rw [read_of_activate (by simp [hcontrol]), activate_of_opened hcontrol hopened, readTokens]
  cases hstep : step d mode { m with last := t.location } t with
  | error e => rfl
  | ok o =>
    cases o with
    | stay n =>
      have hn : n.control = mode :: below := (control_step hstep).trans hcontrol
      have hstill : mode = .map → n.inMapBody := by
        rintro rfl
        exact inMapBody_of_stepMap_stay (m := { m with last := t.location }) (hopened rfl) hstep
      have hself : ({ n with control := mode :: below } : Machine P) = n := by rw [← hn]
      change _ = read d { n with control := mode :: below } ts
      rw [hself, read_of_activate (by simp [hn]), activate_of_opened hn hstill]
    | enter child n => rfl
    | leave n => rfl
    | close n => rfl

lemma read_nil {below : List Mode} (hcontrol : m.control = mode :: below)
    (hopened : mode = .map → m.inMapBody) :
    read d m [] = (m.stepEnd mode).bind fun _ => read d { m with control := below } [] := by
  rw [read_of_activate (by simp [hcontrol]), activate_of_opened hcontrol hopened, readTokens]
  cases m.stepEnd mode <;> rfl

lemma read_of_unopened {below : List Mode} (hcontrol : m.control = .map :: below)
    (hunopened : ¬ m.inMapBody) (ts : List Token) :
    read d m ts = (m.openMap ts).bind fun (n, rest) => read d n rest := by
  rw [read_of_activate (by simp [hcontrol]), activate_of_unopened hcontrol hunopened]
  cases hmap : m.openMap ts with
  | error e => rfl
  | ok p =>
    obtain ⟨n, rest⟩ := p
    obtain ⟨hbody, hn, _⟩ := openMap_eq_ok hmap below
    rw [hcontrol] at hn
    change _ = read d n rest
    rw [read_of_activate (by simp [hn]), activate_of_opened hn fun _ => hbody]
    rfl

/-- To show something of a state and the tokens that are left, it may be supposed of what comes next:
behind the step at the token at hand, behind the brace of a `Map` block, or below at the end. -/
theorem read_induction {motive : Machine P → List Token → Prop}
    (done : ∀ m ts, m.control = [] → motive m ts)
    (ends : ∀ m mode below, m.control = mode :: below → (mode = .map → m.inMapBody) →
      (m.stepEnd mode = .ok () → motive { m with control := below } []) → motive m [])
    (steps : ∀ m mode below t ts, m.control = mode :: below → (mode = .map → m.inMapBody) →
      (∀ o, step d mode { m with last := t.location } t = .ok o →
        motive (o.next mode below t ts).1 (o.next mode below t ts).2) → motive m (t :: ts))
    (opens : ∀ m below ts, m.control = .map :: below → ¬ m.inMapBody →
      (∀ n rest, m.openMap ts = .ok (n, rest) → motive n rest) → motive m ts)
    (m : Machine P) (ts : List Token) : motive m ts := by
  -- every step lowers what is pending and left together
  induction hk : m.pending ts + ts.length using Nat.strongRecOn generalizing m ts with
  | ind k ih =>
    subst hk
    match hcontrol : m.control with
    | [] => exact done m ts hcontrol
    | mode :: below =>
      have hpending := pending_of_control hcontrol ts
      by_cases hopened : mode = .map → m.inMapBody
      · cases ts with
        | nil =>  -- at the end of the tokens a construct is left, and less is pending
          refine ends m mode below hcontrol hopened fun hend => ih _ ?_ _ _ rfl
          have hread : readTokens d mode below m [] = .ok ({ m with control := below }, []) := by
            rw [readTokens, hend]
            rfl
          have hlt := pending_readTokens hopened hread
          omega
        | cons t ts =>
          refine steps m mode below t ts hcontrol hopened fun o hstep => ih _ ?_ _ _ rfl
          rw [hpending]
          exact (pending_next (m := { m with last := t.location }) hopened hstep ts).1
      · -- the brace of a `Map` block is looked for, and its tokens are left behind
        obtain ⟨rfl, hunopened⟩ := Classical.not_imp.mp hopened
        refine opens m below ts hcontrol hunopened fun n rest hmap => ih _ ?_ _ _ rfl
        obtain ⟨_, hn, hlength, hlt⟩ := openMap_eq_ok hmap below
        rw [hpending, pending_of_control (hn.trans hcontrol)]
        omega

end Machine

end MapStyle
